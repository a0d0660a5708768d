import PackageSeal.Proofs.Coverage.Kept
import PackageSeal.Proofs.Layout.Valid
import PackageSeal.Proofs.Sealing.Steps

/-!
# Writing the signatures of the architectures

All members are found before the first signature is written, but they are read one signature after
the other. No signature is written over a source, so what is signed is what the sources held at the
start; and signatures have different names, so each is there at the end (`Inscribed.stores`).
-/

namespace PackageSeal.Sealing

variable {scheme : SignatureScheme} {seed? : Option Seed} {before after : Disk} {root : Path}
  {loc : Location} {names : List String}

/-- The place is that of one of the named files at the root. -/
def IsOutput (loc : Location) (names : List String) (place : Location) : Prop :=
  ∃ name ∈ names, place = loc ++ [.utf8 name]

theorem IsOutput.mono {more : List String} {place : Location} (hsub : names ⊆ more)
    (h : IsOutput loc names place) : IsOutput loc more place := by
  obtain ⟨name, hname, hplace⟩ := h
  exact ⟨name, hsub hname, hplace⟩

theorem isOutput_iff {name : String} :
    IsOutput loc names (loc ++ [.utf8 name]) ↔ name ∈ names := by
  constructor
  · rintro ⟨other, hother, heq⟩
    have hname := (List.cons.inj (List.append_cancel_left heq)).1
    rwa [RawText.utf8.inj hname]
  · intro h
    exact ⟨name, h, rfl⟩

/-- No signature stands at the place of a source that none overwrites. -/
theorem not_isOutput_place {member : Member} (hinside : Layout.staysInside member.source = true)
    (hover : Layout.isOverwritten names member.source = false) :
    ¬ IsOutput loc names (loc ++ member.place) := by
  intro houtput
  obtain ⟨name, hname, heq⟩ := houtput
  exact Layout.names_ne_of_not_isOverwritten hinside hover hname (List.append_cancel_left heq)

/-- Writing signatures changes files only. -/
theorem Inscribed.sameShape {first : Disk} {coverages : List Coverage}
    (h : Inscribed scheme seed? root first before coverages after) (hw : before.WellFormed) :
    Disk.SameShape before after ∧ after.WellFormed := by
  induction h with
  | nil => exact ⟨Disk.SameShape.refl _, hw⟩
  | cons _ hwrite _ ih =>
      obtain ⟨route, place, -, -, hover, -, hmiddle⟩ := Disk.write_eq_ok hw hwrite
      obtain ⟨hshape, hafter⟩ := ih hmiddle
      exact ⟨hover.sameShape.trans hshape, hafter⟩

/-- The coverage lists members that no signature overwrites, and its own signature is one of those
named. -/
structure Listing (loc : Location) (names : List String) (coverage : Coverage) : Prop where
  listed : ∃ arch members, coverage = .ofArchitecture arch members ∧
    Coverage.Apart loc (IsOutput loc names) members
  isArtifactName : Layout.IsArtifactName coverage.artifact
  mem : coverage.artifact ∈ names

/-- It does not matter to the inscription which signatures have been written. -/
theorem Listing.inscription_iff {coverage : Coverage} (h : Listing loc names coverage)
    {first : Disk} (hfirst : first.Rooted root loc)
    (hsofar : first.Differs (IsOutput loc names) before)
    {content : Bytes} :
    Inscription scheme seed? root first before coverage content ↔
      Inscription scheme seed? root first first coverage content := by
  obtain ⟨arch, members, rfl, happart⟩ := h.listed
  cases seed? with
  | none => exact Iff.rfl
  | some seed =>
      have hfound : ∀ held, (∃ roster, (Coverage.ofArchitecture arch members).members first root =
          .ok roster ∧ roster.holdings before = .ok held) ↔ _ :=
        fun held => Coverage.found_iff_holds happart hfirst hsofar
      rw [inscription_some_iff]
      simp only [← hfound]
      constructor
      · rintro ⟨roster, held, hroster, hheld, hcontent⟩
        exact ⟨held, ⟨roster, hroster, hheld⟩, hcontent⟩
      · rintro ⟨held, ⟨roster, hroster, hheld⟩, hcontent⟩
        exact ⟨roster, held, hroster, hheld, hcontent⟩

/-- **Writing signatures one after the other** touches their places only, and each is over what the
sources held at the start. -/
theorem Inscribed.stores {first : Disk} {coverages : List Coverage}
    (h : Inscribed scheme seed? root first before coverages after) (hfirst : first.Rooted root loc)
    (hbefore : before.Rooted root loc) (hsofar : first.Differs (IsOutput loc names) before)
    (hlisting : ∀ coverage ∈ coverages, Listing loc names coverage)
    (hnodup : (coverages.map Coverage.artifact).Nodup) :
    after.Rooted root loc ∧ before.Differs (IsOutput loc (coverages.map Coverage.artifact)) after ∧
      ∀ coverage ∈ coverages, Text.IsName coverage.artifact ∧ ∃ content,
        Inscription scheme seed? root first first coverage content ∧
        after.Stores (coverage.artifactPath root) (loc ++ [.utf8 coverage.artifact]) content := by
  induction h with
  | nil => exact ⟨hbefore, Disk.Differs.refl _ _, by simp⟩
  | @cons disk middle after coverage rest content hcontent hwrite _ ih =>
      rw [List.forall_mem_cons] at hlisting
      rw [List.map_cons, List.nodup_cons] at hnodup
      have hplain := hlisting.1.isArtifactName
      obtain ⟨hname, hover, hmiddle, hstores⟩ :=
        hbefore.write_name hplain.ne_empty hplain.no_separator hwrite
      have hwritten := hover.differs (isOutput_iff.mpr hlisting.1.mem)
      obtain ⟨hafter, hdiffers, hall⟩ := ih hmiddle (hsofar.trans hwritten) hlisting.2 hnodup.2
      refine ⟨hafter, ?_, ?_⟩
      · refine (hover.differs (isOutput_iff.mpr List.mem_cons_self)).trans ?_
        exact hdiffers.mono fun place => IsOutput.mono (List.subset_cons_self _ _)
      · rw [List.forall_mem_cons]
        have hstart := (hlisting.1.inscription_iff hfirst hsofar).mp hcontent
        refine ⟨⟨hname, content, hstart, hdiffers.stores hstores ?_⟩, hall⟩
        rw [isOutput_iff]
        exact hnodup.1

end PackageSeal.Sealing
