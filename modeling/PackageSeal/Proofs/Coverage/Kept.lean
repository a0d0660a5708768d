import PackageSeal.Proofs.Coverage.Holdings
import PackageSeal.Proofs.Disk.Rewrites
import PackageSeal.Proofs.Path.Sources

/-!
# What a coverage holds while files are written

A coverage of listed members holds the same as long as no source is written (`holds_of_apart`), and
a coverage of the tree as long as nothing is written but files called like the signature or its
sidecar (`holds_tree_of_differs`).

A source inside the package names its place below the root, in whatever way it is spelled
(`Rooted.stores_source`), so whether it is written is a matter of places.
-/

namespace PackageSeal

/-- The place of the source of a member, seen from the root. -/
def Member.place (member : Member) : Location :=
  Step.names (Route.ofText member.source.text).steps

namespace Disk

variable {disk after : Disk} {root : Path} {loc : Location}

/-- Nothing can be read along a join with the empty path. -/
theorem text_ne_empty_of_read {other : Path} {content : Bytes}
    (h : disk.read (root.join other) = .ok content) : other.text ≠ "" := by
  intro hempty
  obtain rfl : other = ⟨""⟩ := Path.ext hempty
  by_cases hroot : root.text = ""
  · obtain ⟨found, hleads, -⟩ := read_eq_ok_iff.mp h
    rw [Path.join, if_pos (.inr hroot)] at hleads
    exact hleads.text_ne_empty rfl
  · have hslash := slash_of_read h
    rw [Path.slash_join_empty hroot] at hslash
    cases hslash

/-- A source that can be read stands at the place that its names spell. -/
theorem Rooted.stores_source (h : disk.Rooted root loc) {member : Member}
    (hinside : Layout.staysInside member.source = true) {content : Bytes}
    (hread : disk.read (root.join member.source) = .ok content) :
    disk.Stores (root.join member.source) (loc ++ member.place) content := by
  obtain ⟨found, hleads, hat⟩ := read_eq_ok_iff.mp hread
  obtain rfl := h.leads.below h.linkFree
    (Path.continues_join (Layout.not_isAbsolute_of_staysInside hinside)
      (text_ne_empty_of_read hread))
    (Layout.up_notMem_of_staysInside hinside) hleads
  exact ⟨hleads, hat⟩

end Disk

namespace Coverage

variable {before after : Disk} {root : Path} {loc : Location} {touched : Location → Prop}
  {artifact : String} {arch : Architecture} {listed : List Member}
  {held : List (MemberName × Bytes)}

/-! ## Listed members -/

/-- The listed sources stay inside the package, away from the touched places. -/
def Apart (loc : Location) (touched : Location → Prop) (listed : List Member) : Prop :=
  ∀ member ∈ listed, Layout.staysInside member.source = true ∧ ¬ touched (loc ++ member.place)

/-- What a source held can be read as long as the source is not written. -/
theorem Apart.read (happart : Apart loc touched listed) (hroot : before.Rooted root loc)
    (hdiffers : before.Differs touched after) {member : Member} (hmember : member ∈ listed)
    {content : Bytes} (hread : before.read (root.join member.source) = .ok content) :
    after.read (root.join member.source) = .ok content := by
  obtain ⟨hinside, hplace⟩ := happart member hmember
  have hstores := hroot.stores_source hinside hread
  exact (hdiffers.stores hstores hplace).read

/-- **Listed members are held unchanged** as long as no source is written. -/
theorem holds_of_apart (happart : Apart loc touched listed) (hroot : before.Rooted root loc)
    (hdiffers : before.Differs touched after)
    (h : Holds (.ofArchitecture arch listed) before root held) :
    Holds (.ofArchitecture arch listed) after root held := by
  obtain ⟨hascending, pairs, hpairs, hperm⟩ := holds_listed_iff.mp h
  refine holds_listed_iff.mpr ⟨hascending, pairs, ?_, hperm⟩
  refine forall₂_imp_of_mem (fun member hmember entry hentry => ?_) hpairs
  exact ⟨hentry.1, happart.read hroot hdiffers hmember hentry.2⟩

/-- Members that are found before files are written and read afterwards are what the coverage holds
before. -/
theorem found_iff_holds (happart : Apart loc touched listed) (hroot : before.Rooted root loc)
    (hdiffers : before.Differs touched after) :
    (∃ roster, (ofArchitecture arch listed).members before root = .ok roster ∧
      roster.holdings after = .ok held) ↔ Holds (.ofArchitecture arch listed) before root held := by
  have hgathered : (∃ roster, (ofArchitecture arch listed).members before root = .ok roster ∧
      roster.holdings after = .ok held) ↔
      ∃ roster, Roster.gather (presentMember before root) .empty listed = .ok roster ∧
        roster.holdings after = .ok held := Iff.rfl
  rw [hgathered, Roster.gather_holdings_iff, ofArchitecture, holds_listed_iff]
  refine and_congr_right fun _ => exists_congr fun pairs => and_congr_left fun _ => ?_
  refine forall₂_congr_of_mem fun member hmember entry => ?_
  constructor
  · rintro ⟨present, hpresent, hname, hread⟩
    obtain ⟨hfile, rfl⟩ := presentMember_eq_ok_iff.mp hpresent
    -- What is read afterwards is what was there before.
    obtain ⟨content, hcontent⟩ := Disk.isFile_iff.mp hfile
    have hsame : after.read (root.join member.source) = .ok entry.2 := hread
    rw [happart.read hroot hdiffers hmember hcontent, Except.ok.injEq] at hsame
    exact ⟨hname, by rw [hcontent, hsame]⟩
  · rintro ⟨hname, hread⟩
    exact ⟨_, presentMember_eq_ok_iff.mpr ⟨Disk.isFile_iff.mpr ⟨_, hread⟩, rfl⟩, hname,
      happart.read hroot hdiffers hmember hread⟩

/-! ## The tree -/

/-- Nothing below the root is touched but files called like the signature or its sidecar. -/
def OwnOnly (artifact : String) (loc : Location) (touched : Location → Prop) : Prop :=
  ∀ place, touched place → ∃ rest, place = loc ++ rest ∧ IsOwn artifact rest

theorem exists_text_of_isOwn {front : Location} {name : RawText}
    (h : IsOwn artifact (front ++ [name])) : ∃ text, name = .utf8 text := by
  rw [IsOwn, List.getLast?_concat, Option.some.injEq, Option.some.injEq] at h
  cases h with
  | inl heq => exact ⟨_, heq⟩
  | inr heq => exact ⟨_, heq⟩

/-- **The tree is held unchanged** as long as only the signature itself and its sidecar are
written. -/
theorem holds_tree_of_differs (hown : OwnOnly artifact loc touched)
    (hroot : before.Rooted root loc) (hw : after.WellFormed)
    (hdiffers : before.Differs touched after) (h : Holds (.ofTree artifact) before root held) :
    Holds (.ofTree artifact) after root held := by
  obtain ⟨hascending, start, places, pairs, hleads, hdir, hwalk, hcensus, hpairs, hperm⟩ :=
    (holds_tree_iff hroot.wellFormed).mp h
  obtain rfl := hroot.leads.unique hleads
  have hafter := hroot.of_sameShape hdiffers.shape hw
  have huntouched : ∀ rest, ¬ IsOwn artifact rest → ¬ touched (loc ++ rest) := by
    intro rest hrest htouched
    obtain ⟨other, heq, hother⟩ := hown _ htouched
    rw [List.append_cancel_left heq] at hrest
    exact hrest hother
  refine (holds_tree_iff hw).mpr ⟨hascending, loc, places, pairs, hafter.leads, hafter.dir,
    ?_, ?_, ?_, hperm⟩
  · refine hdiffers.walkable hwalk fun rest name htouched => ?_
    obtain ⟨other, heq, hother⟩ := hown _ htouched
    rw [← List.append_cancel_left heq] at hother
    exact exists_text_of_isOwn hother
  · refine ⟨hcensus.nodup, fun texts content => ?_⟩
    rw [hcensus.mem_iff]
    refine and_congr_right fun _ => and_congr_right fun hrest => ?_
    rw [hdiffers.at?_eq (huntouched _ hrest)]
  · refine forall₂_imp_of_mem (fun place hplace entry hentry => ?_) hpairs
    obtain ⟨htexts, hrest, hat⟩ := (hcensus.mem_iff place.1 place.2).mp hplace
    obtain ⟨hto, hsame⟩ :=
      Disk.read_descend hroot.wellFormed hroot.leads hroot.dir htexts hat hentry.2
    have hstores := hdiffers.stores ⟨hto, hat⟩ (huntouched _ hrest)
    exact ⟨hentry.1, by rw [hstores.read, hsame]⟩

end Coverage

end PackageSeal
