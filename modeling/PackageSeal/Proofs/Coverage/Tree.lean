import PackageSeal.Proofs.Coverage.Refusals
import PackageSeal.Proofs.Disk.Flat

/-!
# The members of a tree

A coverage of the tree takes every regular file below the root but its own, one member for each, and
names it by its path below the root in normal form (`StandsFor`). Because a backslash becomes a
separator and separators at the front are dropped, two files can come to one name and a file can
come to none (`Collide`).

* `gather_places_eq_ok_iff`: what members there are where all of them can be enrolled.
* `gather_places_broken_iff`: they can be enrolled exactly where no names collide.
* `gather_places_of_plain`: without backslashes none do.

Together: enumerating a tree neither loses nor merges a file (`members_tree_exact`).
-/

namespace PackageSeal

/-! ## Names in normal form -/

/-- The path that names make, seen from where they start. -/
def Path.relative (texts : List String) : Path :=
  ⟨String.ofList (Text.joinWith '/' (texts.map String.toList))⟩

namespace MemberName

/-- The normal form of the path that names make. -/
def normalForm (texts : List String) : List Char :=
  normalize (Path.relative texts).text.toList

theorem nul_notMem_normalize {chars : List Char} (h : '\x00' ∉ chars) :
    '\x00' ∉ normalize chars := by
  intro hmem
  obtain ⟨c, hc, heq⟩ := List.mem_map.mp ((dropLeading_suffix _).subset hmem)
  by_cases hback : c = '\\'
  · rw [if_pos hback] at heq
    exact absurd heq (by decide)
  · rw [if_neg hback] at heq
    exact h (heq ▸ hc)

theorem nul_notMem_normalForm {texts : List String} (h : ∀ text ∈ texts, '\x00' ∉ text.toList) :
    '\x00' ∉ normalForm texts := by
  refine nul_notMem_normalize ?_
  rw [Path.relative, String.toList_ofList]
  intro hmem
  obtain ⟨piece, hpiece, hchar⟩ := Text.mem_of_mem_joinWith (by decide) hmem
  obtain ⟨text, htext, rfl⟩ := List.mem_map.mp hpiece
  exact h text htext hchar

/-- Names give the member name whose characters are their normal form. -/
theorem ofTexts_eq_ok_iff {texts : List String} {name : MemberName} :
    ofTexts texts = .ok name ↔ name.text.toList = normalForm texts :=
  ofText_eq_ok_iff

/-- Nothing is left in the normal form of names without NUL that give no member name. -/
theorem normalForm_eq_nil {texts : List String} (h : ∀ text ∈ texts, '\x00' ∉ text.toList)
    {fault : NameFault} (hname : ofTexts texts = .error fault) : normalForm texts = [] := by
  obtain ⟨hempty, -⟩ | ⟨-, hnul, -⟩ := ofText_eq_error_iff.mp hname
  · exact hempty
  · exact absurd hnul (nul_notMem_normalForm h)

end MemberName

namespace Coverage

variable {disk : Disk} {root : Path} {loc : Location} {artifact : String}
  {places : List (List String × Bytes)}

/-! ## Files and members -/

/-- The member stands for the file: its source descends to it, and its name is the path of the file
below the root in normal form. -/
structure StandsFor (root : Path) (place : List String × Bytes) (member : Member) : Prop where
  source : member.source = root.descend (Path.names place.1)
  name : member.name.text.toList = MemberName.normalForm place.1

/-- Some file comes to no name, or two different files come to one. -/
def Collide (places : List (List String × Bytes)) : Prop :=
  (∃ place ∈ places, MemberName.normalForm place.1 = []) ∨
    ∃ place ∈ places, ∃ other ∈ places, place.1 ≠ other.1 ∧
      MemberName.normalForm place.1 = MemberName.normalForm other.1

/-- The files of a tree are gathered as members. -/
theorem members_tree_eq (hw : disk.WellFormed) (hleads : disk.Leads root loc)
    (hdir : disk.at? loc = some .dir) (hwalk : disk.Walkable root loc) (artifact : String) :
    ∃ places, IsCensus disk loc artifact places ∧
      (ofTree artifact).members disk root = Roster.gather (memberOfFile root) .empty
        (places.map fun place => root.descend (Path.names place.1)) := by
  obtain ⟨files, hfiles⟩ := Disk.filesUnder_of_walkable hw hleads hdir hwalk
  obtain ⟨found, hlisted⟩ := Disk.listed_of_filesUnder hw hfiles
  obtain rfl := hleads.unique hlisted.leads
  obtain ⟨places, hcensus, hpaths⟩ := census_of_listed hlisted
  refine ⟨places, hcensus, ?_⟩
  rw [← hpaths]
  show (Sidecar.filesUnder disk root >>= _) = _
  rw [Sidecar.filesUnder, hfiles]
  rfl

/-- The file at a place is found as the member that stands for it. -/
theorem memberOfFile_place (hroot : root.text ≠ "") {place : List String × Bytes}
    (hplace : IsPlace place.1) {member : Member} :
    memberOfFile root (root.descend (Path.names place.1)) = .ok member ↔
      StandsFor root place member := by
  rw [memberOfFile_descend hroot hplace.isName hplace.ne_nil, MemberName.ofTexts_eq_ok_iff]
  exact ⟨fun ⟨hname, hsource⟩ => ⟨hsource, hname⟩, fun h => ⟨h.name, h.source⟩⟩

/-- **Where the members come together, there is one for each file**, and no others. -/
theorem gather_places_eq_ok_iff (hroot : root.text ≠ "")
    (hplaces : ∀ place ∈ places, IsPlace place.1) {roster : Roster} :
    Roster.gather (memberOfFile root) .empty
        (places.map fun place => root.descend (Path.names place.1)) = .ok roster ↔
      ∃ found, List.Forall₂ (StandsFor root) places found ∧ roster.members.Perm found := by
  rw [Roster.gather_eq_ok_iff]
  refine exists_congr fun found => and_congr_left fun _ => ?_
  rw [List.forall₂_map_left_iff]
  exact forall₂_congr_of_mem fun place hplace member =>
    memberOfFile_place hroot (hplaces place hplace)

/-- **Where they do not, names collide**, and a rule is broken that is not about the root. -/
theorem collide_of_gather_error (hroot : root.text ≠ "")
    (hplaces : ∀ place ∈ places, IsPlace place.1) (hnodup : (places.map Prod.fst).Nodup)
    {failure : Failure} (h : Roster.gather (memberOfFile root) .empty
      (places.map fun place => root.descend (Path.names place.1)) = .error failure) :
    Collide places ∧
      ∃ fault, failure = .brokenRule fault ∧ ∀ path other, fault ≠ .outsideRoot path other := by
  obtain ⟨front, place, rest, rfl, hcause⟩ := gather_places_eq_error hroot hplaces h
  have hplace := hplaces place (by simp)
  obtain ⟨fault, hname, rfl⟩ | ⟨other, hother, name, hname', hname, rfl⟩ := hcause
  · have hform := MemberName.normalForm_eq_nil hplace.no_nul hname
    exact ⟨.inl ⟨place, by simp, hform⟩, _, rfl, fun path other => by simp⟩
  · have hform := MemberName.ofTexts_eq_ok_iff.mp hname
    have hform' := MemberName.ofTexts_eq_ok_iff.mp hname'
    refine ⟨.inr ⟨other, by simp [hother], place, by simp, ?_, hform'.symm.trans hform⟩, _, rfl,
      fun path other => by simp⟩
    -- The two files stand at different positions of the census.
    rw [List.map_append, List.map_cons, List.nodup_append] at hnodup
    exact hnodup.2.2 _ (List.mem_map_of_mem hother) _ List.mem_cons_self

/-- Members that stand for files have names, and different ones for different files. -/
theorem not_collide_of_gather {roster : Roster} {found : List Member}
    (hfound : List.Forall₂ (StandsFor root) places found) (hperm : roster.members.Perm found) :
    ¬ Collide places := by
  rintro (⟨place, hplace, hempty⟩ | ⟨place, hplace, other, hother, hne, hsame⟩)
  · obtain ⟨member, -, hstands⟩ := exists_right_of_forall₂ hfound hplace
    exact member.name.isNormal.ne_nil (hstands.name.trans hempty)
  · have hnames : (found.map Member.name).Nodup := (hperm.map Member.name).nodup_iff.mp
      roster.nodup_names
    have htexts : (found.map fun member => member.name.text.toList).Nodup := by
      have hmap : (found.map fun member => member.name.text.toList) =
          (found.map Member.name).map fun name => name.text.toList := by
        rw [List.map_map]
        rfl
      rw [hmap]
      exact hnames.map fun a b hab => MemberName.ext (String.toList_inj.mp hab)
    have hforms : (found.map fun member => member.name.text.toList) =
        places.map fun place => MemberName.normalForm place.1 :=
      map_eq_map_of_forall₂ hfound.flip fun member place hstands => hstands.name
    rw [hforms] at htexts
    exact hne (congrArg Prod.fst (List.inj_on_of_nodup_map htexts hplace hother hsame))

/-- **A rule is broken exactly where names collide.** -/
theorem gather_places_broken_iff (hroot : root.text ≠ "")
    (hplaces : ∀ place ∈ places, IsPlace place.1) (hnodup : (places.map Prod.fst).Nodup) :
    (∃ fault, Roster.gather (memberOfFile root) .empty
        (places.map fun place => root.descend (Path.names place.1)) = .error (.brokenRule fault)) ↔
      Collide places := by
  constructor
  · rintro ⟨fault, hfault⟩
    exact (collide_of_gather_error hroot hplaces hnodup hfault).1
  · intro hcollide
    cases hresult : Roster.gather (memberOfFile root) .empty
        (places.map fun place => root.descend (Path.names place.1)) with
    | ok roster =>
        obtain ⟨found, hfound, hperm⟩ := (gather_places_eq_ok_iff hroot hplaces).mp hresult
        exact absurd hcollide (not_collide_of_gather hfound hperm)
    | error failure =>
        obtain ⟨-, fault, rfl, -⟩ := collide_of_gather_error hroot hplaces hnodup hresult
        exact ⟨fault, rfl⟩

/-! ## Names without backslashes -/

/-- Without backslashes the normal form of a path is the path. -/
theorem normalForm_eq_of_plain {texts : List String} (hplace : IsPlace texts)
    (hback : ∀ text ∈ texts, '\\' ∉ text.toList) :
    MemberName.normalForm texts = (Path.relative texts).text.toList := by
  rw [MemberName.normalForm, Path.relative, String.toList_ofList]
  exact MemberName.normalize_joinWith hplace.ne_nil hplace.isName hback

/-- **Without backslashes no names collide.** -/
theorem not_collide_of_plain (hplaces : ∀ place ∈ places, IsPlace place.1)
    (hback : ∀ place ∈ places, ∀ text ∈ place.1, '\\' ∉ text.toList) : ¬ Collide places := by
  have hname : ∀ place ∈ places, ∃ name, MemberName.ofTexts place.1 = .ok name ∧
      name.text.toList = MemberName.normalForm place.1 := by
    intro place hplace
    have h := hplaces place hplace
    obtain ⟨name, hname⟩ :=
      MemberName.exists_ofTexts h.ne_nil h.isName (hback place hplace) h.no_nul
    exact ⟨name, hname, MemberName.ofTexts_eq_ok_iff.mp hname⟩
  rintro (⟨place, hplace, hempty⟩ | ⟨place, hplace, other, hother, hne, hsame⟩)
  · obtain ⟨name, -, hform⟩ := hname place hplace
    exact name.isNormal.ne_nil (hform.trans hempty)
  · have h := hplaces place hplace
    have h' := hplaces other hother
    obtain ⟨name, hok, hform⟩ := hname place hplace
    have hok' : MemberName.ofTexts other.1 = .ok name :=
      MemberName.ofTexts_eq_ok_iff.mpr (hform.trans hsame)
    exact hne (MemberName.ofTexts_inj h.ne_nil h'.ne_nil h.isName h'.isName (hback place hplace)
      (hback other hother) hok hok')

/-- **Without backslashes the members come together**, each named by the path of its source below
the root. -/
theorem gather_places_of_plain (hroot : root.text ≠ "")
    (hplaces : ∀ place ∈ places, IsPlace place.1) (hnodup : (places.map Prod.fst).Nodup)
    (hback : ∀ place ∈ places, ∀ text ∈ place.1, '\\' ∉ text.toList) :
    ∃ roster, Roster.gather (memberOfFile root) .empty
        (places.map fun place => root.descend (Path.names place.1)) = .ok roster ∧
      ∀ member ∈ roster.members, root.below? member.source = some ⟨member.name.text⟩ := by
  cases hresult : Roster.gather (memberOfFile root) .empty
      (places.map fun place => root.descend (Path.names place.1)) with
  | error failure =>
      have hcollide := (collide_of_gather_error hroot hplaces hnodup hresult).1
      exact absurd hcollide (not_collide_of_plain hplaces hback)
  | ok roster =>
      obtain ⟨found, hfound, hperm⟩ := (gather_places_eq_ok_iff hroot hplaces).mp hresult
      refine ⟨roster, rfl, fun member hmember => ?_⟩
      obtain ⟨place, hplace, hstands⟩ := exists_left_of_forall₂ hfound (hperm.mem_iff.mp hmember)
      have h := hplaces place hplace
      have htext : member.name.text = (Path.relative place.1).text :=
        String.toList_inj.mp (hstands.name.trans (normalForm_eq_of_plain h (hback place hplace)))
      rw [hstands.source, Path.below?_descend hroot h.isName h.ne_nil, htext]
      rfl

/-! ## Enumerating a tree -/

/-- A file of a census can be read along its path, unless the path is too long. -/
theorem IsCensus.read (hcensus : IsCensus disk loc artifact places) (hw : disk.WellFormed)
    (hleads : disk.Leads root loc) (hdir : disk.at? loc = some .dir) {place : List String × Bytes}
    (hplace : place ∈ places)
    (hshort : (root.descend (Path.names place.1)).text.utf8ByteSize ≤ Route.maxLength) :
    disk.read (root.descend (Path.names place.1)) = .ok place.2 := by
  obtain ⟨hall, -, hat⟩ := (hcensus.mem_iff place.1 place.2).mp hplace
  have hroute := Disk.route_descend hw hleads hall hat hshort
  exact Disk.read_eq_ok_iff.mpr ⟨_, Disk.leads_descend hw hleads hdir hall hat hroute, hat⟩

/-- **Enumerating a tree loses and merges nothing.** The files are all regular files below the root
but those called like the signature or its sidecar. Where there are members, there is one for each
file, whose source is the file and whose name is the path below the root in normal form. A rule is
broken exactly where names collide; nothing else goes wrong, and no file is found to be outside of
the root. Without backslashes there are members always, and their names are the paths below the
root. -/
theorem members_tree_exact (hw : disk.WellFormed) (hleads : disk.Leads root loc)
    (hdir : disk.at? loc = some .dir) (hwalk : disk.Walkable root loc) (artifact : String) :
    ∃ places, IsCensus disk loc artifact places ∧
      (∀ rest content, disk.at? (loc ++ rest) = some (.file content) → ¬ IsOwn artifact rest →
        ∃ texts, rest = Path.names texts ∧ (texts, content) ∈ places) ∧
      (∀ place ∈ places,
        (root.descend (Path.names place.1)).text.utf8ByteSize ≤ Route.maxLength →
          disk.read (root.descend (Path.names place.1)) = .ok place.2) ∧
      (∀ roster, (ofTree artifact).members disk root = .ok roster →
        ∃ found, List.Forall₂ (StandsFor root) places found ∧ roster.members.Perm found) ∧
      ((∃ fault, (ofTree artifact).members disk root = .error (.brokenRule fault)) ↔
        Collide places) ∧
      (∀ failure, (ofTree artifact).members disk root = .error failure →
        ∃ fault, failure = .brokenRule fault ∧ ∀ path other, fault ≠ .outsideRoot path other) ∧
      ((∀ place ∈ places, ∀ text ∈ place.1, '\\' ∉ text.toList) →
        ∃ roster, (ofTree artifact).members disk root = .ok roster ∧
          ∀ member ∈ roster.members, root.below? member.source = some ⟨member.name.text⟩) := by
  obtain ⟨places, hcensus, hmembers⟩ := members_tree_eq hw hleads hdir hwalk artifact
  have hroot := hleads.text_ne_empty
  have hplaces := hcensus.isPlace hw hdir
  simp only [hmembers]
  refine ⟨places, hcensus, ?_, fun place hplace => hcensus.read hw hleads hdir hplace,
    fun roster hroster => (gather_places_eq_ok_iff hroot hplaces).mp hroster,
    gather_places_broken_iff hroot hplaces hcensus.nodup,
    fun failure hfailure => (collide_of_gather_error hroot hplaces hcensus.nodup hfailure).2,
    gather_places_of_plain hroot hplaces hcensus.nodup⟩
  intro rest content hat hown
  obtain ⟨texts, rfl, hall⟩ := hwalk.names hw hat
  exact ⟨texts, rfl, (hcensus.mem_iff texts content).mpr ⟨hall, hown, hat⟩⟩

/-- A disk with two files of which one is called like the other behind a backslash. -/
def twinDisk : Disk :=
  .flat [("\\a", [2]), ("a", [1])]

theorem twinDisk_wellFormed : twinDisk.WellFormed :=
  Disk.flat_wellFormed ["\\a", "a"] rfl (by decide) (by decide)

theorem twinDisk_walkable : twinDisk.Walkable ⟨"."⟩ [] :=
  (Disk.walkFault?_eq_none_iff twinDisk_wellFormed rfl).mp rfl

/-- Both files would be the member `a`, and that breaks a rule; if the one with the backslash is the
signature, the other is the only member, under its own name. -/
theorem members_tree_exact_twin :
    twinDisk.WellFormed ∧ twinDisk.Leads ⟨"."⟩ [] ∧ twinDisk.at? [] = some .dir ∧
      twinDisk.Walkable ⟨"."⟩ [] ∧
      (∃ fault, (ofTree "s").members twinDisk ⟨"."⟩ = .error (.brokenRule fault)) ∧
      ∃ roster, (ofTree "\\a").members twinDisk ⟨"."⟩ = .ok roster ∧
        ∀ member ∈ roster.members,
          Path.below? ⟨"."⟩ member.source = some ⟨member.name.text⟩ := by
  have hleads : twinDisk.Leads ⟨"."⟩ [] := ⟨_, rfl⟩
  have hdir : twinDisk.at? [] = some .dir := rfl
  refine ⟨twinDisk_wellFormed, hleads, hdir, twinDisk_walkable, ?_, ?_⟩
  · obtain ⟨places, -, hcomplete, -, -, hbroken, -⟩ :=
      members_tree_exact twinDisk_wellFormed hleads hdir twinDisk_walkable "s"
    have hfound : ∀ text content, twinDisk.at? ([] ++ [.utf8 text]) = some (.file content) →
        ¬ IsOwn "s" [.utf8 text] → ([text], content) ∈ places := by
      intro text content hat hown
      obtain ⟨texts, hnames, hmem⟩ := hcomplete [.utf8 text] content hat hown
      have hsame : Path.names texts = Path.names [text] := hnames.symm
      rwa [Path.names_inj hsame] at hmem
    have hbackslash := hfound "\\a" [2] rfl (by simp [IsOwn, Sidecar.suffix])
    have hplain := hfound "a" [1] rfl (by simp [IsOwn, Sidecar.suffix])
    exact hbroken.mpr (.inr ⟨_, hbackslash, _, hplain, by decide, by decide⟩)
  · obtain ⟨places, hcensus, -, -, -, -, -, hnone⟩ :=
      members_tree_exact twinDisk_wellFormed hleads hdir twinDisk_walkable "\\a"
    refine hnone fun place hplace text htext => ?_
    obtain ⟨-, hown, hat⟩ := (hcensus.mem_iff place.1 place.2).mp hplace
    obtain ⟨-, hitem⟩ | ⟨file, hfile, hloc, -⟩ := Disk.at?_flat_eq_some hat
    · cases hitem
    · have hsame : Path.names place.1 = Path.names [file.1] := hloc
      rw [Path.names_inj hsame, List.mem_singleton] at htext
      rw [hsame] at hown
      rw [htext]
      simp only [List.mem_cons, List.not_mem_nil, or_false] at hfile
      rcases hfile with rfl | rfl
      · exact absurd (.inl rfl) hown
      · decide

end Coverage

end PackageSeal
