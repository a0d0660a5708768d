import PackageSeal.Proofs.Coverage.Rosters
import PackageSeal.Proofs.Disk.Walk
import PackageSeal.Proofs.Frame.Stream
import PackageSeal.Proofs.Path.Named

/-!
# What a coverage holds

`Coverage.Holds` are the named contents that a signature covers on a disk, in the order in which
they are signed. For listed members they are the names with what the sources hold
(`holds_listed_iff`); for the tree they are the regular files below the root but the signature's
own, each named by its place (`holds_tree_iff`).
-/

namespace PackageSeal

namespace Roster

variable {α : Type} {find : α → Except Failure Member} {disk : Disk}

/-- The holdings of a roster stand in the order of the names. -/
theorem holdings_ascending {roster : Roster} {held : List (MemberName × Bytes)}
    (h : roster.holdings disk = .ok held) : held.Pairwise fun a b => a.1 < b.1 := by
  have hnames := map_eq_map_of_forall₂ (holdings_eq_ok_iff.mp h) fun member entry hentry => hentry.1
  have hascending : (roster.members.map Member.name).Pairwise fun a b => a < b :=
    List.pairwise_map.mpr roster.ascending_members
  rw [hnames] at hascending
  exact List.pairwise_map.mp hascending

/-- **What a gathered roster holds**, said without the order of its members. -/
theorem gather_holdings_iff {xs : List α} {held : List (MemberName × Bytes)} :
    (∃ roster, gather find empty xs = .ok roster ∧ roster.holdings disk = .ok held) ↔
      (held.Pairwise fun a b => a.1 < b.1) ∧
        ∃ pairs, List.Forall₂ (fun x entry => ∃ member, find x = .ok member ∧
          member.name = entry.1 ∧ disk.read member.source = .ok entry.2) xs pairs ∧
          held.Perm pairs := by
  simp only [gather_eq_ok_iff]
  constructor
  · rintro ⟨roster, ⟨members, hmembers, hperm⟩, hheld⟩
    obtain ⟨pairs, hpairs, hperm'⟩ :=
      List.perm_comp_forall₂ hperm.symm (holdings_eq_ok_iff.mp hheld)
    exact ⟨holdings_ascending hheld, pairs, forall₂_exists_iff.mpr ⟨members, hmembers, hpairs⟩,
      hperm'.symm⟩
  · rintro ⟨hascending, pairs, hpairs, hperm⟩
    obtain ⟨members, hmembers, hread⟩ := forall₂_exists_iff.mp hpairs
    -- The members in the order of the contents are a roster.
    have hflipped : List.Forall₂ (fun entry member => member.name = entry.1 ∧
        disk.read member.source = .ok entry.2) pairs members := hread.flip
    obtain ⟨ordered, hordered, hperm'⟩ := List.perm_comp_forall₂ hperm hflipped
    have hnames : held.map Prod.fst = ordered.map Member.name :=
      map_eq_map_of_forall₂ hordered fun entry member h => h.1.symm
    have horder : (ordered.map Member.name).Pairwise fun a b => a < b := by
      rw [← hnames]
      exact List.pairwise_map.mpr hascending
    refine ⟨ofMembers ordered (List.pairwise_map.mp horder), ⟨members, hmembers, ?_⟩,
      holdings_eq_ok_iff.mpr ?_⟩
    · rwa [members_ofMembers]
    · rw [members_ofMembers]
      exact hordered.flip

end Roster

namespace Coverage

/-- The named contents that the coverage has in the package at `root`, in order: its members are all
found and read. -/
def Holds (coverage : Coverage) (disk : Disk) (root : Path) (held : List (MemberName × Bytes)) :
    Prop :=
  ∃ roster, coverage.members disk root = .ok roster ∧ roster.holdings disk = .ok held

variable {disk after : Disk} {root : Path} {artifact : String}
  {held : List (MemberName × Bytes)}

/-! ## Listed members -/

theorem presentMember_eq_ok_iff {member present : Member} :
    presentMember disk root member = .ok present ↔
      disk.isFile (root.join member.source) = true ∧ member.under root = present := by
  rw [presentMember]
  show (if disk.isFile (root.join member.source) then _ else _) = _ ↔ _
  by_cases h : disk.isFile (root.join member.source) = true
  · rw [if_pos h, Except.ok.injEq, and_iff_right h]
  · rw [if_neg h]
    simp [h]

/-- **A coverage of listed members holds their names with what their sources hold.** -/
theorem holds_listed_iff {arch : Architecture} {listed : List Member} :
    Holds ⟨artifact, .listed arch listed⟩ disk root held ↔
      (held.Pairwise fun a b => a.1 < b.1) ∧
        ∃ pairs, List.Forall₂ (fun member entry => member.name = entry.1 ∧
          disk.read (root.join member.source) = .ok entry.2) listed pairs ∧ held.Perm pairs := by
  have hpresent : ∀ (member : Member) (entry : MemberName × Bytes),
      (∃ present, presentMember disk root member = .ok present ∧ present.name = entry.1 ∧
        disk.read present.source = .ok entry.2) ↔
        member.name = entry.1 ∧ disk.read (root.join member.source) = .ok entry.2 := by
    intro member entry
    simp only [presentMember_eq_ok_iff]
    constructor
    · rintro ⟨_, ⟨-, rfl⟩, hentry⟩
      exact hentry
    · intro hentry
      exact ⟨_, ⟨Disk.isFile_iff.mpr ⟨_, hentry.2⟩, rfl⟩, hentry⟩
  have hgather : Holds ⟨artifact, .listed arch listed⟩ disk root held ↔
      ∃ roster, Roster.gather (presentMember disk root) .empty listed = .ok roster ∧
        roster.holdings disk = .ok held := Iff.rfl
  rw [hgather, Roster.gather_holdings_iff]
  simp only [hpresent]

/-! ## The tree -/

/-- What stands at the place is called like the signature or its sidecar. -/
def IsOwn (artifact : String) (loc : Location) : Prop :=
  loc.getLast? = some (.utf8 artifact) ∨ loc.getLast? = some (.utf8 (artifact ++ Sidecar.suffix))

theorem isOwnFile_descend {texts : List String} (hroot : root.text ≠ "")
    (h : ∀ text ∈ texts, Text.IsName text) (hne : texts ≠ []) :
    isOwnFile artifact (root.descend (Path.names texts)) = true ↔
      IsOwn artifact (Path.names texts) := by
  obtain ⟨front, name, rfl⟩ := exists_concat hne
  rw [List.forall_mem_append, List.forall_mem_singleton] at h
  rw [isOwnFile, Path.lastName?_descend hroot h.1 h.2, IsOwn, Path.names, List.map_append,
    List.map_singleton, List.getLast?_concat]
  simp

/-- The regular files below a place but those called like the signature or its sidecar, each once,
by the names that lead there and with its content. -/
structure IsCensus (disk : Disk) (loc : Location) (artifact : String)
    (places : List (List String × Bytes)) : Prop where
  nodup : (places.map Prod.fst).Nodup
  mem_iff : ∀ texts content, (texts, content) ∈ places ↔
    (∀ text ∈ texts, Text.IsName text) ∧ ¬ IsOwn artifact (Path.names texts) ∧
      disk.at? (loc ++ Path.names texts) = some (.file content)

/-- What is known of the names that lead to a file of a census. -/
structure IsPlace (texts : List String) : Prop where
  ne_nil : texts ≠ []
  isName : ∀ text ∈ texts, Text.IsName text
  no_nul : ∀ text ∈ texts, '\x00' ∉ text.toList

theorem IsCensus.isPlace {loc : Location} {places : List (List String × Bytes)}
    (hcensus : IsCensus disk loc artifact places) (hw : disk.WellFormed)
    (hdir : disk.at? loc = some .dir) : ∀ place ∈ places, IsPlace place.1 := by
  intro place hplace
  obtain ⟨hall, -, hat⟩ := (hcensus.mem_iff place.1 place.2).mp hplace
  exact ⟨Disk.texts_ne_nil hdir hat, hall,
    fun text htext => (Disk.isName_of_names hw hat text htext).no_nul_text⟩

/-- The files that a walk lists and a tree coverage keeps are a census. -/
theorem census_of_listed {loc : Location} {files : List Path}
    (h : Disk.Listed disk root loc files) :
    ∃ places, IsCensus disk loc artifact places ∧
      files.filter (fun path => !isOwnFile artifact path) =
        places.map fun place => root.descend (Path.names place.1) := by
  obtain ⟨places, hfiles, hnodup, hmem⟩ := h.places
  let kept := places.filter fun place => !isOwnFile artifact (root.descend (Path.names place.1))
  refine ⟨kept, ⟨?_, fun texts content => ?_⟩, ?_⟩
  · exact List.Nodup.sublist (List.filter_sublist.map Prod.fst) hnodup
  · rw [List.mem_filter, hmem, and_assoc, and_comm (a := ¬ IsOwn _ _)]
    refine and_congr_right fun hall => and_congr_right fun hat => ?_
    have hown : isOwnFile artifact (root.descend (Path.names texts)) = true ↔
        IsOwn artifact (Path.names texts) :=
      isOwnFile_descend h.leads.text_ne_empty hall (Disk.texts_ne_nil h.dir hat)
    rw [← hown, Bool.not_eq_true, Bool.not_eq_true']
  · rw [hfiles, List.filter_map]
    rfl

/-- Two censuses of one place are the same but for the order. -/
theorem IsCensus.perm {loc : Location} {places places' : List (List String × Bytes)}
    (h : IsCensus disk loc artifact places) (h' : IsCensus disk loc artifact places') :
    places.Perm places' := by
  rw [List.perm_ext_iff_of_nodup (List.Nodup.of_map _ h.nodup) (List.Nodup.of_map _ h'.nodup)]
  rintro ⟨texts, content⟩
  rw [h.mem_iff, h'.mem_iff]

theorem holds_tree_iff_gather :
    Holds ⟨artifact, .tree⟩ disk root held ↔
      ∃ files, disk.filesUnder root = .ok files ∧ ∃ roster,
        Roster.gather (memberOfFile root) .empty
          (files.filter fun path => !isOwnFile artifact path) = .ok roster ∧
        roster.holdings disk = .ok held := by
  show (∃ roster, (Sidecar.filesUnder disk root >>= fun files => Roster.gather
    (memberOfFile root) .empty (files.filter fun path => !isOwnFile artifact path)) = .ok roster ∧
      roster.holdings disk = .ok held) ↔ _
  simp only [bind_eq_ok_iff, Sidecar.filesUnder, mapError_eq_ok_iff]
  constructor
  · rintro ⟨roster, ⟨files, hfiles, hroster⟩, hheld⟩
    exact ⟨files, hfiles, roster, hroster, hheld⟩
  · rintro ⟨files, hfiles, roster, hroster, hheld⟩
    exact ⟨roster, ⟨files, hfiles, hroster⟩, hheld⟩

/-- What is found and read at the files of a census, in terms of the names that lead there. -/
theorem IsCensus.forall₂_iff {loc : Location} {places : List (List String × Bytes)}
    (hcensus : IsCensus disk loc artifact places) (hleads : disk.Leads root loc)
    (hdir : disk.at? loc = some .dir) {pairs : List (MemberName × Bytes)} :
    List.Forall₂ (fun place entry => ∃ member,
        memberOfFile root (root.descend (Path.names place.1)) = .ok member ∧
        member.name = entry.1 ∧ disk.read member.source = .ok entry.2) places pairs ↔
      List.Forall₂ (fun place entry => MemberName.ofTexts place.1 = .ok entry.1 ∧
        disk.read (root.descend (Path.names place.1)) = .ok entry.2) places pairs := by
  refine forall₂_congr_of_mem fun place hplace entry => ?_
  obtain ⟨hall, -, hat⟩ := (hcensus.mem_iff place.1 place.2).mp hplace
  simp only [memberOfFile_descend hleads.text_ne_empty hall (Disk.texts_ne_nil hdir hat)]
  constructor
  · rintro ⟨member, ⟨hname, hsource⟩, heq, hread⟩
    exact ⟨by rw [hname, heq], by rw [← hsource]; exact hread⟩
  · rintro ⟨hname, hread⟩
    exact ⟨⟨entry.1, _⟩, ⟨hname, rfl⟩, rfl, hread⟩

/-- **A coverage of the tree holds the regular files below the root** but those called like the
signature or its sidecar, each named by its place. -/
theorem holds_tree_iff (hw : disk.WellFormed) :
    Holds ⟨artifact, .tree⟩ disk root held ↔
      (held.Pairwise fun a b => a.1 < b.1) ∧
        ∃ loc places pairs, disk.Leads root loc ∧ disk.at? loc = some .dir ∧
          disk.Walkable root loc ∧ IsCensus disk loc artifact places ∧
          List.Forall₂ (fun place entry => MemberName.ofTexts place.1 = .ok entry.1 ∧
            disk.read (root.descend (Path.names place.1)) = .ok entry.2) places pairs ∧
          held.Perm pairs := by
  rw [holds_tree_iff_gather]
  simp only [Roster.gather_holdings_iff]
  constructor
  · rintro ⟨files, hfiles, hascending, pairs, hpairs, hperm⟩
    obtain ⟨loc, hlisted⟩ := Disk.listed_of_filesUnder hw hfiles
    obtain ⟨places, hcensus, hpaths⟩ := census_of_listed hlisted
    rw [hpaths, List.forall₂_map_left_iff] at hpairs
    exact ⟨hascending, loc, places, pairs, hlisted.leads, hlisted.dir, hlisted.walkable, hcensus,
      (hcensus.forall₂_iff hlisted.leads hlisted.dir).mp hpairs, hperm⟩
  · rintro ⟨hascending, loc, places, pairs, hleads, hdir, hwalk, hcensus, hpairs, hperm⟩
    obtain ⟨files, hfiles⟩ := Disk.filesUnder_of_walkable hw hleads hdir hwalk
    obtain ⟨loc', hlisted⟩ := Disk.listed_of_filesUnder hw hfiles
    obtain rfl := hleads.unique hlisted.leads
    obtain ⟨places', hcensus', hpaths⟩ := census_of_listed hlisted
    obtain ⟨pairs', hpairs', hperm'⟩ := List.perm_comp_forall₂ (hcensus'.perm hcensus) hpairs
    refine ⟨files, hfiles, hascending, pairs', ?_, hperm.trans hperm'.symm⟩
    rw [hpaths, List.forall₂_map_left_iff]
    exact (hcensus'.forall₂_iff hleads hdir).mpr hpairs'

/-! ## Either way -/

/-- What the coverage covers in the package at `root`, in any order: the listed names with what
their sources hold; or the regular files of a tree that can be walked, but those called like the
signature or its sidecar, each named by its place. -/
def Covers (coverage : Coverage) (disk : Disk) (root : Path)
    (entries : List (MemberName × Bytes)) : Prop :=
  match coverage.scope with
  | .listed _ listed => List.Forall₂ (fun member entry => member.name = entry.1 ∧
      disk.read (root.join member.source) = .ok entry.2) listed entries
  | .tree => ∃ loc places, disk.Leads root loc ∧ disk.at? loc = some .dir ∧
      disk.Walkable root loc ∧ IsCensus disk loc coverage.artifact places ∧
      List.Forall₂ (fun place entry => MemberName.ofTexts place.1 = .ok entry.1 ∧
        disk.read (root.descend (Path.names place.1)) = .ok entry.2) places entries

/-- **A coverage holds what it covers**, in strictly ascending order of the names. -/
theorem holds_iff_covers (hw : disk.WellFormed) {coverage : Coverage} :
    coverage.Holds disk root held ↔ (held.Pairwise fun a b => a.1 < b.1) ∧
      ∃ entries, coverage.Covers disk root entries ∧ held.Perm entries := by
  obtain ⟨artifact, scope⟩ := coverage
  cases scope with
  | listed arch listed => exact holds_listed_iff
  | tree =>
      rw [holds_tree_iff hw]
      refine and_congr_right fun _ => ?_
      constructor
      · rintro ⟨loc, places, entries, hleads, hdir, hwalk, hcensus, hentries, hperm⟩
        exact ⟨entries, ⟨loc, places, hleads, hdir, hwalk, hcensus, hentries⟩, hperm⟩
      · rintro ⟨entries, ⟨loc, places, hleads, hdir, hwalk, hcensus, hentries⟩, hperm⟩
        exact ⟨loc, places, entries, hleads, hdir, hwalk, hcensus, hentries, hperm⟩

end Coverage

end PackageSeal
