import PackageSeal.Proofs.Coverage.Holdings
import PackageSeal.Proofs.Layout.Valid

/-!
# Why members are refused

Listed members are refused for one reason only: the first whose source is no regular file is named
(`members_listed_eq_error_iff`). No name is taken twice among them, because the layout was checked.

The files of a tree are never absent. They are refused where the tree cannot be walked, or where
their names are no good (`clash_of_members_tree`): two files can have one member name, and a file
can have none, if a name on the way holds a backslash.
-/

namespace PackageSeal

/-- Something could not be done to a file. -/
def Failure.IsAccess (failure : Failure) : Prop :=
  ∃ operation path cause, failure = .access operation path cause

namespace Coverage

variable {disk : Disk} {root : Path} {failure : Failure} {listed : List Member}

/-! ## Listed members -/

/-- The first of the members whose source, seen from the root, is no regular file. -/
def firstAbsent? (disk : Disk) (root : Path) (listed : List Member) : Option Member :=
  (listed.map (Member.under root)).find? fun member => !disk.isFile member.source

theorem firstAbsent?_append (listed others : List Member) :
    firstAbsent? disk root (listed ++ others) =
      (firstAbsent? disk root listed).or (firstAbsent? disk root others) := by
  rw [firstAbsent?, List.map_append, List.find?_append]
  rfl

theorem firstAbsent?_eq_none_iff :
    firstAbsent? disk root listed = none ↔
      ∀ member ∈ listed, disk.isFile (root.join member.source) = true := by
  simp [firstAbsent?, Member.under]

theorem exists_firstAbsent_iff :
    (∃ member, firstAbsent? disk root listed = some member) ↔
      ∃ member ∈ listed, disk.isFile (root.join member.source) = false := by
  rw [← Option.isSome_iff_exists, firstAbsent?, List.find?_isSome]
  simp [Member.under]

theorem firstAbsent?_of_split {front rest : List Member} {member : Member}
    (hfront : ∀ other ∈ front, disk.isFile (root.join other.source) = true)
    (habsent : disk.isFile (root.join member.source) = false) :
    firstAbsent? disk root (front ++ member :: rest) = some (member.under root) := by
  have hnone := firstAbsent?_eq_none_iff.mpr hfront
  have hfirst : firstAbsent? disk root (member :: rest) = some (member.under root) := by
    rw [firstAbsent?, List.map_cons, List.find?_cons_of_pos]
    simpa [Member.under] using habsent
  rw [firstAbsent?_append, hnone, hfirst, Option.none_or]

theorem presentMember_eq_error_iff {member : Member} :
    presentMember disk root member = .error failure ↔
      disk.isFile (root.join member.source) = false ∧
        failure = .absentMember member.name (root.join member.source) := by
  rw [presentMember]
  show (if disk.isFile (root.join member.source) then _ else _) = _ ↔ _
  by_cases h : disk.isFile (root.join member.source) = true
  · rw [if_pos h]
    simp [h]
  · rw [if_neg h, Except.error.injEq, Bool.not_eq_true] at *
    rw [and_iff_right h, eq_comm]
    rfl

/-- Members under different names are refused for want of a file only. -/
theorem absent_of_gather (hnames : (listed.map Member.name).Nodup)
    (h : Roster.gather (presentMember disk root) .empty listed = .error failure) :
    ∃ member, firstAbsent? disk root listed = some member ∧
      failure = .absentMember member.name member.source := by
  obtain ⟨front, member, rest, rfl, hfront, hcause⟩ := Roster.gather_eq_error h
  have hfiles : ∀ other ∈ front, disk.isFile (root.join other.source) = true := by
    intro other hother
    obtain ⟨present, hpresent⟩ := hfront other hother
    exact (presentMember_eq_ok_iff.mp hpresent).1
  obtain hmissing | ⟨present, hpresent, other, hother, holder, hholder, hname, -⟩ := hcause
  · obtain ⟨habsent, rfl⟩ := presentMember_eq_error_iff.mp hmissing
    exact ⟨_, firstAbsent?_of_split hfiles habsent, rfl⟩
  · -- Two listed members would have one name.
    obtain ⟨-, rfl⟩ := presentMember_eq_ok_iff.mp hpresent
    obtain ⟨-, rfl⟩ := presentMember_eq_ok_iff.mp hholder
    have hsame : other.name = member.name := hname
    rw [List.map_append, List.nodup_append] at hnames
    exact absurd hsame (hnames.2.2 other.name (List.mem_map_of_mem hother) member.name
      (List.mem_map_of_mem List.mem_cons_self))

/-- **Listed members are refused exactly where one is absent**, and the first of these is named. -/
theorem members_listed_eq_error_iff {arch : Architecture}
    (hnames : (listed.map Member.name).Nodup) :
    (ofArchitecture arch listed).members disk root = .error failure ↔
      ∃ member, firstAbsent? disk root listed = some member ∧
        failure = .absentMember member.name member.source := by
  have hgather : (ofArchitecture arch listed).members disk root =
      Roster.gather (presentMember disk root) .empty listed := rfl
  rw [hgather]
  constructor
  · exact absent_of_gather hnames
  · rintro ⟨member, hfirst, rfl⟩
    cases hmembers : Roster.gather (presentMember disk root) .empty listed with
    | error other =>
        obtain ⟨member', hfirst', rfl⟩ := absent_of_gather hnames hmembers
        rw [hfirst, Option.some.injEq] at hfirst'
        rw [hfirst']
    | ok roster =>
        obtain ⟨members, hall, -⟩ := Roster.gather_eq_ok_iff.mp hmembers
        have hnone : firstAbsent? disk root listed = none := by
          refine firstAbsent?_eq_none_iff.mpr fun other hother => ?_
          obtain ⟨present, -, hpresent⟩ := exists_right_of_forall₂ hall hother
          exact (presentMember_eq_ok_iff.mp hpresent).1
        rw [hnone] at hfirst
        contradiction

/-- **The same for the coverages of all architectures**, taken in order. -/
theorem mapM_members_eq_error_iff {lists : List (List Member)} {coverages : List Coverage}
    (hlists : Layout.Lists lists coverages) :
    coverages.mapM (fun coverage => coverage.members disk root) = .error failure ↔
      ∃ member, firstAbsent? disk root lists.flatten = some member ∧
        failure = .absentMember member.name member.source := by
  induction hlists with
  | nil => simp [firstAbsent?, pure, Except.pure]
  | @cons members coverage lists coverages hfirst _ ih =>
      obtain ⟨⟨arch, rfl⟩, hnames⟩ := hfirst
      rw [List.mapM_cons, bind_eq_error_iff, members_listed_eq_error_iff hnames, List.flatten_cons,
        firstAbsent?_append]
      cases habsent : firstAbsent? disk root members with
      | some member =>
          have hfails : (ofArchitecture arch members).members disk root =
              .error (.absentMember member.name member.source) :=
            (members_listed_eq_error_iff hnames).mpr ⟨member, habsent, rfl⟩
          simp [hfails]
      | none =>
          obtain ⟨roster, hroster⟩ :
              ∃ roster, (ofArchitecture arch members).members disk root = .ok roster := by
            cases h : (ofArchitecture arch members).members disk root with
            | ok roster => exact ⟨roster, rfl⟩
            | error other =>
                obtain ⟨member, hmember, -⟩ := (members_listed_eq_error_iff hnames).mp h
                rw [habsent] at hmember
                contradiction
          rw [hroster, Option.none_or, ← ih]
          simp only [reduceCtorEq, false_and, exists_false, false_or, Except.ok.injEq,
            exists_eq_left', bind_eq_error_iff]
          exact or_iff_left (by simp [pure, Except.pure])

/-! ## The tree -/

/-- Names of files below the root that are no good: those of a file give no member name, or those of
two files give the same. Some name on the way holds a backslash. -/
inductive Clash (disk : Disk) (root : Path) : LayoutFault → Prop where
  | unnamed {texts : List String} {content : Bytes} {fault : NameFault}
      (hfile : disk.FileBelow root (Path.names texts) content)
      (hname : MemberName.ofTexts texts = .error fault)
      (hback : ∃ text ∈ texts, '\\' ∈ text.toList) : Clash disk root (.memberName fault)
  | claimed {texts texts' : List String} {content content' : Bytes} {name : MemberName}
      (hfile : disk.FileBelow root (Path.names texts) content)
      (hfile' : disk.FileBelow root (Path.names texts') content') (hne : texts ≠ texts')
      (hname : MemberName.ofTexts texts = .ok name) (hname' : MemberName.ofTexts texts' = .ok name)
      (hback : ∃ text ∈ texts ++ texts', '\\' ∈ text.toList) :
      Clash disk root (.claimedTwice name (root.descend (Path.names texts))
        (root.descend (Path.names texts')))

/-- A walk that is refused could not list a directory. -/
theorem isAccess_of_filesUnder (h : Sidecar.filesUnder disk root = .error failure) :
    failure.IsAccess := by
  obtain ⟨fault, -, rfl⟩ := mapError_eq_error_iff.mp h
  exact ⟨_, _, _, rfl⟩

theorem members_tree_eq_error {artifact : String}
    (h : (ofTree artifact).members disk root = .error failure) : failure.IsAccess ∨
      ∃ files, disk.filesUnder root = .ok files ∧ Roster.gather (memberOfFile root) .empty
        (files.filter fun path => !isOwnFile artifact path) = .error failure := by
  obtain hwalk | ⟨files, hfiles, hgather⟩ := bind_eq_error_iff.mp h
  · exact .inl (isAccess_of_filesUnder hwalk)
  · exact .inr ⟨files, mapError_eq_ok_iff.mp hfiles, hgather⟩

/-- No member of a tree is absent. -/
theorem members_tree_ne_absent {artifact : String} {name : MemberName} {path : Path} :
    (ofTree artifact).members disk root ≠ .error (.absentMember name path) := by
  intro h
  obtain ⟨_, _, _, haccess⟩ | ⟨files, -, hgather⟩ := members_tree_eq_error h
  · cases haccess
  · obtain ⟨_, file, _, -, -, hfile | ⟨_, -, _, -, _, -, -, hclaimed⟩⟩ :=
      Roster.gather_eq_error hgather
    · unfold memberOfFile at hfile
      split at hfile
      · cases hfile
      · split at hfile
        · cases hfile
        · cases hfile
    · cases hclaimed

/-- The files of a census are refused at the first of them whose names give no member name, or the
name of a file before it. -/
theorem gather_places_eq_error {places : List (List String × Bytes)} (hroot : root.text ≠ "")
    (hplaces : ∀ place ∈ places, IsPlace place.1) (h : Roster.gather (memberOfFile root) .empty
      (places.map fun place => root.descend (Path.names place.1)) = .error failure) :
    ∃ front place rest, places = front ++ place :: rest ∧
      ((∃ fault, MemberName.ofTexts place.1 = .error fault ∧
          failure = .brokenRule (.memberName fault)) ∨
        ∃ other ∈ front, ∃ name, MemberName.ofTexts other.1 = .ok name ∧
          MemberName.ofTexts place.1 = .ok name ∧
          failure = .brokenRule (.claimedTwice name (root.descend (Path.names other.1))
            (root.descend (Path.names place.1)))) := by
  obtain ⟨files, path, rest, hsplit, -, hcause⟩ := Roster.gather_eq_error h
  obtain ⟨front, others, rfl, rfl, hothers⟩ := List.map_eq_append_iff.mp hsplit
  obtain ⟨place, after, rfl, rfl, -⟩ := List.map_eq_cons_iff.mp hothers
  refine ⟨front, place, after, rfl, ?_⟩
  have hplace := hplaces place (by simp)
  obtain hfind | ⟨member, hmember, file, hfile, holder, hholder, hname, rfl⟩ := hcause
  · rw [memberOfFile_descend_eq hroot hplace.isName hplace.ne_nil] at hfind
    obtain ⟨fault, hfault, rfl⟩ := mapError_eq_error_iff.mp hfind
    cases htexts : MemberName.ofTexts place.1 with
    | ok name =>
        rw [htexts] at hfault
        cases hfault
    | error cause =>
        rw [htexts] at hfault
        cases hfault
        exact .inl ⟨fault, rfl, rfl⟩
  · obtain ⟨other, hother, rfl⟩ := List.mem_map.mp hfile
    have hplace' := hplaces other (by simp [hother])
    obtain ⟨hok, hsource⟩ := (memberOfFile_descend hroot hplace.isName hplace.ne_nil).mp hmember
    obtain ⟨hok', hsource'⟩ := (memberOfFile_descend hroot hplace'.isName hplace'.ne_nil).mp hholder
    exact .inr ⟨other, hother, member.name, hname ▸ hok', hok, by rw [hsource, hsource']⟩

/-- **A tree whose files are refused as members has names that clash.** -/
theorem clash_of_members_tree (hw : disk.WellFormed) {artifact : String} {fault : LayoutFault}
    (h : (ofTree artifact).members disk root = .error (.brokenRule fault)) :
    Clash disk root fault := by
  obtain ⟨_, _, _, haccess⟩ | ⟨files, hfiles, hgather⟩ := members_tree_eq_error h
  · cases haccess
  obtain ⟨loc, hlisted⟩ := Disk.listed_of_filesUnder hw hfiles
  obtain ⟨places, hcensus, hpaths⟩ := census_of_listed hlisted
  rw [hpaths] at hgather
  have hplaces := hcensus.isPlace hw hlisted.dir
  have hbelow : ∀ place ∈ places, disk.FileBelow root (Path.names place.1) place.2 :=
    fun place hplace => ⟨loc, hlisted.leads, ((hcensus.mem_iff place.1 place.2).mp hplace).2.2⟩
  obtain ⟨front, place, rest, rfl, hcause⟩ :=
    gather_places_eq_error hlisted.leads.text_ne_empty hplaces hgather
  have hmem : place ∈ front ++ place :: rest := by simp
  have hplace := hplaces place hmem
  obtain ⟨cause, hname, hfault⟩ | ⟨other, hother, name, hname', hname, hfault⟩ := hcause
  · cases hfault
    refine .unnamed (hbelow place hmem) hname ?_
    by_contra hback
    have hclean : ∀ text ∈ place.1, '\\' ∉ text.toList := by simpa using hback
    obtain ⟨name, hok⟩ :=
      MemberName.exists_ofTexts hplace.ne_nil hplace.isName hclean hplace.no_nul
    rw [hname] at hok
    cases hok
  · cases hfault
    have hmem' : other ∈ front ++ place :: rest := List.mem_append_left _ hother
    have hplace' := hplaces other hmem'
    have hdiffer : other.1 ≠ place.1 := by
      have hnodup := hcensus.nodup
      rw [List.map_append, List.map_cons, List.nodup_append] at hnodup
      exact hnodup.2.2 _ (List.mem_map_of_mem hother) _ List.mem_cons_self
    refine .claimed (hbelow other hmem') (hbelow place hmem) hdiffer hname' hname ?_
    by_contra hback
    have hclean : ∀ text ∈ other.1 ++ place.1, '\\' ∉ text.toList := by simpa using hback
    rw [List.forall_mem_append] at hclean
    exact hdiffer (MemberName.ofTexts_inj hplace'.ne_nil hplace.ne_nil hplace'.isName hplace.isName
      hclean.1 hclean.2 hname' hname)

end Coverage

end PackageSeal
