import PackageSeal.Proofs.Disk.Names

/-!
# Resolution

What `advance` and `follow` come to, step by step. `Advances` says how far steps lead, up to their
end or the next link, and reaching for something takes exactly the steps that lead there
(`advances_of_advance`, `Advances.advance_reach`). From it follow, by induction over the links
(`follow_induction`), that on a disk of the same shape resolution ends at the same place if anything
is there (`follow_of_sameShape`), and that a free name at which it ends is one that an entry can
have (`vacant_of_follow`).
-/

namespace PackageSeal

namespace Node

/-- What an entry of a directory at a place leads to stands one name further. -/
theorem get?_snoc {top : Node} {loc : Location} {entries : Entries} (name : RawText)
    (h : top.get? loc = some (dir entries)) : top.get? (loc ++ [name]) = entries.lookup name := by
  rw [get?_append, h, Option.bind_some, get?_cons, child?_dir]
  cases entries.lookup name with
  | none => rfl
  | some child => rfl

end Node

namespace Disk

/-! ## Single steps -/

section Advance

variable {top : Node} {purpose : Purpose} {slash : Bool} {loc : Location} {entries : Entries}
  {rest : List Step}

/-- A step that is taken is taken in a directory. -/
theorem dir_of_advance_cons {step : Step} {reach : Reach}
    (h : advance top purpose slash loc (step :: rest) = .ok reach) :
    ∃ entries, top.get? loc = some (.dir entries) := by
  unfold advance at h
  cases hg : top.get? loc with
  | none => simp [hg] at h
  | some node =>
      cases node with
      | file content => simp [hg] at h
      | link target => simp [hg] at h
      | dir entries => exact ⟨entries, rfl⟩

theorem advance_nil_eq_ok {reach : Reach} (h : advance top purpose slash loc [] = .ok reach) :
    ∃ node, top.get? loc = some node ∧ reach = .place (.found loc node) := by
  unfold advance at h
  cases hg : top.get? loc with
  | none => simp [hg] at h
  | some node =>
      simp only [hg, Except.ok.injEq] at h
      exact ⟨node, rfl, h.symm⟩

theorem advance_nil {node : Node} (h : top.get? loc = some node) :
    advance top purpose slash loc [] = .ok (.place (.found loc node)) := by
  unfold advance
  rw [h]

theorem advance_here (h : top.get? loc = some (.dir entries)) :
    advance top purpose slash loc (.here :: rest) = advance top purpose slash loc rest := by
  rw [advance.eq_def]
  simp only [h]

theorem advance_up (h : top.get? loc = some (.dir entries)) :
    advance top purpose slash loc (.up :: rest) =
      advance top purpose slash loc.dropLast rest := by
  rw [advance.eq_def]
  simp only [h]

/-- Entering a name goes by what stands one name further. -/
theorem advance_into (h : top.get? loc = some (.dir entries)) (name : RawText) :
    advance top purpose slash loc (.into name :: rest) =
      if rest.isEmpty && slash && purpose = .make then .error .isDirectory
      else if name.bytes.length > Route.maxName then .error .nameTooLong
      else match top.get? (loc ++ [name]) with
        | none => if rest.isEmpty then .ok (.place (.vacant loc name)) else .error .notFound
        | some (.link target) =>
          if rest.isEmpty && !slash && purpose = .entry then
            .ok (.place (.found (loc ++ [name]) (.link target)))
          else .ok (.link loc target rest)
        | some _ => advance top purpose slash (loc ++ [name]) rest := by
  rw [advance.eq_def, Node.get?_snoc name h]
  cases hchild : entries.lookup name with
  | none => simp only [h, hchild]
  | some child =>
      cases child with
      | file content => simp only [h, hchild]
      | link target => simp only [h, hchild]
      | dir below => simp only [h, hchild]

/-- A name under which something other than a link stands is entered. -/
theorem advance_into_open {name : RawText} {node : Node} (h : top.get? loc = some (.dir entries))
    (hask : (rest.isEmpty && slash && decide (purpose = .make)) = false)
    (hshort : name.bytes.length ≤ Route.maxName) (hnode : top.get? (loc ++ [name]) = some node)
    (hlink : ∀ target, node ≠ .link target) :
    advance top purpose slash loc (.into name :: rest) =
      advance top purpose slash (loc ++ [name]) rest := by
  have hnot : ¬ (rest.isEmpty && slash && decide (purpose = .make)) = true := by simp [hask]
  rw [advance_into h, if_neg hnot, if_neg (Nat.not_lt.mpr hshort), hnode]
  cases node with
  | link target => exact absurd rfl (hlink target)
  | file content => rfl
  | dir below => rfl

/-- What entering a name can come to: a free name at the end, a link, or a node to go on from. -/
theorem advance_into_cases {name : RawText} {reach : Reach} (hp : purpose ≠ .entry)
    (hdir : top.get? loc = some (.dir entries))
    (h : advance top purpose slash loc (.into name :: rest) = .ok reach) :
    name.bytes.length ≤ Route.maxName ∧
      ((top.get? (loc ++ [name]) = none ∧ rest = [] ∧ reach = .place (.vacant loc name)) ∨
        (∃ target, top.get? (loc ++ [name]) = some (.link target) ∧
          reach = .link loc target rest) ∨
        (∃ node, top.get? (loc ++ [name]) = some node ∧ (∀ target, node ≠ .link target) ∧
          advance top purpose slash (loc ++ [name]) rest = .ok reach)) := by
  rw [advance_into hdir] at h
  by_cases hslash : (rest.isEmpty && slash && decide (purpose = .make)) = true
  · rw [if_pos hslash] at h
    contradiction
  · rw [if_neg hslash] at h
    by_cases hlong : name.bytes.length > Route.maxName
    · rw [if_pos hlong] at h
      contradiction
    · rw [if_neg hlong] at h
      refine ⟨Nat.le_of_not_lt hlong, ?_⟩
      cases hg : top.get? (loc ++ [name]) with
      | none =>
          simp only [hg] at h
          by_cases hrest : rest = []
          · subst hrest
            exact .inl ⟨rfl, rfl, (Except.ok.inj h).symm⟩
          · rw [if_neg (by simpa using hrest)] at h
            contradiction
      | some node =>
          cases node with
          | link target =>
              simp only [hg, decide_eq_false hp, Bool.and_false, Bool.false_eq_true, if_false,
                Except.ok.injEq] at h
              exact .inr (.inl ⟨target, rfl, h.symm⟩)
          | file content =>
              simp only [hg] at h
              exact .inr (.inr ⟨_, rfl, by simp, h⟩)
          | dir below =>
              simp only [hg] at h
              exact .inr (.inr ⟨_, rfl, by simp, h⟩)

end Advance

/-! ## Steps up to a link -/

/-- The steps lead from the place as far as `reach` tells: to their end, or up to a link. -/
inductive Advances (top : Node) : Location → List Step → Reach → Prop where
  | done {loc : Location} {node : Node} (hnode : top.get? loc = some node) :
      Advances top loc [] (.place (.found loc node))
  | here {loc : Location} {entries : Entries} {rest : List Step} {reach : Reach}
      (hdir : top.get? loc = some (.dir entries)) (hrest : Advances top loc rest reach) :
      Advances top loc (.here :: rest) reach
  | up {loc : Location} {entries : Entries} {rest : List Step} {reach : Reach}
      (hdir : top.get? loc = some (.dir entries)) (hrest : Advances top loc.dropLast rest reach) :
      Advances top loc (.up :: rest) reach
  | vacant {loc : Location} {entries : Entries} {name : RawText}
      (hdir : top.get? loc = some (.dir entries)) (hshort : name.bytes.length ≤ Route.maxName)
      (hfree : top.get? (loc ++ [name]) = none) :
      Advances top loc [.into name] (.place (.vacant loc name))
  | link {loc : Location} {entries : Entries} {name target : RawText} {rest : List Step}
      (hdir : top.get? loc = some (.dir entries)) (hshort : name.bytes.length ≤ Route.maxName)
      (hlink : top.get? (loc ++ [name]) = some (.link target)) :
      Advances top loc (.into name :: rest) (.link loc target rest)
  | enter {loc : Location} {entries : Entries} {name : RawText} {node : Node} {rest : List Step}
      {reach : Reach} (hdir : top.get? loc = some (.dir entries))
      (hshort : name.bytes.length ≤ Route.maxName) (hnode : top.get? (loc ++ [name]) = some node)
      (hopen : ∀ target, node ≠ .link target) (hrest : Advances top (loc ++ [name]) rest reach) :
      Advances top loc (.into name :: rest) reach

/-- Steps that are taken lead there, whatever is done at the end of them. -/
theorem advances_of_advance {top : Node} {purpose : Purpose} (hp : purpose ≠ .entry) {slash : Bool}
    {loc : Location} {steps : List Step} {reach : Reach}
    (h : advance top purpose slash loc steps = .ok reach) : Advances top loc steps reach := by
  induction steps generalizing loc with
  | nil =>
      obtain ⟨node, hnode, rfl⟩ := advance_nil_eq_ok h
      exact .done hnode
  | cons step rest ih =>
      obtain ⟨entries, hdir⟩ := dir_of_advance_cons h
      cases step with
      | here =>
          rw [advance_here hdir] at h
          exact .here hdir (ih h)
      | up =>
          rw [advance_up hdir] at h
          exact .up hdir (ih h)
      | into name =>
          obtain ⟨hshort, ⟨hfree, rfl, rfl⟩ | ⟨target, hlink, rfl⟩ | ⟨node, hnode, hopen, hrest⟩⟩ :=
            advance_into_cases hp hdir h
          · exact .vacant hdir hshort hfree
          · exact .link hdir hshort hlink
          · exact .enter hdir hshort hnode hopen (ih hrest)

namespace Advances

variable {top : Node} {loc : Location} {steps : List Step} {reach : Reach}

/-- Reaching for something takes all steps that lead there. -/
theorem advance_reach (h : Advances top loc steps reach) (slash : Bool) :
    advance top .reach slash loc steps = .ok reach := by
  induction h with
  | done hnode => exact advance_nil hnode
  | here hdir _ ih => rw [advance_here hdir, ih]
  | up hdir _ ih => rw [advance_up hdir, ih]
  | vacant hdir hshort hfree =>
      rw [advance_into hdir, if_neg (by simp), if_neg (Nat.not_lt.mpr hshort), hfree]
      rfl
  | link hdir hshort hlink =>
      rw [advance_into hdir, if_neg (by simp), if_neg (Nat.not_lt.mpr hshort), hlink]
      simp
  | enter hdir hshort hnode hopen _ ih =>
      rw [advance_into_open hdir (by simp) hshort hnode hopen, ih]

/-- Steps are taken from something that is there. -/
theorem get?_start (h : Advances top loc steps reach) : ∃ node, top.get? loc = some node := by
  cases h with
  | done hnode => exact ⟨_, hnode⟩
  | here hdir _ => exact ⟨_, hdir⟩
  | up hdir _ => exact ⟨_, hdir⟩
  | vacant hdir _ _ => exact ⟨_, hdir⟩
  | link hdir _ _ => exact ⟨_, hdir⟩
  | enter hdir _ _ _ _ => exact ⟨_, hdir⟩

/-- What is found at the end of the steps stands there. -/
theorem get?_found {found : Location} {node : Node}
    (h : Advances top loc steps (.place (.found found node))) : top.get? found = some node := by
  generalize hreach : Reach.place (.found found node) = reach at h
  induction h with
  | done hnode =>
      cases hreach
      exact hnode
  | here _ _ ih => exact ih hreach
  | up _ _ ih => exact ih hreach
  | vacant _ _ _ => cases hreach
  | link _ _ _ => cases hreach
  | enter _ _ _ _ _ ih => exact ih hreach

/-- A free name at the end of the steps is the last of them, and free in a directory. -/
theorem get?_vacant {parent : Location} {name : RawText}
    (h : Advances top loc steps (.place (.vacant parent name))) :
    .into name ∈ steps ∧ name.bytes.length ≤ Route.maxName ∧
      ∃ entries, top.get? parent = some (.dir entries) ∧ entries.lookup name = none := by
  generalize hreach : Reach.place (.vacant parent name) = reach at h
  induction h with
  | done _ => cases hreach
  | here _ _ ih =>
      obtain ⟨hmem, hfree⟩ := ih hreach
      exact ⟨List.mem_cons_of_mem _ hmem, hfree⟩
  | up _ _ ih =>
      obtain ⟨hmem, hfree⟩ := ih hreach
      exact ⟨List.mem_cons_of_mem _ hmem, hfree⟩
  | vacant hdir hshort hfree =>
      cases hreach
      rw [Node.get?_snoc name hdir] at hfree
      exact ⟨List.mem_cons_self, hshort, _, hdir, hfree⟩
  | link _ _ _ => cases hreach
  | enter _ _ _ _ _ ih =>
      obtain ⟨hmem, hfree⟩ := ih hreach
      exact ⟨List.mem_cons_of_mem _ hmem, hfree⟩

/-- The steps that a link leaves to take are the last of those that were given. -/
theorem suffix_link {parent : Location} {target : RawText} {rest : List Step}
    (h : Advances top loc steps (.link parent target rest)) : rest <:+ steps := by
  generalize hreach : Reach.link parent target rest = reach at h
  induction h with
  | done _ => cases hreach
  | here _ _ ih => exact (ih hreach).trans (List.suffix_cons _ _)
  | up _ _ ih => exact (ih hreach).trans (List.suffix_cons _ _)
  | vacant _ _ _ => cases hreach
  | link _ _ _ =>
      cases hreach
      exact List.suffix_cons _ _
  | enter _ _ _ _ _ ih => exact (ih hreach).trans (List.suffix_cons _ _)

end Advances

/-! ## Resolution as a whole -/

/-- Resolution ends before the first link, or goes on behind it. -/
theorem follow_eq_ok_iff {top : Node} {purpose : Purpose} {links : Nat} {loc : Location}
    {steps : List Step} {slash asked : Bool} {place : Place} :
    follow top purpose links loc steps slash = .ok (place, asked) ↔
      (advance top purpose slash loc steps = .ok (.place place) ∧ asked = slash) ∨
      ∃ fewer parent target rest route, links = fewer + 1 ∧
        advance top purpose slash loc steps = .ok (.link parent target rest) ∧
        Route.ofRaw target = .ok route ∧
        follow top purpose fewer (if route.absolute then [] else parent) (route.steps ++ rest)
          (slash || rest.isEmpty && route.slash) = .ok (place, asked) := by
  conv_lhs => unfold follow
  cases hadv : advance top purpose slash loc steps with
  | error e => simp
  | ok reach =>
      cases reach with
      | place found =>
          simp only [Except.ok.injEq, Prod.mk.injEq, Reach.place.injEq, reduceCtorEq, false_and,
            and_false, exists_false, or_false]
          rw [eq_comm (a := slash)]
      | link parent target rest =>
          simp only [Except.ok.injEq, reduceCtorEq, false_and, false_or, Reach.link.injEq]
          cases links with
          | zero => simp
          | succ fewer =>
              simp only [Nat.add_right_cancel_iff]
              constructor
              · intro h
                cases hroute : Route.ofRaw target with
                | error e => simp [hroute] at h
                | ok route =>
                    simp only [hroute] at h
                    exact ⟨fewer, parent, target, rest, route, rfl, ⟨rfl, rfl, rfl⟩, hroute, h⟩
              · rintro ⟨_, _, _, _, route, rfl, ⟨rfl, rfl, rfl⟩, hroute, h⟩
                simp only [hroute]
                exact h

/-- What holds of a resolution that no link stops, and of one that is stopped by a link if of what
goes on behind it, holds of every resolution. -/
theorem follow_induction {top : Node} {purpose : Purpose} {place : Place} {asked : Bool}
    {motive : Nat → Location → List Step → Bool → Prop}
    (straight : ∀ links loc steps, advance top purpose asked loc steps = .ok (.place place) →
      motive links loc steps asked)
    (behind : ∀ links loc steps slash parent target rest route,
      advance top purpose slash loc steps = .ok (.link parent target rest) →
      Route.ofRaw target = .ok route →
      motive links (if route.absolute then [] else parent) (route.steps ++ rest)
        (slash || rest.isEmpty && route.slash) →
      motive (links + 1) loc steps slash)
    {links : Nat} {loc : Location} {steps : List Step} {slash : Bool}
    (h : follow top purpose links loc steps slash = .ok (place, asked)) :
    motive links loc steps slash := by
  induction links generalizing loc steps slash with
  | zero =>
      obtain ⟨hadv, rfl⟩ | ⟨fewer, _, _, _, _, hlinks, -⟩ := follow_eq_ok_iff.mp h
      · exact straight 0 loc steps hadv
      · exact absurd hlinks (Nat.succ_ne_zero fewer).symm
  | succ links ih =>
      obtain ⟨hadv, rfl⟩ | ⟨fewer, parent, target, rest, route, hlinks, hadv, hroute, hrest⟩ :=
        follow_eq_ok_iff.mp h
      · exact straight (links + 1) loc steps hadv
      · rw [Nat.add_right_cancel_iff] at hlinks
        subst hlinks
        exact behind links loc steps slash parent target rest route hadv hroute (ih hrest)

/-- Resolution goes by how far the steps lead. -/
theorem follow_congr {top : Node} {purpose : Purpose} {links : Nat} {loc loc' : Location}
    {steps steps' : List Step} {slash : Bool}
    (h : advance top purpose slash loc steps = advance top purpose slash loc' steps') :
    follow top purpose links loc steps slash = follow top purpose links loc' steps' slash := by
  conv_lhs => unfold follow
  conv_rhs => unfold follow
  rw [h]

/-- Resolution goes on behind a link. -/
theorem follow_link {top : Node} {purpose : Purpose} {links : Nat} {loc parent : Location}
    {steps rest : List Step} {slash : Bool} {target : RawText} {route : Route}
    (h : advance top purpose slash loc steps = .ok (.link parent target rest))
    (hroute : Route.ofRaw target = .ok route) :
    follow top purpose (links + 1) loc steps slash =
      follow top purpose links (if route.absolute then [] else parent) (route.steps ++ rest)
        (slash || rest.isEmpty && route.slash) := by
  conv_lhs => unfold follow
  simp only [h, hroute]

/-- What is found stands where it is found. -/
theorem get?_of_follow {top : Node} {purpose : Purpose} {links : Nat} {loc found : Location}
    {steps : List Step} {slash asked : Bool} {node : Node} (hp : purpose ≠ .entry)
    (h : follow top purpose links loc steps slash = .ok (.found found node, asked)) :
    top.get? found = some node :=
  follow_induction (motive := fun _ _ _ _ => top.get? found = some node)
    (fun _ _ _ hadv => (advances_of_advance hp hadv).get?_found)
    (fun _ _ _ _ _ _ _ _ _ _ ih => ih) h

/-- A separator at the end of a path asks for a directory, whatever links end it. -/
theorem asked_of_follow {top : Node} {purpose : Purpose} {links : Nat} {loc : Location}
    {steps : List Step} {asked : Bool} {place : Place}
    (h : follow top purpose links loc steps true = .ok (place, asked)) : asked = true := by
  have hall : ∀ slash, follow top purpose links loc steps slash = .ok (place, asked) →
      slash = true → asked = true := by
    intro slash h
    refine follow_induction (motive := fun _ _ _ slash => slash = true → asked = true) ?_ ?_ h
    · intro links loc steps hadv hasked
      exact hasked
    · intro links loc steps slash parent target rest route hadv hroute ih hslash
      exact ih (by rw [hslash, Bool.true_or])
  exact hall true h rfl

/-- What making a file accepts, reaching for it accepts as well. -/
theorem follow_reach_of_make {top : Node} {links : Nat} {loc : Location} {steps : List Step}
    {slash asked : Bool} {place : Place}
    (h : follow top .make links loc steps slash = .ok (place, asked)) :
    follow top .reach links loc steps slash = .ok (place, asked) := by
  refine follow_induction (motive := fun links loc steps slash =>
    follow top .reach links loc steps slash = .ok (place, asked)) ?_ ?_ h
  · intro links loc steps hadv
    have hreach := (advances_of_advance (by simp) hadv).advance_reach asked
    exact follow_eq_ok_iff.mpr (.inl ⟨hreach, rfl⟩)
  · intro links loc steps slash parent target rest route hadv hroute ih
    have hreach := (advances_of_advance (by simp) hadv).advance_reach slash
    rw [follow_link hreach hroute]
    exact ih

/-! ## Disks of the same shape -/

end Disk

/-- Where the place is, or where it would be. -/
def Place.loc : Place → Location
  | found loc _ => loc
  | vacant parent name => parent ++ [name]

namespace Disk

/-- The same reach with `node` where it ends. -/
def Reach.filled (node : Node) : Reach → Reach
  | .place goal => .place (.found goal.loc node)
  | .link parent target rest => .link parent target rest

variable {disk after : Disk}

/-- Steps lead as far on a disk of the same shape, if anything is at the end. -/
theorem Advances.of_sameShape (hs : SameShape disk after) {loc : Location} {steps : List Step}
    {reach : Reach} (h : Advances disk.top loc steps reach)
    (hgoal : ∀ place, reach = .place place → after.at? place.loc ≠ none) :
    ∃ node, Advances after.top loc steps (reach.filled node) := by
  have hdirs : ∀ {loc entries}, disk.top.get? loc = some (.dir entries) →
      ∃ entries', after.top.get? loc = some (.dir entries') := fun hdir =>
    at?_eq_dir_iff.mp (hs.dir_iff.mpr (at?_eq_dir_iff.mpr ⟨_, hdir⟩))
  -- What is no link on the first disk is none on the second.
  have hopens : ∀ {loc node}, (∀ target, disk.top.get? loc ≠ some (.link target)) →
      after.top.get? loc = some node → ∀ target, node ≠ .link target := by
    intro loc node hlink hnode target heq
    rw [heq] at hnode
    exact hlink target (at?_eq_link_iff.mp (hs.link_iff.mp (at?_eq_link_iff.mpr hnode)))
  induction h with
  | done hnode =>
      have hsome := hgoal _ rfl
      rw [Ne, at?_eq_none_iff] at hsome
      obtain ⟨node, hnode'⟩ := Option.ne_none_iff_exists'.mp hsome
      exact ⟨node, .done hnode'⟩
  | here hdir _ ih =>
      obtain ⟨entries, hdir'⟩ := hdirs hdir
      obtain ⟨node, hrest⟩ := ih hgoal
      exact ⟨node, .here hdir' hrest⟩
  | up hdir _ ih =>
      obtain ⟨entries, hdir'⟩ := hdirs hdir
      obtain ⟨node, hrest⟩ := ih hgoal
      exact ⟨node, .up hdir' hrest⟩
  | vacant hdir hshort hfree =>
      -- The free name is taken on the second disk.
      have hsome := hgoal _ rfl
      rw [Ne, at?_eq_none_iff] at hsome
      obtain ⟨node, hnode⟩ := Option.ne_none_iff_exists'.mp hsome
      rw [Place.loc] at hnode
      obtain ⟨entries, hdir'⟩ := hdirs hdir
      exact ⟨node, .enter hdir' hshort hnode (hopens (by simp [hfree]) hnode) (.done hnode)⟩
  | link hdir hshort hlink =>
      obtain ⟨entries, hdir'⟩ := hdirs hdir
      have hlink' := at?_eq_link_iff.mp (hs.link_iff.mpr (at?_eq_link_iff.mpr hlink))
      exact ⟨.dir [], .link hdir' hshort hlink'⟩
  | enter hdir hshort hnode hopen _ ih =>
      obtain ⟨entries, hdir'⟩ := hdirs hdir
      obtain ⟨node, hrest⟩ := ih hgoal
      obtain ⟨child, hchild⟩ := hrest.get?_start
      exact ⟨node, .enter hdir' hshort hchild (hopens (by simpa [hnode] using hopen) hchild) hrest⟩

/-- **Resolution ends at the same place on a disk of the same shape**, if anything is there. -/
theorem follow_of_sameShape (hs : SameShape disk after) {links : Nat} {loc : Location}
    {steps : List Step} {slash asked : Bool} {place : Place}
    (h : follow disk.top .reach links loc steps slash = .ok (place, asked))
    (hgoal : after.at? place.loc ≠ none) :
    ∃ node, follow after.top .reach links loc steps slash = .ok (.found place.loc node, asked) := by
  refine follow_induction (motive := fun links loc steps slash => ∃ node,
    follow after.top .reach links loc steps slash = .ok (.found place.loc node, asked)) ?_ ?_ h
  · intro links loc steps hadv
    have hend : ∀ other, Reach.place place = .place other → after.at? other.loc ≠ none := by
      intro other heq
      rw [← Reach.place.inj heq]
      exact hgoal
    obtain ⟨node, hadv'⟩ := (advances_of_advance (by simp) hadv).of_sameShape hs hend
    exact ⟨node, follow_eq_ok_iff.mpr (.inl ⟨hadv'.advance_reach asked, rfl⟩)⟩
  · intro links loc steps slash parent target rest route hadv hroute ih
    obtain ⟨_, hadv'⟩ := (advances_of_advance (by simp) hadv).of_sameShape hs (by simp)
    obtain ⟨node, hrest⟩ := ih
    exact ⟨node, by rw [follow_link (hadv'.advance_reach slash) hroute, hrest]⟩

/-! ## Free names -/

/-- A free name that a route leads to is one that an entry can have, in a directory without it. -/
theorem vacant_of_follow {top : Node} {purpose : Purpose} (hp : purpose ≠ .entry) {links : Nat}
    {loc parent : Location} {steps : List Step} {slash asked : Bool} {name : RawText}
    (hask : ∀ name, .into name ∈ steps → name.Askable)
    (h : follow top purpose links loc steps slash = .ok (.vacant parent name, asked)) :
    name.IsName ∧
      ∃ entries, top.get? parent = some (.dir entries) ∧ entries.lookup name = none := by
  refine follow_induction (motive := fun _ _ steps _ =>
    (∀ name, .into name ∈ steps → name.Askable) →
      name.IsName ∧ ∃ entries, top.get? parent = some (.dir entries) ∧ entries.lookup name = none)
    ?_ ?_ h hask
  · intro links loc steps hadv hask
    obtain ⟨hmem, hshort, hfree⟩ := (advances_of_advance hp hadv).get?_vacant
    exact ⟨(hask name hmem).isName hshort, hfree⟩
  · intro links loc steps slash parent target rest route hadv hroute ih hask
    refine ih fun name hm => ?_
    rw [List.mem_append] at hm
    cases hm with
    | inl hm => exact Route.askable_of_mem hroute hm
    | inr hm => exact hask name ((advances_of_advance hp hadv).suffix_link.subset hm)

end Disk

end PackageSeal
