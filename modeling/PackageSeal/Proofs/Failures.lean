import Mathlib.Order.Defs.Unbundled
import PackageSeal.Proofs.Runs

/-!
# How runs fail

A run that fails stops at one of its steps, and what the steps before it did to the disk is kept.
`Fails` says with which failure a run stops and which disk it leaves; the `fails_…` lemmas find the
step that failed, as the `ends_…` lemmas take apart a run that ends. Where only the kind of failure
matters, `FailsBy` says it of a run as a whole, step by step.

`Relates` says what a run does to a disk, whether it ends or fails.
-/

namespace PackageSeal

/-! ## Results and failures -/

section Except

variable {ε ε' α β : Type}

theorem bind_eq_error_iff {x : Except ε α} {f : α → Except ε β} {e : ε} :
    x >>= f = .error e ↔ x = .error e ∨ ∃ a, x = .ok a ∧ f a = .error e := by
  cases x with
  | error e' => simp [bind, Except.bind]
  | ok a => simp [bind, Except.bind]

theorem mapError_eq_error_iff {x : Except ε α} {f : ε → ε'} {e : ε'} :
    x.mapError f = .error e ↔ ∃ cause, x = .error cause ∧ f cause = e := by
  cases x with
  | error cause => simp [Except.mapError]
  | ok a => simp [Except.mapError]

/-- A traversal fails with the first failure, where there is one. -/
theorem mapM_eq_error_iff {f : α → Except ε β} {xs : List α} {e : ε} :
    xs.mapM f = .error e ↔ ∃ front x rest, xs = front ++ x :: rest ∧
      (∀ y ∈ front, ∃ b, f y = .ok b) ∧ f x = .error e := by
  constructor
  · intro h
    induction xs with
    | nil => simp [pure, Except.pure] at h
    | cons x xs ih =>
        cases hx : f x with
        | error cause =>
            rw [List.mapM_cons, hx] at h
            cases h
            exact ⟨[], x, xs, rfl, List.forall_mem_nil _, hx⟩
        | ok b =>
            have hrest : xs.mapM f = .error e := by
              simpa [List.mapM_cons, hx, ok_bind, bind_eq_error_iff, pure, Except.pure] using h
            obtain ⟨front, y, rest, rfl, hfront, hy⟩ := ih hrest
            exact ⟨x :: front, y, rest, rfl, List.forall_mem_cons.mpr ⟨⟨b, hx⟩, hfront⟩, hy⟩
  · rintro ⟨front, x, rest, rfl, hfront, hx⟩
    exact mapM_eq_error hfront hx

end Except

namespace Action

variable {ε ε' α β : Type}

/-! ## The step that fails -/

/-- The run fails from the disk `before`, and leaves the disk `after`. -/
def Fails (run : Action ε α) (before : Disk) (failure : ε) (after : Disk) : Prop :=
  (run before).outcome = .error failure ∧ (run before).disk = after

variable {before after : Disk} {failure : ε}

theorem not_fails_pure {a : α} : ¬ (pure a : Action ε α).Fails before failure after := by
  simp [Fails, pure, ok]

/-- A sequence fails in its first part or, where this ends, in the rest. -/
theorem fails_bind {run : Action ε α} {next : α → Action ε β} :
    (run >>= next).Fails before failure after ↔ run.Fails before failure after ∨
      ∃ a middle, run.Ends before a middle ∧ (next a).Fails middle failure after := by
  simp only [Fails, Ends, bind, andThen]
  cases h : (run before).outcome with
  | error e => simp
  | ok a => simp

theorem fails_look {run : Disk → Logged ε α} :
    (look run).Fails before failure after ↔
      (run before).outcome = .error failure ∧ before = after := Iff.rfl

theorem not_fails_tell {event : Event} :
    ¬ (tell event : Action ε Unit).Fails before failure after := by
  rw [tell, fails_look, Logged.outcome_tell]
  simp

theorem fails_ofExcept {x : Except ε α} :
    (ofExcept x).Fails before failure after ↔ x = .error failure ∧ before = after := by
  rw [ofExcept, fails_look, Logged.outcome_ofExcept]

/-- A change that fails changes nothing. -/
theorem fails_change {step : Disk → Except ε Disk} :
    (change step).Fails before failure after ↔
      step before = .error failure ∧ before = after := by
  unfold Fails change
  cases step before with
  | error e => simp
  | ok changed => simp

/-! ## Kinds of failures -/

/-- The run can fail in this way only. -/
def FailsBy (P : ε → Prop) (run : Action ε α) : Prop :=
  ∀ before failure after, run.Fails before failure after → P failure

namespace FailsBy

variable {P : ε → Prop}

theorem pure (a : α) : FailsBy P (Pure.pure a : Action ε α) :=
  fun _ _ _ h => absurd h not_fails_pure

theorem tell (event : Event) : FailsBy P (Action.tell event) :=
  fun _ _ _ h => absurd h not_fails_tell

theorem look {run : Disk → Logged ε α}
    (h : ∀ disk failure, (run disk).outcome = .error failure → P failure) :
    FailsBy P (Action.look run) :=
  fun before failure _ hfails => h before failure (fails_look.mp hfails).1

theorem change {step : Disk → Except ε Disk}
    (h : ∀ disk failure, step disk = .error failure → P failure) :
    FailsBy P (Action.change step) :=
  fun before failure _ hfails => h before failure (fails_change.mp hfails).1

theorem bind {run : Action ε α} {next : α → Action ε β} (h : FailsBy P run)
    (hnext : ∀ a, FailsBy P (next a)) : FailsBy P (run >>= next) := by
  intro before failure after hfails
  obtain hrun | ⟨a, middle, -, hrest⟩ := fails_bind.mp hfails
  · exact h before failure after hrun
  · exact hnext a middle failure after hrest

theorem mapM {f : α → Action ε β} (h : ∀ x, FailsBy P (f x)) (xs : List α) :
    FailsBy P (xs.mapM f) := by
  induction xs with
  | nil => exact pure []
  | cons x xs ih =>
      rw [List.mapM_cons]
      exact (h x).bind fun y => ih.bind fun ys => pure (y :: ys)

theorem forM {f : α → Action ε Unit} (h : ∀ x, FailsBy P (f x)) (xs : List α) :
    FailsBy P (xs.forM f) := by
  induction xs with
  | nil => exact pure ()
  | cons x xs ih => exact (h x).bind fun _ => ih

theorem discard {run : Action ε α} (h : FailsBy P run) : FailsBy P (Functor.discard run) :=
  h.bind fun _ => pure ()

end FailsBy

/-! ## What a run does to a disk -/

/-- The run takes a disk to one that is so related to it, whether it ends or fails. -/
def Relates (R : Disk → Disk → Prop) (run : Action ε α) : Prop :=
  ∀ disk, R disk (run disk).disk

/-- A sequence leaves the disk at which its first part fails, or the one that the rest leaves. -/
theorem disk_bind {run : Action ε α} {next : α → Action ε β} {before after : Disk}
    (h : ((run >>= next) before).disk = after) : (∃ failure, run.Fails before failure after) ∨
      ∃ a middle, run.Ends before a middle ∧ (next a middle).disk = after := by
  subst h
  simp only [Fails, Ends, bind, andThen]
  cases h : (run before).outcome with
  | error failure => simp
  | ok a => simp

namespace Relates

variable {R : Disk → Disk → Prop} [IsPreorder Disk R]

theorem pure (a : α) : Relates R (Pure.pure a : Action ε α) :=
  fun disk => refl_of R disk

theorem look (run : Disk → Logged ε α) : Relates R (Action.look run) :=
  fun disk => refl_of R disk

theorem change {step : Disk → Except ε Disk}
    (h : ∀ disk changed, step disk = .ok changed → R disk changed) :
    Relates R (Action.change step) := by
  intro disk
  unfold Action.change
  cases hstep : step disk with
  | error failure => exact refl_of R disk
  | ok changed => exact h disk changed hstep

/-- What follows a part that ends may be known to follow it. -/
theorem bind_of_ends {run : Action ε α} {next : α → Action ε β} {before : Disk}
    (h : R before (run before).disk)
    (hnext : ∀ a middle, run.Ends before a middle → R middle (next a middle).disk) :
    R before ((run >>= next) before).disk := by
  obtain ⟨failure, hfails⟩ | ⟨a, middle, hends, hdisk⟩ :=
    disk_bind (rfl : ((run >>= next) before).disk = _)
  · rw [← hfails.2]
    exact h
  · rw [← hdisk]
    exact trans_of R (hends.2 ▸ h) (hnext a middle hends)

theorem bind {run : Action ε α} {next : α → Action ε β} (h : Relates R run)
    (hnext : ∀ a, Relates R (next a)) : Relates R (run >>= next) :=
  fun before => bind_of_ends (h before) fun a middle _ => hnext a middle

theorem mapM {f : α → Action ε β} {xs : List α} (h : ∀ x ∈ xs, Relates R (f x)) :
    Relates R (xs.mapM f) := by
  induction xs with
  | nil => exact pure []
  | cons x xs ih =>
      rw [List.forall_mem_cons] at h
      rw [List.mapM_cons]
      exact h.1.bind fun y => (ih h.2).bind fun ys => pure (y :: ys)

theorem forM {f : α → Action ε Unit} {xs : List α} (h : ∀ x ∈ xs, Relates R (f x)) :
    Relates R (xs.forM f) := by
  induction xs with
  | nil => exact pure ()
  | cons x xs ih =>
      rw [List.forall_mem_cons] at h
      exact h.1.bind fun _ => ih h.2

theorem discard {run : Action ε α} (h : Relates R run) : Relates R (Functor.discard run) :=
  h.bind fun _ => pure ()

end Relates

end Action

end PackageSeal
