import Mathlib.Data.List.Forall2
import PackageSeal.Log

/-!
# How runs end

A run that looks (`Logged`) ends as its steps end, whatever it tells on the way; so its outcome is
computed step by step in `Except`. A run that changes a disk (`Action`) is described by `Ends`: from
one disk it comes to a result and to another disk. The `ends_…` lemmas take such a run apart into
its steps, so that no proof about sealing opens a monad.
-/

namespace PackageSeal

/-! ## Lists side by side -/

section Lists

variable {α β γ : Type} {R : α → β → Prop} {xs : List α} {ys : List β}

theorem map_eq_map_of_forall₂ {f : α → γ} {g : β → γ} (h : List.Forall₂ R xs ys)
    (hR : ∀ x y, R x y → f x = g y) : xs.map f = ys.map g := by
  induction h with
  | nil => rfl
  | cons hfirst _ ih => rw [List.map_cons, List.map_cons, hR _ _ hfirst, ih]

theorem exists_right_of_forall₂ (h : List.Forall₂ R xs ys) {x : α} (hx : x ∈ xs) :
    ∃ y ∈ ys, R x y := by
  induction h with
  | nil => contradiction
  | cons hfirst _ ih =>
      rw [List.mem_cons] at hx
      cases hx with
      | inl heq => exact ⟨_, List.mem_cons_self, heq ▸ hfirst⟩
      | inr hmem =>
          obtain ⟨y, hy, hR⟩ := ih hmem
          exact ⟨y, List.mem_cons_of_mem _ hy, hR⟩

theorem exists_left_of_forall₂ (h : List.Forall₂ R xs ys) {y : β} (hy : y ∈ ys) :
    ∃ x ∈ xs, R x y :=
  exists_right_of_forall₂ h.flip hy

theorem forall₂_imp_of_mem {S : α → β → Prop} (h : ∀ x ∈ xs, ∀ y, R x y → S x y)
    (hxs : List.Forall₂ R xs ys) : List.Forall₂ S xs ys := by
  induction hxs with
  | nil => exact List.Forall₂.nil
  | cons hfirst _ ih =>
      rw [List.forall_mem_cons] at h
      exact List.Forall₂.cons (h.1 _ hfirst) (ih h.2)

theorem forall₂_congr_of_mem {S : α → β → Prop} (h : ∀ x ∈ xs, ∀ y, R x y ↔ S x y) :
    List.Forall₂ R xs ys ↔ List.Forall₂ S xs ys :=
  ⟨forall₂_imp_of_mem fun x hx y => (h x hx y).mp,
    forall₂_imp_of_mem fun x hx y => (h x hx y).mpr⟩

theorem forall₂_and_right {p : β → Prop} :
    List.Forall₂ R xs ys ∧ (∀ y ∈ ys, p y) ↔ List.Forall₂ (fun x y => R x y ∧ p y) xs ys := by
  constructor
  · rintro ⟨hall, hright⟩
    exact (forall₂_imp_of_mem (fun y hy x hxy => ⟨hxy, hright y hy⟩) hall.flip).flip
  · intro h
    refine ⟨h.imp fun _ _ => And.left, fun y hy => ?_⟩
    obtain ⟨x, -, -, hright⟩ := exists_left_of_forall₂ h hy
    exact hright

/-- Lists whose elements are related through others are related through a list of these. -/
theorem forall₂_exists_iff {A : α → γ → Prop} {B : γ → β → Prop} :
    List.Forall₂ (fun x y => ∃ z, A x z ∧ B z y) xs ys ↔
      ∃ zs, List.Forall₂ A xs zs ∧ List.Forall₂ B zs ys := by
  constructor
  · intro h
    induction h with
    | nil => exact ⟨[], List.Forall₂.nil, List.Forall₂.nil⟩
    | cons hfirst _ ih =>
        obtain ⟨z, hA, hB⟩ := hfirst
        obtain ⟨zs, hAs, hBs⟩ := ih
        exact ⟨z :: zs, List.Forall₂.cons hA hAs, List.Forall₂.cons hB hBs⟩
  · intro h
    obtain ⟨zs, hA, hB⟩ := h
    induction hA generalizing ys with
    | nil =>
        cases hB
        exact List.Forall₂.nil
    | cons hfirst _ ih =>
        cases hB with
        | cons hsecond hrest => exact List.Forall₂.cons ⟨_, hfirst, hsecond⟩ (ih hrest)

theorem exists_forall₂ (h : ∀ x ∈ xs, ∃ y, R x y) : ∃ ys, List.Forall₂ R xs ys := by
  induction xs with
  | nil => exact ⟨[], List.Forall₂.nil⟩
  | cons x xs ih =>
      rw [List.forall_mem_cons] at h
      obtain ⟨y, hy⟩ := h.1
      obtain ⟨ys, hys⟩ := ih h.2
      exact ⟨y :: ys, List.Forall₂.cons hy hys⟩

end Lists

/-! ## Results and failures -/

section Except

variable {ε ε' α β : Type}

theorem ok_bind {a : α} {f : α → Except ε β} : (Except.ok a >>= f) = f a := rfl

theorem bind_eq_ok_iff {x : Except ε α} {f : α → Except ε β} {b : β} :
    x >>= f = .ok b ↔ ∃ a, x = .ok a ∧ f a = .ok b := by
  cases x with
  | error e => simp [bind, Except.bind]
  | ok a => simp [bind, Except.bind]

/-- A check and what comes after it succeed where both do. -/
theorem check_then_eq_ok_iff {x : Except ε Unit} {next : Except ε β} {b : β} :
    (do x
        next) = .ok b ↔ x = .ok () ∧ next = .ok b := by
  rw [bind_eq_ok_iff]
  exact ⟨fun ⟨_, hx, hnext⟩ => ⟨hx, hnext⟩, fun ⟨hx, hnext⟩ => ⟨(), hx, hnext⟩⟩

theorem pure_eq_ok_iff {a b : α} : (pure a : Except ε α) = .ok b ↔ a = b := by
  simp [pure, Except.pure]

theorem mapError_eq_ok_iff {x : Except ε α} {f : ε → ε'} {a : α} :
    x.mapError f = .ok a ↔ x = .ok a := by
  cases x with
  | error e => simp [Except.mapError]
  | ok a => simp [Except.mapError]

theorem map_eq_ok_iff {x : Except ε α} {f : α → β} {b : β} :
    x.map f = .ok b ↔ ∃ a, x = .ok a ∧ f a = b := by
  cases x with
  | error e => simp [Except.map]
  | ok a => simp [Except.map]

/-- A guard passes where its condition does not hold. -/
theorem guard_eq_ok_iff {p : Prop} [Decidable p] {e : ε} {next : Except ε α} {a : α} :
    (do if p then throw e
        next) = .ok a ↔ ¬ p ∧ next = .ok a := by
  by_cases h : p
  · simp [h, throw, throwThe, MonadExceptOf.throw, bind, Except.bind]
  · simp [h]

/-- The same of a guard after which nothing comes. -/
theorem last_guard_eq_ok_iff {p : Prop} [Decidable p] {e : ε} :
    (if p then throw e else pure () : Except ε Unit) = .ok () ↔ ¬ p := by
  by_cases h : p
  · simp [h, throw, throwThe, MonadExceptOf.throw]
  · simp [h, pure, Except.pure]

/-- A traversal succeeds exactly where it does at every element. -/
theorem mapM_eq_ok_iff {f : α → Except ε β} {xs : List α} {ys : List β} :
    xs.mapM f = .ok ys ↔ List.Forall₂ (fun x y => f x = .ok y) xs ys := by
  induction xs generalizing ys with
  | nil =>
      rw [List.mapM_nil, pure_eq_ok_iff, List.forall₂_nil_left_iff, eq_comm]
  | cons x xs ih =>
      simp only [List.mapM_cons, bind_eq_ok_iff, pure_eq_ok_iff, ih, List.forall₂_cons_left_iff]
      constructor
      · rintro ⟨y, hy, zs, hzs, rfl⟩
        exact ⟨y, zs, hy, hzs, rfl⟩
      · rintro ⟨y, zs, hy, hzs, rfl⟩
        exact ⟨y, hy, zs, hzs, rfl⟩

/-- A traversal ends with the first failure. -/
theorem mapM_eq_error {f : α → Except ε β} {front rest : List α} {x : α} {e : ε}
    (hfront : ∀ y ∈ front, ∃ b, f y = .ok b) (hx : f x = .error e) :
    (front ++ x :: rest).mapM f = .error e := by
  induction front with
  | nil =>
      rw [List.nil_append, List.mapM_cons, hx]
      rfl
  | cons y front ih =>
      rw [List.forall_mem_cons] at hfront
      obtain ⟨b, hb⟩ := hfront.1
      rw [List.cons_append, List.mapM_cons, hb, ih hfront.2]
      rfl

/-- A check of every element passes exactly where each does. -/
theorem forM_eq_ok_iff {f : α → Except ε Unit} {xs : List α} :
    xs.forM f = .ok () ↔ ∀ x ∈ xs, f x = .ok () := by
  induction xs with
  | nil => simp [pure, Except.pure]
  | cons x xs ih =>
      show (f x >>= fun _ => xs.forM f) = .ok () ↔ _
      rw [bind_eq_ok_iff, List.forall_mem_cons, ← ih]
      constructor
      · rintro ⟨⟨⟩, hx, hxs⟩
        exact ⟨hx, hxs⟩
      · rintro ⟨hx, hxs⟩
        exact ⟨⟨⟩, hx, hxs⟩

end Except

/-! ## Runs that look -/

namespace Logged

variable {ε ε' α β σ : Type}

@[simp] theorem outcome_pure (a : α) : (pure a : Logged ε α).outcome = .ok a := rfl

@[simp] theorem outcome_fail (e : ε) : (fail e : Logged ε α).outcome = .error e := rfl

@[simp] theorem outcome_tell (event : Event) : (tell event : Logged ε Unit).outcome = .ok () := rfl

@[simp] theorem outcome_ofExcept (x : Except ε α) : (ofExcept x).outcome = x := by
  cases x with
  | error e => rfl
  | ok a => rfl

@[simp] theorem outcome_mapError (f : ε → ε') (run : Logged ε α) :
    (run.mapError f).outcome = run.outcome.mapError f := rfl

@[simp] theorem outcome_bind (run : Logged ε α) (next : α → Logged ε β) :
    (run >>= next).outcome = run.outcome >>= fun a => (next a).outcome := by
  change (run.andThen next).outcome = _
  unfold andThen
  cases h : run.outcome with
  | error e => rfl
  | ok a => rfl

@[simp] theorem outcome_map (f : α → β) (run : Logged ε α) :
    (f <$> run).outcome = run.outcome.map f := by
  rw [map_eq_pure_bind, outcome_bind]
  cases run.outcome with
  | error e => rfl
  | ok a => rfl

theorem outcome_mapM (f : α → Logged ε β) (xs : List α) :
    (xs.mapM f).outcome = xs.mapM fun x => (f x).outcome := by
  induction xs with
  | nil => rfl
  | cons x xs ih =>
      simp only [List.mapM_cons, outcome_bind, outcome_pure, ih]
      rfl

theorem outcome_foldlM (f : σ → α → Logged ε σ) (xs : List α) (s : σ) :
    (xs.foldlM f s).outcome = xs.foldlM (fun s x => (f s x).outcome) s := by
  induction xs generalizing s with
  | nil => rfl
  | cons x xs ih =>
      simp only [List.foldlM_cons, outcome_bind, ih]

end Logged

/-! ## Runs that change a disk -/

namespace Action

variable {ε ε' α β : Type}

/-- The run succeeds from the disk `before`, with a result and the disk `after`. -/
def Ends (run : Action ε α) (before : Disk) (result : α) (after : Disk) : Prop :=
  (run before).outcome = .ok result ∧ (run before).disk = after

variable {before after : Disk}

theorem ends_pure {a b : α} :
    (pure a : Action ε α).Ends before b after ↔ a = b ∧ before = after := by
  simp [Ends, pure, ok]

/-- A run goes on from where the one before it ended. -/
theorem ends_bind {run : Action ε α} {next : α → Action ε β} {b : β} :
    (run >>= next).Ends before b after ↔
      ∃ a middle, run.Ends before a middle ∧ (next a).Ends middle b after := by
  simp only [Ends, bind, andThen]
  cases h : (run before).outcome with
  | error e => simp
  | ok a => simp

theorem ends_look {run : Disk → Logged ε α} {a : α} :
    (look run).Ends before a after ↔ (run before).outcome = .ok a ∧ before = after := Iff.rfl

theorem ends_tell {event : Event} {u : Unit} :
    (tell event : Action ε Unit).Ends before u after ↔ before = after := by
  rw [tell, ends_look, Logged.outcome_tell]
  exact and_iff_right rfl

theorem ends_ofExcept {x : Except ε α} {a : α} :
    (ofExcept x).Ends before a after ↔ x = .ok a ∧ before = after := by
  rw [ofExcept, ends_look, Logged.outcome_ofExcept]

theorem ends_change {step : Disk → Except ε Disk} {u : Unit} :
    (change step).Ends before u after ↔ step before = .ok after := by
  unfold Ends change
  cases step before with
  | error e => simp
  | ok changed => simp

theorem ends_discard {run : Action ε α} {u : Unit} :
    (discard run).Ends before u after ↔ ∃ a, run.Ends before a after := by
  show (run >>= fun _ => pure ()).Ends before u after ↔ _
  rw [ends_bind]
  constructor
  · rintro ⟨a, middle, hrun, hpure⟩
    obtain ⟨-, rfl⟩ := ends_pure.mp hpure
    exact ⟨a, hrun⟩
  · rintro ⟨a, hrun⟩
    exact ⟨a, after, hrun, ends_pure.mpr ⟨rfl, rfl⟩⟩

theorem ends_mapM_nil {f : α → Action ε β} {ys : List β} :
    (([] : List α).mapM f).Ends before ys after ↔ ys = [] ∧ before = after := by
  rw [List.mapM_nil, ends_pure, eq_comm]

theorem ends_mapM_cons {f : α → Action ε β} {x : α} {xs : List α} {zs : List β} :
    ((x :: xs).mapM f).Ends before zs after ↔
      ∃ y ys middle, (f x).Ends before y middle ∧ (xs.mapM f).Ends middle ys after ∧
        zs = y :: ys := by
  rw [List.mapM_cons, ends_bind]
  constructor
  · rintro ⟨y, middle, hx, hrest⟩
    obtain ⟨ys, last, hxs, hpure⟩ := ends_bind.mp hrest
    obtain ⟨rfl, rfl⟩ := ends_pure.mp hpure
    exact ⟨y, ys, middle, hx, hxs, rfl⟩
  · rintro ⟨y, ys, middle, hx, hxs, rfl⟩
    exact ⟨y, middle, hx, ends_bind.mpr ⟨ys, after, hxs, ends_pure.mpr ⟨rfl, rfl⟩⟩⟩

theorem ends_forM_nil {f : α → Action ε Unit} {u : Unit} :
    (([] : List α).forM f).Ends before u after ↔ before = after := by
  show (pure () : Action ε Unit).Ends before u after ↔ _
  rw [ends_pure]
  exact and_iff_right rfl

theorem ends_forM_cons {f : α → Action ε Unit} {x : α} {xs : List α} {u : Unit} :
    ((x :: xs).forM f).Ends before u after ↔
      ∃ middle, (f x).Ends before () middle ∧ (xs.forM f).Ends middle () after := by
  show (f x >>= fun _ => xs.forM f).Ends before u after ↔ _
  rw [ends_bind]
  constructor
  · rintro ⟨⟨⟩, middle, hx, hxs⟩
    exact ⟨middle, hx, hxs⟩
  · rintro ⟨middle, hx, hxs⟩
    exact ⟨⟨⟩, middle, hx, hxs⟩

end Action

end PackageSeal
