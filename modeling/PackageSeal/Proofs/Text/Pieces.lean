import Mathlib.Data.List.Basic
import PackageSeal.Text.Split

/-!
# Pieces of joined lists

Cutting two lists that were put together with a separator gives the pieces of both, and pieces that
hold no separator are what cutting their join gives back.
-/

namespace PackageSeal

/-- A list that is not empty ends in something. -/
theorem exists_concat {α : Type} {xs : List α} (h : xs ≠ []) :
    ∃ front last, xs = front ++ [last] :=
  ⟨xs.dropLast, xs.getLast h, (List.dropLast_append_getLast h).symm⟩

namespace Text

variable {α : Type} [DecidableEq α] {sep : α}

/-- Elements of pieces are elements of the whole. -/
theorem mem_of_mem_split {xs piece : List α} {x : α} (hp : piece ∈ split sep xs) (hx : x ∈ piece) :
    x ∈ xs := by
  induction xs generalizing piece with
  | nil =>
      rw [split, List.mem_singleton] at hp
      rw [hp] at hx
      exact hx
  | cons y ys ih =>
      rw [split] at hp
      split at hp
      · rw [List.mem_cons] at hp
        rcases hp with rfl | hp
        · contradiction
        · exact List.mem_cons_of_mem _ (ih hp hx)
      · split at hp
        · next h => exact absurd h (split_ne_nil sep ys)
        · next first rest hs =>
          rw [List.mem_cons] at hp
          rcases hp with rfl | hp
          · rw [List.mem_cons] at hx
            rcases hx with rfl | hx
            · exact List.mem_cons_self
            · exact List.mem_cons_of_mem _ (ih (by rw [hs]; exact List.mem_cons_self) hx)
          · exact List.mem_cons_of_mem _ (ih (by rw [hs]; exact List.mem_cons_of_mem _ hp) hx)

theorem split_append_sep (xs ys : List α) :
    split sep (xs ++ sep :: ys) = split sep xs ++ split sep ys := by
  induction xs with
  | nil => simp [split]
  | cons x xs ih =>
      rw [List.cons_append, split, split]
      by_cases hx : x = sep
      · rw [if_pos hx, if_pos hx, ih, List.cons_append]
      · rw [if_neg hx, if_neg hx, ih]
        cases hs : split sep xs with
        | nil => exact absurd hs (split_ne_nil sep xs)
        | cons piece rest => rfl

/-- A list without the separator is one piece. -/
theorem split_of_notMem {xs : List α} (h : sep ∉ xs) : split sep xs = [xs] := by
  induction xs with
  | nil => rfl
  | cons x xs ih =>
      rw [List.mem_cons, not_or] at h
      rw [split, if_neg (Ne.symm h.1), ih h.2]

/-- What is put after the whole and holds no separator is put after its last piece. -/
theorem exists_split_append (xs : List α) {ys : List α} (h : sep ∉ ys) :
    ∃ front last, split sep (xs ++ ys) = front ++ [last ++ ys] ∧ sep ∉ last := by
  induction xs with
  | nil =>
      refine ⟨[], [], ?_, List.not_mem_nil⟩
      rw [List.nil_append, split_of_notMem h, List.nil_append]
  | cons x xs ih =>
      obtain ⟨front, last, hsplit, hlast⟩ := ih
      rw [List.cons_append, split, hsplit]
      by_cases hx : x = sep
      · rw [if_pos hx]
        exact ⟨[] :: front, last, rfl, hlast⟩
      · rw [if_neg hx]
        cases front with
        | nil => exact ⟨[], x :: last, rfl, by simp [hlast, Ne.symm hx]⟩
        | cons piece front => exact ⟨(x :: piece) :: front, last, rfl, hlast⟩

/-- A list ends in a part without the separator, before which nothing or a separator stands. -/
theorem exists_last_part (sep : α) (xs : List α) : ∃ front last, xs = front ++ last ∧
    sep ∉ last ∧ (front = [] ∨ front.getLast? = some sep) := by
  induction xs with
  | nil => exact ⟨[], [], rfl, List.not_mem_nil, .inl rfl⟩
  | cons x xs ih =>
      obtain ⟨front, last, rfl, hlast, rfl | hfront⟩ := ih
      · by_cases hx : sep = x
        · subst hx
          exact ⟨[sep], last, rfl, hlast, .inr rfl⟩
        · exact ⟨[], x :: last, rfl, by simp [hx, hlast], .inl rfl⟩
      · exact ⟨x :: front, last, rfl, hlast, .inr (by simp [List.getLast?_cons, hfront])⟩

/-- Pieces without the separator are what cutting their join gives back. -/
theorem split_joinWith {pieces : List (List α)} (hne : pieces ≠ [])
    (h : ∀ piece ∈ pieces, sep ∉ piece) : split sep (joinWith sep pieces) = pieces := by
  induction pieces with
  | nil => exact absurd rfl hne
  | cons piece rest ih =>
      rw [List.forall_mem_cons] at h
      cases rest with
      | nil => exact split_of_notMem h.1
      | cons next rest =>
          have hrest : next :: rest ≠ [] := List.cons_ne_nil _ _
          rw [joinWith_cons _ _ hrest, split_append_sep, split_of_notMem h.1, ih hrest h.2]
          rfl

/-- Joins of pieces without the separator are the same only where the pieces are. -/
theorem joinWith_inj {pieces pieces' : List (List α)} (hne : pieces ≠ []) (hne' : pieces' ≠ [])
    (h : ∀ piece ∈ pieces, sep ∉ piece) (h' : ∀ piece ∈ pieces', sep ∉ piece)
    (heq : joinWith sep pieces = joinWith sep pieces') : pieces = pieces' := by
  rw [← split_joinWith hne h, ← split_joinWith hne' h', heq]

omit [DecidableEq α] in
/-- A join holds what its pieces hold, and separators. -/
theorem mem_of_mem_joinWith {pieces : List (List α)} {x : α} (hx : x ≠ sep)
    (h : x ∈ joinWith sep pieces) : ∃ piece ∈ pieces, x ∈ piece := by
  induction pieces with
  | nil => contradiction
  | cons piece rest ih =>
      cases rest with
      | nil => exact ⟨piece, List.mem_cons_self, h⟩
      | cons next rest =>
          rw [joinWith_cons _ _ (List.cons_ne_nil _ _), List.mem_append, List.mem_cons] at h
          rcases h with h | h | h
          · exact ⟨piece, List.mem_cons_self, h⟩
          · exact absurd h hx
          · obtain ⟨other, hother, hmem⟩ := ih h
            exact ⟨other, List.mem_cons_of_mem _ hother, hmem⟩

end Text

end PackageSeal
