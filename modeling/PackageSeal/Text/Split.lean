/-!
# Splitting and replacing

Lists cut at a separator, and a pattern replaced wherever it stands. `joinWith_split` says that the
cut pieces, put together again with the separator, are the whole; `replace_append` and
`replace_cons` say what replacing does at the front.
-/

namespace PackageSeal.Text

variable {α : Type}

/-- The pieces between separators: one more than there are separators. -/
def split [DecidableEq α] (sep : α) : List α → List (List α)
  | [] => [[]]
  | x :: xs =>
    if x = sep then [] :: split sep xs
    else match split sep xs with
      | [] => [[x]]
      | piece :: rest => (x :: piece) :: rest

theorem split_ne_nil [DecidableEq α] (sep : α) (xs : List α) : split sep xs ≠ [] := by
  cases xs with
  | nil => simp [split]
  | cons x xs =>
    rw [split]
    split
    · simp
    · split <;> simp

/-- Pieces put together with the separator between them. -/
def joinWith (sep : α) : List (List α) → List α
  | [] => []
  | [piece] => piece
  | piece :: rest => piece ++ sep :: joinWith sep rest

theorem joinWith_cons (sep : α) (piece : List α) {rest : List (List α)} (h : rest ≠ []) :
    joinWith sep (piece :: rest) = piece ++ sep :: joinWith sep rest := by
  cases rest with
  | nil => exact absurd rfl h
  | cons p ps => rfl

/-- Putting the pieces together again gives the whole. -/
theorem joinWith_split [DecidableEq α] (sep : α) (xs : List α) :
    joinWith sep (split sep xs) = xs := by
  induction xs with
  | nil => rfl
  | cons x xs ih =>
    rw [split]
    split
    · next h => rw [joinWith_cons _ _ (split_ne_nil sep xs), ih, h]; rfl
    · split
      · next h => exact absurd h (split_ne_nil sep xs)
      · next piece rest h =>
        rw [h] at ih
        cases rest with
        | nil => simp [joinWith] at ih ⊢; exact ih
        | cons p ps => simp only [joinWith, List.cons_append] at ih ⊢; rw [ih]

/-- No piece holds the separator. -/
theorem not_mem_of_mem_split [DecidableEq α] {sep : α} {xs piece : List α}
    (h : piece ∈ split sep xs) : sep ∉ piece := by
  induction xs generalizing piece with
  | nil => simp [split] at h; simp [h]
  | cons x xs ih =>
    rw [split] at h
    split at h
    · rcases List.mem_cons.mp h with rfl | h
      · simp
      · exact ih h
    · next hx =>
      split at h
      · simp at h; subst h; simp [Ne.symm hx]
      · next first rest hs =>
        rcases List.mem_cons.mp h with rfl | h
        · have : sep ∉ first := ih (by rw [hs]; simp)
          simp [this, Ne.symm hx]
        · exact ih (by rw [hs]; simp [h])

/-- Replace while reading: `skip` elements belong to the match just replaced. -/
private def replaceFrom [DecidableEq α] (pattern new : List α) : Nat → List α → List α
  | _, [] => []
  | skip + 1, _ :: xs => replaceFrom pattern new skip xs
  | 0, x :: xs =>
    if pattern.isPrefixOf (x :: xs) then new ++ replaceFrom pattern new (pattern.length - 1) xs
    else x :: replaceFrom pattern new 0 xs

/-- Every occurrence of the pattern, from the left and without overlap, replaced. -/
def replace [DecidableEq α] (pattern new xs : List α) : List α :=
  replaceFrom pattern new 0 xs

private theorem replaceFrom_append [DecidableEq α] (pattern new front rest : List α) :
    replaceFrom pattern new front.length (front ++ rest) = replaceFrom pattern new 0 rest := by
  induction front with
  | nil => rfl
  | cons x xs ih => exact ih

/-- An occurrence at the front is replaced. -/
theorem replace_append [DecidableEq α] {pattern : List α} (hne : pattern ≠ []) (new rest : List α) :
    replace pattern new (pattern ++ rest) = new ++ replace pattern new rest := by
  cases pattern with
  | nil => exact absurd rfl hne
  | cons x xs =>
    have hprefix : (x :: xs).isPrefixOf (x :: (xs ++ rest)) = true :=
      List.isPrefixOf_iff_prefix.mpr (List.prefix_append (x :: xs) rest)
    rw [List.cons_append, replace, replaceFrom, if_pos hprefix]
    congr 1
    exact replaceFrom_append (x :: xs) new xs rest

/-- Where no occurrence begins, the element stays. -/
theorem replace_cons [DecidableEq α] {pattern : List α} {x : α} {xs : List α}
    (h : ¬ pattern <+: x :: xs) (new : List α) :
    replace pattern new (x :: xs) = x :: replace pattern new xs := by
  have hprefix : ¬ pattern.isPrefixOf (x :: xs) = true :=
    fun hp => h (List.isPrefixOf_iff_prefix.mp hp)
  rw [replace, replaceFrom, if_neg hprefix, replace]

end PackageSeal.Text
