import PackageSeal.Proofs.Layout.Valid

/-!
# Placeholders

A template text is read as characters that stand for themselves and placeholders. A text has at most
one such reading in which no open brace stands for itself (`Reads.unique`), and `checkTemplateText`
accepts a text exactly if it has one (`checkTemplateText_eq_ok_iff`).

Filling a template in does not go by its reading: it replaces the three placeholders one after the
other in the whole text, so that what the first replacement inserts is searched by the others.
`Clear` says that no literals spell a placeholder. A replacement then does to the text what it does
to the tokens (`replace_spelled`), and where literals spell a placeholder the outcome is shorter
than it should be (`eq_or_length_filled_lt`). Together these say when a template is filled in as it
reads (`fill_simultaneous`).
-/

namespace PackageSeal

/-- A placeholder of a template. -/
inductive Placeholder where
  | name
  | bits
  | libraries
deriving DecidableEq

namespace Placeholder

/-- How the placeholder is written. -/
def chars : Placeholder → List Char
  | name => ['{', 'a', 'b', 'i', '}']
  | bits => ['{', 'b', 'i', 't', 's', '}']
  | libraries => ['{', 'l', 'i', 'b', 'd', 'i', 'r', '}']

/-- What the placeholder stands for under an architecture. -/
def value (arch : Architecture) : Placeholder → List Char
  | name => arch.name.toList
  | bits => arch.wordSize.digits.toList
  | libraries => arch.wordSize.libraries.toList

/-- How the placeholder is written after the open brace. -/
def tail (p : Placeholder) : List Char :=
  p.chars.tail

theorem chars_eq_cons (p : Placeholder) : p.chars = '{' :: p.tail := by
  cases p <;> rfl

theorem chars_ne_nil (p : Placeholder) : p.chars ≠ [] := by
  rw [chars_eq_cons]
  exact List.cons_ne_nil _ _

theorem brace_notMem_tail (p : Placeholder) : '{' ∉ p.tail := by
  cases p <;> decide

/-- A placeholder ends at its first closing brace. -/
theorem exists_tail (p : Placeholder) : ∃ inside, p.tail = inside ++ ['}'] ∧ '}' ∉ inside := by
  cases p with
  | name => exact ⟨['a', 'b', 'i'], rfl, by decide⟩
  | bits => exact ⟨['b', 'i', 't', 's'], rfl, by decide⟩
  | libraries => exact ⟨['l', 'i', 'b', 'd', 'i', 'r'], rfl, by decide⟩

/-- No placeholder begins like another. -/
theorem eq_of_append_eq {p q : Placeholder} {xs ys : List Char}
    (h : p.chars ++ xs = q.chars ++ ys) : p = q := by
  cases p <;> cases q <;> first | rfl | exact absurd h (by simp [chars])

theorem mem_known_iff {text : String} :
    text ∈ LayoutFault.knownPlaceholders ↔ ∃ p : Placeholder, text.toList = p.chars := by
  simp only [LayoutFault.knownPlaceholders, List.mem_cons, List.not_mem_nil, or_false]
  constructor
  · intro h
    rcases h with h | h | h
    · exact ⟨.name, by rw [h]; rfl⟩
    · exact ⟨.bits, by rw [h]; rfl⟩
    · exact ⟨.libraries, by rw [h]; rfl⟩
  · intro ⟨p, hp⟩
    cases p with
    | name => exact .inl (String.toList_inj.mp hp)
    | bits => exact .inr (.inl (String.toList_inj.mp hp))
    | libraries => exact .inr (.inr (String.toList_inj.mp hp))

end Placeholder

/-- A piece of a template: a character that stands for itself, or a placeholder. -/
inductive Token where
  | literal (c : Char)
  | hole (p : Placeholder)
deriving DecidableEq

namespace Token

/-- How the token is written. -/
def chars : Token → List Char
  | literal c => [c]
  | hole p => p.chars

/-- The text that tokens spell. -/
def spelled (tokens : List Token) : List Char :=
  tokens.flatMap chars

@[simp] theorem spelled_cons (token : Token) (rest : List Token) :
    spelled (token :: rest) = token.chars ++ spelled rest := rfl

theorem spelled_append (front rest : List Token) :
    spelled (front ++ rest) = spelled front ++ spelled rest :=
  List.flatMap_append

theorem spelled_map_literal (chars : List Char) : spelled (chars.map literal) = chars := by
  induction chars with
  | nil => rfl
  | cons c cs ih => rw [List.map_cons, spelled_cons, ih]; rfl

/-! ## Readings -/

/-- The tokens are how a text reads: they spell it, and no open brace stands for itself. -/
structure Reads (tokens : List Token) (text : List Char) : Prop where
  spelled_eq : spelled tokens = text
  closed : literal '{' ∉ tokens

variable {tokens : List Token} {text : List Char} {c : Char}

theorem Reads.nil : Reads [] [] :=
  ⟨rfl, List.not_mem_nil⟩

theorem Reads.literal_cons (h : Reads tokens text) (hc : c ≠ '{') :
    Reads (literal c :: tokens) (c :: text) where
  spelled_eq := by rw [spelled_cons, h.spelled_eq]; rfl
  closed := by
    rw [List.mem_cons, not_or]
    exact ⟨fun heq => hc (literal.inj heq).symm, h.closed⟩

theorem Reads.hole_cons (h : Reads tokens text) (p : Placeholder) :
    Reads (hole p :: tokens) (p.chars ++ text) where
  spelled_eq := by rw [spelled_cons, h.spelled_eq]; rfl
  closed := by
    rw [List.mem_cons, not_or]
    exact ⟨(by intro heq; cases heq), h.closed⟩

/-- A reading of a text that goes on begins with its first character or with a placeholder. -/
theorem Reads.cases (h : Reads tokens (c :: text)) :
    (∃ rest, tokens = literal c :: rest ∧ c ≠ '{' ∧ Reads rest text) ∨
      ∃ p rest after,
        tokens = hole p :: rest ∧ c :: text = p.chars ++ after ∧ Reads rest after := by
  obtain ⟨hspelled, hclosed⟩ := h
  cases tokens with
  | nil => cases hspelled
  | cons token rest =>
      rw [List.mem_cons, not_or] at hclosed
      rw [spelled_cons] at hspelled
      cases token with
      | literal d =>
          obtain ⟨rfl, hrest⟩ := List.cons.inj hspelled
          exact .inl ⟨rest, rfl, fun heq => hclosed.1 (by rw [heq]), hrest, hclosed.2⟩
      | hole p => exact .inr ⟨p, rest, spelled rest, rfl, hspelled.symm, rfl, hclosed.2⟩

/-- **A text has one reading at most.** -/
theorem Reads.unique {tokens' : List Token} (h : Reads tokens text) (h' : Reads tokens' text) :
    tokens = tokens' := by
  induction tokens generalizing tokens' text with
  | nil =>
      cases tokens' with
      | nil => rfl
      | cons token rest =>
          have hspelled := h'.spelled_eq.trans h.spelled_eq.symm
          cases token with
          | literal d => cases hspelled
          | hole p => exact absurd (List.append_eq_nil_iff.mp hspelled).1 p.chars_ne_nil
  | cons token rest ih =>
      have hrest : literal '{' ∉ rest := fun hmem => h.closed (List.mem_cons_of_mem _ hmem)
      cases token with
      | literal d =>
          have hd : d ≠ '{' := fun heq => h.closed (by rw [heq]; exact List.mem_cons_self)
          obtain rfl : d :: spelled rest = text := h.spelled_eq
          obtain ⟨rest', rfl, -, hread⟩ | ⟨p, _, _, _, heq, _⟩ := h'.cases
          · rw [ih ⟨rfl, hrest⟩ hread]
          · rw [p.chars_eq_cons] at heq
            exact absurd (List.cons.inj heq).1 hd
      | hole p =>
          obtain rfl : p.chars ++ spelled rest = text := h.spelled_eq
          rw [p.chars_eq_cons, List.cons_append] at h'
          obtain ⟨-, -, hne, -⟩ | ⟨q, rest', after, rfl, heq, hread⟩ := h'.cases
          · exact absurd rfl hne
          · rw [← List.cons_append, ← p.chars_eq_cons] at heq
            obtain rfl := Placeholder.eq_of_append_eq heq
            obtain rfl := List.append_cancel_left heq
            rw [ih ⟨rfl, hrest⟩ hread]

end Token

/-! ## The scan -/

namespace Layout

open Token (Reads literal hole spelled)

/-- Between braces the scan goes on to the first closing one and looks what it has come past. -/
theorem checkBraces_open {template : String} {opened text : List Char} :
    checkBraces template (some opened) text = .ok () ↔
      ∃ inside rest, text = inside ++ '}' :: rest ∧ '}' ∉ inside ∧
        (∃ p : Placeholder, opened.reverse ++ inside ++ ['}'] = p.chars) ∧
        checkBraces template none rest = .ok () := by
  induction text generalizing opened with
  | nil =>
      rw [checkBraces]
      constructor
      · intro h; cases h
      · intro ⟨inside, rest, heq, _⟩
        exact absurd heq.symm (List.append_ne_nil_of_right_ne_nil _ (List.cons_ne_nil _ _))
  | cons c text ih =>
      rw [checkBraces]
      by_cases hc : c = '}'
      · subst hc
        rw [if_pos rfl]
        have hknown : LayoutFault.knownPlaceholders.contains
              (String.ofList ('}' :: opened).reverse) = true ↔
            ∃ p : Placeholder, opened.reverse ++ [] ++ ['}'] = p.chars := by
          rw [List.contains_iff_mem, Placeholder.mem_known_iff, String.toList_ofList,
            List.reverse_cons, List.append_nil]
        constructor
        · intro h
          dsimp only at h
          split_ifs at h with hin
          exact ⟨[], text, rfl, List.not_mem_nil, hknown.mp hin, h⟩
        · intro ⟨inside, rest, heq, hinside, hp, hrest⟩
          cases inside with
          | nil =>
              obtain ⟨-, rfl⟩ := List.cons.inj heq
              rw [if_pos (hknown.mpr hp), hrest]
          | cons d ds =>
              rw [(List.cons.inj heq).1] at hinside
              exact absurd List.mem_cons_self hinside
      · rw [if_neg hc, ih]
        constructor
        · intro ⟨inside, rest, heq, hinside, hp, hrest⟩
          refine ⟨c :: inside, rest, by rw [heq, List.cons_append], ?_, ?_, hrest⟩
          · rw [List.mem_cons, not_or]
            exact ⟨Ne.symm hc, hinside⟩
          · simpa using hp
        · intro ⟨inside, rest, heq, hinside, hp, hrest⟩
          cases inside with
          | nil => exact absurd (List.cons.inj heq).1 hc
          | cons d ds =>
              obtain ⟨rfl, rfl⟩ := List.cons.inj heq
              rw [List.mem_cons, not_or] at hinside
              exact ⟨ds, rest, rfl, hinside.2, by simpa using hp, hrest⟩

/-- The scan accepts what has a reading. -/
theorem checkBraces_closed {template : String} {text : List Char} :
    checkBraces template none text = .ok () ↔ ∃ tokens, Reads tokens text := by
  induction hlength : text.length using Nat.strongRecOn generalizing text with
  | ind n ih =>
  cases text with
  | nil =>
      rw [checkBraces]
      exact iff_of_true rfl ⟨[], .nil⟩
  | cons c text =>
      subst hlength
      rw [checkBraces]
      by_cases hc : c = '{'
      · subst hc
        rw [if_pos rfl, checkBraces_open]
        constructor
        · intro ⟨inside, rest, heq, _, ⟨p, hp⟩, hrest⟩
          have hshorter : rest.length < ('{' :: text).length := by
            rw [heq, List.length_cons, List.length_append, List.length_cons]
            omega
          obtain ⟨tokens, hread⟩ := (ih _ hshorter rfl).mp hrest
          have htext : '{' :: text = p.chars ++ rest := by rw [← hp, heq]; simp
          exact ⟨hole p :: tokens, htext ▸ hread.hole_cons p⟩
        · intro ⟨tokens, hread⟩
          obtain ⟨-, -, hne, -⟩ | ⟨p, rest, after, -, heq, hread⟩ := hread.cases
          · exact absurd rfl hne
          · obtain ⟨inside, htail, hinside⟩ := p.exists_tail
            have hp : p.chars = '{' :: (inside ++ ['}']) := by rw [p.chars_eq_cons, htail]
            have htext : text = inside ++ '}' :: after := by
              rw [hp] at heq
              simpa using heq
            have hshorter : after.length < ('{' :: text).length := by
              rw [htext, List.length_cons, List.length_append, List.length_cons]
              omega
            exact ⟨inside, after, htext, hinside, ⟨p, by rw [hp]; rfl⟩,
              (ih _ hshorter rfl).mpr ⟨rest, hread⟩⟩
      · rw [if_neg hc, ih _ (Nat.lt_succ_self _) rfl]
        constructor
        · intro ⟨tokens, hread⟩
          exact ⟨literal c :: tokens, hread.literal_cons hc⟩
        · intro ⟨tokens, hread⟩
          obtain ⟨rest, -, -, hread⟩ | ⟨p, _, _, _, heq, _⟩ := hread.cases
          · exact ⟨rest, hread⟩
          · rw [p.chars_eq_cons] at heq
            exact absurd (List.cons.inj heq).1 hc

/-- **A template text is accepted if and only if it reads as literals and placeholders.** -/
theorem checkTemplateText_eq_ok_iff {text : String} :
    checkTemplateText text = .ok () ↔ ∃ tokens, Reads tokens text.toList :=
  checkBraces_closed

end Layout

namespace Token

variable {p q : Placeholder} {tokens : List Token} {value : List Char}

/-! ## Filling in one placeholder -/

/-- The token with one placeholder filled in by characters that stand for themselves. -/
def put (p : Placeholder) (value : List Char) : Token → List Token
  | literal c => [literal c]
  | hole q => if q = p then value.map literal else [hole q]

/-- Tokens with one placeholder filled in. -/
def fillIn (p : Placeholder) (value : List Char) (tokens : List Token) : List Token :=
  tokens.flatMap (put p value)

theorem fillIn_literal_cons (c : Char) :
    fillIn p value (literal c :: tokens) = literal c :: fillIn p value tokens := rfl

theorem fillIn_hole_self :
    fillIn p value (hole p :: tokens) = value.map literal ++ fillIn p value tokens := by
  rw [fillIn, List.flatMap_cons, put, if_pos rfl, fillIn]

theorem fillIn_hole_of_ne (h : q ≠ p) :
    fillIn p value (hole q :: tokens) = hole q :: fillIn p value tokens := by
  rw [fillIn, List.flatMap_cons, put, if_neg h, fillIn, List.singleton_append]

/-- No literal begins something that spells the placeholder. -/
def Clear (p : Placeholder) (tokens : List Token) : Prop :=
  ∀ c rest, literal c :: rest <:+ tokens → ¬ p.chars <+: c :: spelled rest

theorem clear_nil : Clear p [] := by
  intro c rest h
  cases List.suffix_nil.mp h

theorem clear_literal_cons {c : Char} :
    Clear p (literal c :: tokens) ↔ ¬ p.chars <+: c :: spelled tokens ∧ Clear p tokens := by
  constructor
  · intro h
    exact ⟨h c tokens List.suffix_rfl,
      fun d rest hrest => h d rest (hrest.trans (List.suffix_cons _ _))⟩
  · intro ⟨hfirst, hclear⟩ d rest hrest
    cases List.suffix_cons_iff.mp hrest with
    | inl heq =>
        obtain ⟨hd, rfl⟩ := List.cons.inj heq
        obtain rfl := literal.inj hd
        exact hfirst
    | inr hsuffix => exact hclear d rest hsuffix

theorem clear_hole_cons : Clear p (hole q :: tokens) ↔ Clear p tokens := by
  constructor
  · intro h c rest hrest
    exact h c rest (hrest.trans (List.suffix_cons _ _))
  · intro h c rest hrest
    cases List.suffix_cons_iff.mp hrest with
    | inl heq => cases (List.cons.inj heq).1
    | inr hsuffix => exact h c rest hsuffix

/-- What spells a placeholder begins with an open brace. -/
theorem not_prefix_of_ne {c : Char} (h : c ≠ '{') (text : List Char) : ¬ p.chars <+: c :: text := by
  rw [p.chars_eq_cons, List.cons_prefix_cons]
  exact fun hbegins => h hbegins.1.symm

/-- Without an open brace that stands for itself no literals spell a placeholder. -/
theorem clear_of_notMem (h : literal '{' ∉ tokens) : Clear p tokens := by
  intro c rest hrest
  refine not_prefix_of_ne (fun hc => h ?_) _
  rw [← hc]
  exact hrest.subset List.mem_cons_self

theorem Clear.literals_append (h : Clear p tokens) (hvalue : '{' ∉ value) :
    Clear p (value.map literal ++ tokens) := by
  induction value with
  | nil => exact h
  | cons c cs ih =>
      rw [List.mem_cons, not_or] at hvalue
      rw [List.map_cons, List.cons_append, clear_literal_cons]
      exact ⟨not_prefix_of_ne (Ne.symm hvalue.1) _, ih hvalue.2⟩

/-- Characters that stand neither in a placeholder nor in what is filled in were there before. -/
theorem prefix_spelled_of_fillIn {chars : List Char} (hchars : '{' ∉ chars) (hne : value ≠ [])
    (hvalue : ∀ c ∈ value, c ∉ chars) (h : chars <+: spelled (fillIn q value tokens)) :
    chars <+: spelled tokens := by
  induction tokens generalizing chars with
  | nil => exact h
  | cons token rest ih =>
      cases chars with
      | nil => exact List.nil_prefix
      | cons d ds =>
          cases token with
          | literal c =>
              rw [fillIn_literal_cons, spelled_cons] at h
              rw [spelled_cons]
              obtain ⟨hd, hrest⟩ := List.cons_prefix_cons.mp h
              rw [List.mem_cons, not_or] at hchars
              have hfresh : ∀ c ∈ value, c ∉ ds :=
                fun c hc hmem => hvalue c hc (List.mem_cons_of_mem _ hmem)
              exact List.cons_prefix_cons.mpr ⟨hd, ih hchars.2 hfresh hrest⟩
          | hole r =>
              exfalso
              by_cases hr : r = q
              · subst hr
                cases value with
                | nil => exact hne rfl
                | cons v vs =>
                    rw [fillIn_hole_self, List.map_cons, List.cons_append, spelled_cons] at h
                    obtain ⟨hd, -⟩ := List.cons_prefix_cons.mp h
                    exact hvalue v List.mem_cons_self (hd ▸ List.mem_cons_self)
              · rw [fillIn_hole_of_ne hr, spelled_cons, chars, r.chars_eq_cons,
                  List.cons_append] at h
                obtain ⟨hd, -⟩ := List.cons_prefix_cons.mp h
                exact hchars (hd ▸ List.mem_cons_self)

/-- Filling in foreign characters makes no placeholder. -/
theorem Clear.fillIn (h : Clear p tokens) (hne : value ≠ []) (hvalue : ∀ c ∈ value, c ∉ p.chars) :
    Clear p (fillIn q value tokens) := by
  have hbrace : '{' ∉ value := by
    intro hmem
    refine hvalue _ hmem ?_
    rw [p.chars_eq_cons]
    exact List.mem_cons_self
  induction tokens with
  | nil => exact clear_nil
  | cons token rest ih =>
      cases token with
      | literal c =>
          rw [clear_literal_cons] at h
          rw [fillIn_literal_cons, clear_literal_cons]
          refine ⟨fun hbegins => h.1 ?_, ih h.2⟩
          rw [p.chars_eq_cons, List.cons_prefix_cons] at hbegins ⊢
          have hfresh : ∀ c ∈ value, c ∉ p.tail := by
            intro c hc hmem
            refine hvalue c hc ?_
            rw [p.chars_eq_cons]
            exact List.mem_cons_of_mem _ hmem
          exact ⟨hbegins.1, prefix_spelled_of_fillIn p.brace_notMem_tail hne hfresh hbegins.2⟩
      | hole r =>
          rw [clear_hole_cons] at h
          by_cases hr : r = q
          · subst hr
            rw [fillIn_hole_self]
            exact (ih h).literals_append hbrace
          · rw [fillIn_hole_of_ne hr, clear_hole_cons]
            exact ih h

/-! ## Replacing -/

theorem replace_of_brace_notMem {front : List Char} (h : '{' ∉ front) (rest : List Char) :
    Text.replace p.chars value (front ++ rest) = front ++ Text.replace p.chars value rest := by
  induction front with
  | nil => rfl
  | cons c cs ih =>
      rw [List.mem_cons, not_or] at h
      rw [List.cons_append, Text.replace_cons (not_prefix_of_ne (Ne.symm h.1) _), ih h.2,
        List.cons_append]

/-- A replacement passes over other placeholders. -/
theorem replace_other (h : q ≠ p) (rest : List Char) :
    Text.replace p.chars value (q.chars ++ rest) = q.chars ++ Text.replace p.chars value rest := by
  have hfirst : ¬ p.chars <+: '{' :: (q.tail ++ rest) := by
    intro ⟨after, hafter⟩
    rw [← List.cons_append, ← q.chars_eq_cons] at hafter
    exact h (Placeholder.eq_of_append_eq hafter).symm
  rw [q.chars_eq_cons, List.cons_append, Text.replace_cons hfirst,
    replace_of_brace_notMem q.brace_notMem_tail, List.cons_append]

/-- **A replacement in the text fills in the tokens** if no literals spell the placeholder. -/
theorem replace_spelled (h : Clear p tokens) :
    Text.replace p.chars value (spelled tokens) = spelled (fillIn p value tokens) := by
  induction tokens with
  | nil => rfl
  | cons token rest ih =>
      cases token with
      | literal c =>
          rw [clear_literal_cons] at h
          rw [fillIn_literal_cons, spelled_cons, spelled_cons, ← ih h.2]
          exact Text.replace_cons h.1 value
      | hole q =>
          rw [clear_hole_cons] at h
          rw [spelled_cons, chars]
          by_cases hq : q = p
          · subst hq
            rw [Text.replace_append q.chars_ne_nil, fillIn_hole_self, spelled_append,
              spelled_map_literal, ih h]
          · rw [replace_other hq, fillIn_hole_of_ne hq, spelled_cons, chars, ih h]

/-! ## Filling in all placeholders -/

variable {arch : Architecture}

/-- The text of a token under an architecture. -/
def filledChars (arch : Architecture) : Token → List Char
  | literal c => [c]
  | hole p => p.value arch

/-- The text of tokens under an architecture: literals as they are, and for every placeholder what
it stands for. -/
def filled (arch : Architecture) (tokens : List Token) : List Char :=
  tokens.flatMap (filledChars arch)

theorem filled_cons (token : Token) (rest : List Token) :
    filled arch (token :: rest) = token.filledChars arch ++ filled arch rest := rfl

theorem filled_map_literal (chars : List Char) : filled arch (chars.map literal) = chars := by
  induction chars with
  | nil => rfl
  | cons c cs ih => rw [List.map_cons, filled_cons, ih]; rfl

theorem filled_append (front rest : List Token) :
    filled arch (front ++ rest) = filled arch front ++ filled arch rest :=
  List.flatMap_append

/-- It does not matter whether a placeholder is filled in before the others. -/
theorem filled_fillIn (p : Placeholder) (tokens : List Token) :
    filled arch (fillIn p (p.value arch) tokens) = filled arch tokens := by
  induction tokens with
  | nil => rfl
  | cons token rest ih =>
      cases token with
      | literal c => rw [fillIn_literal_cons, filled_cons, filled_cons, ih]
      | hole q =>
          by_cases hq : q = p
          · subst hq
            rw [fillIn_hole_self, filled_append, filled_map_literal, ih, filled_cons, filledChars]
          · rw [fillIn_hole_of_ne hq, filled_cons, filled_cons, ih]

theorem hole_notMem_fillIn (p : Placeholder) (value : List Char) (tokens : List Token) :
    hole p ∉ fillIn p value tokens := by
  intro h
  obtain ⟨token, -, hput⟩ := List.mem_flatMap.mp h
  cases token with
  | literal c => simp [put] at hput
  | hole q =>
      simp only [put] at hput
      split_ifs at hput with hq
      · simp at hput
      · rw [List.mem_singleton, hole.injEq] at hput
        exact hq hput.symm

theorem hole_notMem_fillIn_of_notMem (h : hole q ∉ tokens) : hole q ∉ fillIn p value tokens := by
  intro hmem
  obtain ⟨token, htoken, hput⟩ := List.mem_flatMap.mp hmem
  cases token with
  | literal c => simp [put] at hput
  | hole r =>
      simp only [put] at hput
      split_ifs at hput with hr
      · simp at hput
      · rw [List.mem_singleton] at hput
        exact h (hput ▸ htoken)

/-- Tokens without placeholders stand for what they spell. -/
theorem filled_eq_spelled (h : ∀ p, hole p ∉ tokens) : filled arch tokens = spelled tokens := by
  induction tokens with
  | nil => rfl
  | cons token rest ih =>
      have hrest : ∀ p, hole p ∉ rest := fun p hmem => h p (List.mem_cons_of_mem _ hmem)
      cases token with
      | literal c => rw [filled_cons, spelled_cons, ih hrest]; rfl
      | hole p => exact absurd List.mem_cons_self (h p)

end Token

namespace Architecture

open Token

variable {arch : Architecture} {tokens : List Token} {text : String}

/-- What is left to fill in once the name stands in the text. -/
def fillSize (arch : Architecture) (text : List Char) : List Char :=
  Text.replace Placeholder.libraries.chars (Placeholder.libraries.value arch)
    (Text.replace Placeholder.bits.chars (Placeholder.bits.value arch) text)

/-- Digits stand in no placeholder. -/
theorem bits_value_notMem (arch : Architecture) (p : Placeholder) :
    ∀ c ∈ Placeholder.bits.value arch, c ∉ p.chars := by
  have hdigits : Placeholder.bits.value arch = ['3', '2'] ∨
      Placeholder.bits.value arch = ['6', '4'] := by
    rw [Placeholder.value]
    cases arch.wordSize with
    | thirtyTwo => exact .inl rfl
    | sixtyFour => exact .inr rfl
  intro c hc
  obtain heq | heq := hdigits <;> rw [heq] at hc <;> cases p <;> grind [Placeholder.chars]

theorem bits_value_ne_nil (arch : Architecture) : Placeholder.bits.value arch ≠ [] := by
  show arch.wordSize.digits.toList ≠ []
  cases arch.wordSize <;> decide

/-- Where no literals spell a placeholder, the last two replacements fill in the tokens. -/
theorem fillSize_spelled (hname : hole .name ∉ tokens) (hbits : Clear .bits tokens)
    (hlibraries : Clear .libraries tokens) :
    arch.fillSize (spelled tokens) = filled arch tokens := by
  have hclear : Clear .libraries (fillIn .bits (Placeholder.bits.value arch) tokens) :=
    hlibraries.fillIn (bits_value_ne_nil arch) (bits_value_notMem arch .libraries)
  rw [fillSize, replace_spelled hbits, replace_spelled hclear]
  rw [← filled_fillIn .bits tokens, ← filled_fillIn .libraries (fillIn .bits _ tokens)]
  refine (filled_eq_spelled fun p => ?_).symm
  cases p with
  | name => exact hole_notMem_fillIn_of_notMem (hole_notMem_fillIn_of_notMem hname)
  | bits => exact hole_notMem_fillIn_of_notMem (hole_notMem_fillIn _ _ _)
  | libraries => exact hole_notMem_fillIn _ _ _

/-- Every text is spelled by tokens in which no literals spell one of the two placeholders. -/
theorem exists_clear (text : List Char) : ∃ tokens, spelled tokens = text ∧ hole .name ∉ tokens ∧
    Clear .bits tokens ∧ Clear .libraries tokens := by
  induction hlength : text.length using Nat.strongRecOn generalizing text with
  | ind n ih =>
  have hhole : ∀ p : Placeholder, p ≠ .name → p.chars <+: text → ∃ tokens, spelled tokens = text ∧
      hole .name ∉ tokens ∧ Clear .bits tokens ∧ Clear .libraries tokens := by
    intro p hp ⟨after, hafter⟩
    have hshorter : after.length < n := by
      rw [← hlength, ← hafter, p.chars_eq_cons, List.length_append, List.length_cons]
      omega
    obtain ⟨tokens, hspelled, hname, hbits, hlibraries⟩ := ih _ hshorter after rfl
    refine ⟨hole p :: tokens, by rw [spelled_cons, hspelled]; exact hafter, ?_,
      clear_hole_cons.mpr hbits, clear_hole_cons.mpr hlibraries⟩
    rw [List.mem_cons, not_or]
    exact ⟨fun heq => hp (hole.inj heq).symm, hname⟩
  by_cases hbits : Placeholder.bits.chars <+: text
  · exact hhole .bits (by decide) hbits
  by_cases hlibraries : Placeholder.libraries.chars <+: text
  · exact hhole .libraries (by decide) hlibraries
  cases text with
  | nil => exact ⟨[], rfl, List.not_mem_nil, clear_nil, clear_nil⟩
  | cons c text =>
      subst hlength
      obtain ⟨tokens, rfl, hname, hclear, hclear'⟩ := ih _ (Nat.lt_succ_self _) text rfl
      refine ⟨literal c :: tokens, rfl, ?_, clear_literal_cons.mpr ⟨hbits, hclear⟩,
        clear_literal_cons.mpr ⟨hlibraries, hclear'⟩⟩
      rw [List.mem_cons, not_or]
      exact ⟨(by intro heq; cases heq), hname⟩

/-- What the sizes stand for is shorter than their placeholders. -/
theorem length_value_lt (arch : Architecture) {p : Placeholder} (hp : p ≠ .name) :
    (p.value arch).length < p.chars.length := by
  cases p with
  | name => exact absurd rfl hp
  | bits =>
      show arch.wordSize.digits.toList.length < _
      cases arch.wordSize <;> decide
  | libraries =>
      show arch.wordSize.libraries.toList.length < _
      cases arch.wordSize <;> decide

/-- Tokens that spell characters without an open brace begin with these as literals. -/
theorem exists_literals {tokens : List Token} {front rest : List Char} (hfront : '{' ∉ front)
    (h : spelled tokens = front ++ rest) :
    ∃ others, tokens = front.map literal ++ others ∧ spelled others = rest := by
  induction front generalizing tokens with
  | nil => exact ⟨tokens, rfl, h⟩
  | cons c cs ih =>
      rw [List.mem_cons, not_or] at hfront
      cases tokens with
      | nil => cases h
      | cons token tokens =>
          rw [spelled_cons] at h
          cases token with
          | literal d =>
              obtain ⟨rfl, hrest⟩ := List.cons.inj h
              obtain ⟨others, rfl, hothers⟩ := ih hfront.2 hrest
              exact ⟨others, rfl, hothers⟩
          | hole p =>
              rw [Token.chars, p.chars_eq_cons] at h
              exact absurd (List.cons.inj h).1 hfront.1

/-- The same token in front of both makes no difference. -/
theorem eq_or_length_filled_lt_cons {tokens clear : List Token} (token : Token)
    (h : tokens = clear ∨ (filled arch clear).length < (filled arch tokens).length) :
    token :: tokens = token :: clear ∨
      (filled arch (token :: clear)).length < (filled arch (token :: tokens)).length := by
  cases h with
  | inl heq => exact .inl (by rw [heq])
  | inr hlt =>
      rw [filled_cons, filled_cons, List.length_append, List.length_append]
      exact .inr (Nat.add_lt_add_left hlt _)

/-- Literals that spell a placeholder stand for more than the placeholder does. -/
theorem length_filled_lt_of_literal {p : Placeholder} (hp : p ≠ .name) {d : Char}
    {tokens clear : List Token} (hname : hole .name ∉ tokens)
    (h : spelled (literal d :: tokens) = spelled (hole p :: clear))
    (hrest : ∀ others, hole .name ∉ others → spelled others = spelled clear →
      (filled arch clear).length ≤ (filled arch others).length) :
    (filled arch (hole p :: clear)).length < (filled arch (literal d :: tokens)).length := by
  rw [spelled_cons, spelled_cons, Token.chars, Token.chars, p.chars_eq_cons] at h
  obtain ⟨-, htail⟩ := List.cons.inj h
  obtain ⟨others, rfl, hothers⟩ := exists_literals p.brace_notMem_tail htail
  have hle := hrest others (fun hmem => hname (List.mem_append_right _ hmem)) hothers
  have hvalue := length_value_lt arch hp
  have hchars : p.chars.length = p.tail.length + 1 := by rw [p.chars_eq_cons]; rfl
  rw [filled_cons, filled_cons, filled_append, filled_map_literal, filledChars, filledChars]
  simp only [List.length_append, List.length_singleton]
  omega

/-- **Of the tokens that spell one text, those without placeholders among their literals stand for
the shortest text**, and no others for one as short. -/
theorem eq_or_length_filled_lt (arch : Architecture) {tokens clear : List Token}
    (hname : hole .name ∉ tokens) (hclear : hole .name ∉ clear)
    (hbits : Clear .bits clear) (hlibraries : Clear .libraries clear)
    (h : spelled tokens = spelled clear) :
    tokens = clear ∨ (filled arch clear).length < (filled arch tokens).length := by
  induction clear generalizing tokens with
  | nil =>
      left
      cases tokens with
      | nil => rfl
      | cons token rest =>
          rw [spelled_cons] at h
          cases token with
          | literal c => cases h
          | hole p => exact absurd (List.append_eq_nil_iff.mp h).1 p.chars_ne_nil
  | cons token clear ih =>
      rw [List.mem_cons, not_or] at hclear
      cases tokens with
      | nil =>
          rw [spelled_cons] at h
          cases token with
          | literal c => cases h
          | hole p => exact absurd (List.append_eq_nil_iff.mp h.symm).1 p.chars_ne_nil
      | cons first tokens =>
          rw [List.mem_cons, not_or] at hname
          cases token with
          | literal c =>
              rw [clear_literal_cons] at hbits hlibraries
              cases first with
              | literal d =>
                  obtain ⟨rfl, hrest⟩ := List.cons.inj h
                  exact eq_or_length_filled_lt_cons _
                    (ih hname.2 hclear.2 hbits.2 hlibraries.2 hrest)
              | hole p =>
                  have hbegins : p.chars <+: c :: spelled clear := ⟨spelled tokens, h⟩
                  cases p with
                  | name => exact absurd rfl hname.1
                  | bits => exact absurd hbegins hbits.1
                  | libraries => exact absurd hbegins hlibraries.1
          | hole p =>
              rw [clear_hole_cons] at hbits hlibraries
              cases first with
              | hole q =>
                  obtain rfl := Placeholder.eq_of_append_eq h
                  exact eq_or_length_filled_lt_cons _
                    (ih hname.2 hclear.2 hbits hlibraries (List.append_cancel_left h))
              | literal d =>
                  have hp : p ≠ .name := fun heq => hclear.1 (by rw [heq])
                  refine .inr (length_filled_lt_of_literal hp hname.2 h
                    fun others hothers hrest => ?_)
                  cases ih hothers hclear.2 hbits hlibraries hrest with
                  | inl heq => exact Nat.le_of_eq (by rw [heq])
                  | inr hlt => exact Nat.le_of_lt hlt

/-- Once the name stands in the text, it spells no further placeholder, neither alone nor with what
stands beside it. -/
def Settles (arch : Architecture) (tokens : List Token) : Prop :=
  Clear .bits (fillIn .name arch.name.toList tokens) ∧
    Clear .libraries (fillIn .name arch.name.toList tokens)

theorem fill_eq_fillSize (h : Reads tokens text.toList) : arch.fill text =
    String.ofList (arch.fillSize (spelled (fillIn .name arch.name.toList tokens))) := by
  rw [← replace_spelled (clear_of_notMem h.closed), h.spelled_eq]
  rfl

/-- **When a text is filled in as it reads**: exactly if the name spells no further placeholder. -/
theorem fill_eq_filled_iff (h : Reads tokens text.toList) :
    arch.fill text = String.ofList (filled arch tokens) ↔ arch.Settles tokens := by
  have hname : hole .name ∉ fillIn .name arch.name.toList tokens := hole_notMem_fillIn _ _ _
  have hfilled : filled arch tokens = filled arch (fillIn .name arch.name.toList tokens) :=
    (filled_fillIn .name tokens).symm
  rw [fill_eq_fillSize h, hfilled, String.ofList_inj]
  constructor
  · intro heq
    obtain ⟨clear, hspelled, hclear, hbits, hlibraries⟩ :=
      exists_clear (spelled (fillIn .name arch.name.toList tokens))
    rw [← hspelled, fillSize_spelled hclear hbits hlibraries] at heq
    obtain hsame | hlt :=
      eq_or_length_filled_lt arch hname hclear hbits hlibraries hspelled.symm
    · rw [Settles, hsame]
      exact ⟨hbits, hlibraries⟩
    · rw [heq] at hlt
      exact absurd hlt (Nat.lt_irrefl _)
  · intro ⟨hbits, hlibraries⟩
    exact fillSize_spelled hname hbits hlibraries

/-- A name without an open brace spells no placeholder. -/
theorem settles_of_notMem (h : Reads tokens text.toList) (hname : '{' ∉ arch.name.toList) :
    arch.Settles tokens := by
  have hliteral : literal '{' ∉ fillIn .name arch.name.toList tokens := by
    intro hmem
    obtain ⟨token, htoken, hput⟩ := List.mem_flatMap.mp hmem
    cases token with
    | literal c =>
        rw [put, List.mem_singleton] at hput
        exact h.closed (hput ▸ htoken)
    | hole p =>
        simp only [put] at hput
        split_ifs at hput
        · rw [List.mem_map_of_injective fun _ _ => literal.inj] at hput
          exact hname hput
        · simp at hput
  exact ⟨clear_of_notMem hliteral, clear_of_notMem hliteral⟩

end Architecture

namespace Layout

open Token (Reads filled)

variable {layout : Layout} {arch : Architecture}

/-- **Templates are filled in as they read, if the architecture's name lets them.** Both texts of a
template of a valid layout have one reading, and filling in an architecture gives the literals of
this reading with what its placeholders stand for, exactly if the name of the architecture spells no
further placeholder where it is put in; one without an open brace never does. -/
theorem fill_simultaneous (hcheck : layout.check = .ok ()) {template : Template}
    (htemplate : template ∈ layout.templates) (arch : Architecture) :
    ∀ text ∈ [template.name, template.source], ∃ tokens,
      (∀ others, Reads others text.toList ↔ others = tokens) ∧
      (arch.fill text = String.ofList (filled arch tokens) ↔ arch.Settles tokens) ∧
      ('{' ∉ arch.name.toList → arch.Settles tokens) := by
  intro text htext
  have haccepted : checkTemplateText text = .ok () := by
    obtain ⟨-, -, -, htemplates, -, -⟩ := check_eq_ok_iff.mp hcheck
    obtain ⟨hname, hsource⟩ := htemplates template htemplate
    simp only [List.mem_cons, List.not_mem_nil, or_false] at htext
    cases htext with
    | inl heq => rw [heq]; exact hname
    | inr heq => rw [heq]; exact hsource
  obtain ⟨tokens, hreads⟩ := checkTemplateText_eq_ok_iff.mp haccepted
  refine ⟨tokens, fun others => ?_, Architecture.fill_eq_filled_iff hreads,
    Architecture.settles_of_notMem hreads⟩
  constructor
  · intro hothers
    exact hothers.unique hreads
  · intro heq
    rw [heq]
    exact hreads

/-- A layout with one template, which asks for the name of its architecture. -/
def templated (name : String) : Layout where
  treeArtifact := "t.sig"
  common := []
  templates := [⟨"lib/" ++ Text.braced "abi" ++ "/x", "x"⟩]
  architectures := [⟨name, "s.sig", .thirtyTwo⟩]

/-- An ordinary name is put in as it is. -/
theorem fill_simultaneous_ordinary :
    ∃ tokens, Reads tokens ("lib/" ++ Text.braced "abi" ++ "/x").toList ∧
      (⟨"x86", "s.sig", .thirtyTwo⟩ : Architecture).fill ("lib/" ++ Text.braced "abi" ++ "/x") =
        String.ofList (filled ⟨"x86", "s.sig", .thirtyTwo⟩ tokens) := by
  obtain ⟨tokens, hreads, hfilled, hsettles⟩ :=
    fill_simultaneous (rfl : (templated "x86").check = .ok ()) List.mem_cons_self
      ⟨"x86", "s.sig", .thirtyTwo⟩ _ List.mem_cons_self
  exact ⟨tokens, (hreads tokens).mpr rfl, hfilled.mpr (hsettles (by decide))⟩

/-- **What is put in can be filled in again**: a layout whose architecture is called like a
placeholder keeps its rules, but where its template asks for this name the word size comes out. -/
theorem name_filled_again : (templated (Text.braced "bits")).check = .ok () ∧
    ∃ arch ∈ (templated (Text.braced "bits")).architectures,
      ∃ template ∈ (templated (Text.braced "bits")).templates, ∃ tokens,
        Reads tokens template.name.toList ∧ arch.fill template.name = "lib/32/x" ∧
        String.ofList (filled arch tokens) = "lib/" ++ Text.braced "bits" ++ "/x" := by
  refine ⟨rfl, ⟨Text.braced "bits", "s.sig", .thirtyTwo⟩, List.mem_cons_self, _, List.mem_cons_self,
    [.literal 'l', .literal 'i', .literal 'b', .literal '/', .hole .name, .literal '/',
      .literal 'x'], ⟨rfl, by decide⟩, rfl, rfl⟩

end Layout

end PackageSeal
