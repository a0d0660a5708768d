import PackageSeal.Frame
import PackageSeal.Proofs.Octets

/-!
# Taking a stream apart

The canonical stream of some named contents is their frames one after the other, with nothing that
says how many there are or where one ends. It can be taken apart in one way only: a name holds no
zero, so the zero after it is the first one; the eight octets after that are the size of the content
exactly; and the content is that many octets.

`octets_append_inj` takes off one frame; `canonical_isPrefix_iff` follows by induction over both
lists of contents.
-/

namespace PackageSeal

namespace MemberName

/-- A name holds no zero. -/
theorem zero_notMem_octets (name : MemberName) : (0 : UInt8) ∉ name.octets := by
  intro h
  have h0 : UInt8.ofNat ('\x00').toNat ∈ utf8 name.text := h
  exact name.isNormal.no_nul ((mem_utf8_iff (by decide)).mp h0)

end MemberName

/-- Two byte strings without a zero are the same where both stand before the first zero of one
stream. -/
theorem append_zero_inj {xs ys rest rest' : Bytes} (hx : (0 : UInt8) ∉ xs) (hy : (0 : UInt8) ∉ ys)
    (h : xs ++ 0 :: rest = ys ++ 0 :: rest') : xs = ys ∧ rest = rest' := by
  induction xs generalizing ys with
  | nil =>
      cases ys with
      | nil => simpa using h
      | cons y ys =>
          rw [List.nil_append, List.cons_append, List.cons.injEq] at h
          exact absurd (h.1 ▸ List.mem_cons_self) hy
  | cons x xs ih =>
      rw [List.mem_cons, not_or] at hx
      cases ys with
      | nil =>
          rw [List.nil_append, List.cons_append, List.cons.injEq] at h
          exact absurd h.1.symm hx.1
      | cons y ys =>
          rw [List.mem_cons, not_or] at hy
          rw [List.cons_append, List.cons_append, List.cons.injEq] at h
          obtain ⟨hxs, hrest⟩ := ih hx.2 hy.2 h.2
          exact ⟨by rw [h.1, hxs], hrest⟩

namespace Frame

/-- A content whose size the eight octets of a frame can hold. -/
def Fits (content : Bytes) : Prop :=
  content.length < UInt64.size

instance (content : Bytes) : Decidable (Fits content) :=
  inferInstanceAs (Decidable (_ < _))

/-- The canonical stream of named contents: their frames in order. -/
def canonical (held : List (MemberName × Bytes)) : Bytes :=
  held.flatMap fun entry => octets entry.1 entry.2

@[simp] theorem canonical_nil : canonical [] = [] := rfl

@[simp] theorem canonical_cons (name : MemberName) (content : Bytes)
    (held : List (MemberName × Bytes)) :
    canonical ((name, content) :: held) = octets name content ++ canonical held := rfl

theorem canonical_append (front rest : List (MemberName × Bytes)) :
    canonical (front ++ rest) = canonical front ++ canonical rest :=
  List.flatMap_append

/-- A frame is never empty: it holds at least the zero after the name. -/
theorem octets_ne_nil (name : MemberName) (content : Bytes) : octets name content ≠ [] := by
  simp [octets, header]

/-- A frame at the front of a stream is determined by the stream, and so is what follows it. -/
theorem octets_append_inj {name name' : MemberName} {content content' rest rest' : Bytes}
    (hc : Fits content) (hc' : Fits content')
    (h : octets name content ++ rest = octets name' content' ++ rest') :
    name = name' ∧ content = content' ∧ rest = rest' := by
  simp only [octets, header, List.append_assoc, List.cons_append] at h
  obtain ⟨hname, hsized⟩ :=
    append_zero_inj name.zero_notMem_octets name'.zero_notMem_octets h
  obtain ⟨hsize, hbody⟩ := List.append_inj hsized (by simp)
  have hlength : content.length = content'.length := littleEndian_inj hc hc' hsize
  obtain ⟨hcontent, hrest⟩ := List.append_inj hbody hlength
  exact ⟨MemberName.octets_injective hname, hcontent, hrest⟩

/-- One canonical stream is a prefix of another exactly where the named contents are. -/
theorem canonical_isPrefix_iff {held held' : List (MemberName × Bytes)}
    (hf : ∀ entry ∈ held, Fits entry.2) (hf' : ∀ entry ∈ held', Fits entry.2) :
    canonical held <+: canonical held' ↔ held <+: held' := by
  constructor
  · intro h
    -- Both lists at once: each frame of the first stream takes off one of the second.
    induction held generalizing held' with
    | nil => exact List.nil_prefix
    | cons entry held ih =>
        obtain ⟨name, content⟩ := entry
        obtain ⟨rest, hrest⟩ := h
        cases held' with
        | nil =>
            rw [canonical_cons, canonical_nil, List.append_eq_nil_iff, List.append_eq_nil_iff]
              at hrest
            exact absurd hrest.1.1 (octets_ne_nil name content)
        | cons entry' held' =>
            obtain ⟨name', content'⟩ := entry'
            rw [canonical_cons, canonical_cons, List.append_assoc] at hrest
            obtain ⟨rfl, rfl, htail⟩ :=
              octets_append_inj (hf _ List.mem_cons_self) (hf' _ List.mem_cons_self) hrest
            have hprefix : held <+: held' :=
              ih (fun e he => hf e (List.mem_cons_of_mem _ he))
                (fun e he => hf' e (List.mem_cons_of_mem _ he)) ⟨rest, htail⟩
            exact (List.prefix_cons_inj _).mpr hprefix
  · rintro ⟨rest, rfl⟩
    rw [canonical_append]
    exact List.prefix_append ..

/-- Canonical streams are the same exactly where the named contents are. -/
theorem canonical_inj {held held' : List (MemberName × Bytes)}
    (hf : ∀ entry ∈ held, Fits entry.2) (hf' : ∀ entry ∈ held', Fits entry.2) :
    canonical held = canonical held' ↔ held = held' := by
  constructor
  · intro h
    have hle : held <+: held' := (canonical_isPrefix_iff hf hf').mp (h ▸ List.prefix_rfl)
    have hge : held' <+: held := (canonical_isPrefix_iff hf' hf).mp (h ▸ List.prefix_rfl)
    exact hle.eq_of_length_le hge.length_le
  · rintro rfl; rfl

end Frame

end PackageSeal
