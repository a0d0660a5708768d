import PackageSeal.Proofs.Frame.Stream

/-!
# Copying content block by block

`Frame.send` says in which pieces a frame reaches a sink. Here is the loop that finds these pieces:
`Frame.copy` reads into a buffer of one block what is at the front of a reading, never beyond the
declared size, offers it to the sink, and counts what was copied in sixty-four bits. A `Writer` may
take less than it is offered; what is left is offered again (`Writer.offer`).

* `copyFrame_eq`: the loop does what `send` says, and its counter never overflows.
* `Writer.Takes.fills`, `Sink.Fills.feed`: a writer with room for so many octets is left with as
  many of those it was sent, in however small portions it takes them.

Together: what a writer is left with and how sending a frame ends depend on the declared size, the
octets of the content and the room alone (`send_streams`).
-/

namespace PackageSeal

/-! ## Room -/

/-- The first octets, as many as there is room for; all of them where there is no bound. -/
def cut (room : Option Nat) (bytes : Bytes) : Bytes :=
  match room with
  | none => bytes
  | some space => bytes.take space

/-- There is room for so many octets. -/
def HasRoom (room : Option Nat) (size : Nat) : Prop :=
  ∀ space, room = some space → size ≤ space

instance (room : Option Nat) (size : Nat) : Decidable (HasRoom room size) :=
  match room with
  | none => .isTrue (by simp [HasRoom])
  | some space => decidable_of_iff (size ≤ space) (by simp [HasRoom])

@[simp] theorem hasRoom_none (size : Nat) : HasRoom none size := by
  simp [HasRoom]

@[simp] theorem hasRoom_some (space size : Nat) : HasRoom (some space) size ↔ size ≤ space := by
  simp [HasRoom]

theorem cut_of_hasRoom {room : Option Nat} {bytes : Bytes} (h : HasRoom room bytes.length) :
    cut room bytes = bytes := by
  cases room with
  | none => rfl
  | some space => exact List.take_of_length_le (by simpa using h)

/-- Octets for which there is room leave room for the rest. -/
theorem cut_append {room : Option Nat} {front : Bytes} (rest : Bytes)
    (h : HasRoom room front.length) :
    cut room (front ++ rest) = front ++ cut (room.map (· - front.length)) rest := by
  cases room with
  | none => rfl
  | some space =>
      have hfront : front.take space = front := List.take_of_length_le (by simpa using h)
      simp [cut, List.take_append, hfront]

/-- Where there is no room for the front, the rest is cut off. -/
theorem cut_append_of_not_hasRoom {room : Option Nat} {front : Bytes} (rest : Bytes)
    (h : ¬ HasRoom room front.length) : cut room (front ++ rest) = cut room front := by
  cases room with
  | none => simp at h
  | some space =>
      have hspace : space ≤ front.length := by
        simp at h; omega
      simp [cut, List.take_append_of_le_length hspace]

theorem hasRoom_append {room : Option Nat} {front rest : Nat} :
    HasRoom room (front + rest) ↔
      HasRoom room front ∧ HasRoom (room.map (· - front)) rest := by
  cases room with
  | none => simp
  | some space => simp; omega

/-! ## Sinks with room -/

namespace Sink

variable {σ : Type}

/-- What a sink holds grows by what it is sent, as far as there is room, and it says whether there
was. -/
structure Fills (sink : Sink σ) (held : σ → Bytes) (room : σ → Option Nat) : Prop where
  held_accept : ∀ state piece,
    held (sink.accept state piece).1 = held state ++ cut (room state) piece
  room_accept : ∀ state piece,
    room (sink.accept state piece).1 = (room state).map (· - piece.length)
  accept_iff : ∀ state piece,
    (sink.accept state piece).2 = true ↔ HasRoom (room state) piece.length

/-- Pieces are sent one after the other, up to the first that is not taken whole. -/
theorem feed_append (sink : Sink σ) (state : σ) (front rest : List Bytes) :
    sink.feed state (front ++ rest) =
      if (sink.feed state front).2 then sink.feed (sink.feed state front).1 rest
      else sink.feed state front := by
  induction front generalizing state with
  | nil => simp [feed]
  | cons piece others ih =>
      cases hpiece : sink.accept state piece with
      | mk next taken =>
          cases taken with
          | true => simp [feed, hpiece, ih]
          | false => simp [feed, hpiece]

/-- **A sink with room is left with the octets of the pieces**, as far as there is room. -/
theorem Fills.feed {sink : Sink σ} {held : σ → Bytes} {room : σ → Option Nat}
    (h : sink.Fills held room) (state : σ) (parts : List Bytes) :
    held (sink.feed state parts).1 = held state ++ cut (room state) parts.flatten ∧
      ((sink.feed state parts).2 = true ↔ HasRoom (room state) parts.flatten.length) := by
  induction parts generalizing state with
  | nil => cases hroom : room state with
      | none => simp [Sink.feed, cut]
      | some space => simp [Sink.feed, cut]
  | cons piece rest ih =>
      have hheld := h.held_accept state piece
      have hroom := h.room_accept state piece
      have hiff := h.accept_iff state piece
      cases hpiece : sink.accept state piece with
      | mk next taken =>
          rw [hpiece] at hheld hroom hiff
          have hrest := ih next
          cases taken with
          | true =>
              have hfits : HasRoom (room state) piece.length := hiff.mp rfl
              rw [hheld, hroom, cut_of_hasRoom hfits] at hrest
              have hflatten : (piece :: rest).flatten = piece ++ rest.flatten := rfl
              simp only [Sink.feed, hpiece, hrest, hflatten, cut_append _ hfits, List.length_append,
                hasRoom_append, hfits, List.append_assoc, true_and, and_self]
          | false =>
              have hfull : ¬ HasRoom (room state) piece.length := by simpa using hiff
              have hflatten : (piece :: rest).flatten = piece ++ rest.flatten := rfl
              simp only [Sink.feed, hpiece, hheld, hflatten, cut_append_of_not_hasRoom _ hfull,
                List.length_append, hasRoom_append, hfull, Bool.false_eq_true, false_and, and_self]

end Sink

/-! ## Writers -/

/-- A receiver that may take a part of what it is offered: its state afterwards, and how many octets
it took. -/
structure Writer (σ : Type) where
  write : σ → Bytes → σ × Nat

namespace Writer

variable {σ : Type} {writer : Writer σ} {held : σ → Bytes} {room : σ → Option Nat}

/-- Offer a piece, then what was not taken of it, until nothing is left or nothing is taken. -/
def offer (writer : Writer σ) (state : σ) (piece : Bytes) : σ × Bool :=
  if piece = [] then (state, true)
  else
    match writer.write state piece with
    | (state, 0) => (state, false)
    | (state, taken + 1) => writer.offer state (piece.drop (taken + 1))
termination_by piece.length
decreasing_by
  have hlength := List.length_pos_iff.mpr ‹¬ piece = []›
  simp only [List.length_drop]
  omega

/-- The sink that offers each piece until it is taken whole. -/
def sink (writer : Writer σ) : Sink σ :=
  ⟨writer.offer⟩

/-- The writer takes octets from the front of what it is offered, in portions of any size: no more
than there is room for, and none only where there is no room. -/
structure Takes (writer : Writer σ) (held : σ → Bytes) (room : σ → Option Nat) : Prop where
  held_write : ∀ state piece,
    held (writer.write state piece).1 = held state ++ piece.take (writer.write state piece).2
  room_write : ∀ state piece,
    room (writer.write state piece).1 = (room state).map (· - (writer.write state piece).2)
  le_length : ∀ state piece, (writer.write state piece).2 ≤ piece.length
  hasRoom : ∀ state piece, HasRoom (room state) (writer.write state piece).2
  full : ∀ state piece, piece ≠ [] → (writer.write state piece).2 = 0 → room state = some 0

/-- What is offered until it is taken whole is taken as far as there is room. -/
theorem Takes.offer (h : writer.Takes held room) (state : σ) (piece : Bytes) :
    held (writer.offer state piece).1 = held state ++ cut (room state) piece ∧
      room (writer.offer state piece).1 = (room state).map (· - piece.length) ∧
      ((writer.offer state piece).2 = true ↔ HasRoom (room state) piece.length) := by
  induction hsize : piece.length using Nat.strongRecOn generalizing state piece with
  | ind size ih =>
      subst hsize
      rw [Writer.offer]
      by_cases hpiece : piece = []
      · subst hpiece
        cases hroom : room state with
        | none => simp [cut, hroom]
        | some space => simp [cut, hroom]
      · rw [if_neg hpiece]
        have hheld := h.held_write state piece
        have hroom := h.room_write state piece
        have hlength := h.le_length state piece
        have hfits := h.hasRoom state piece
        have hfull := h.full state piece hpiece
        cases hwrite : writer.write state piece with
        | mk next taken =>
            rw [hwrite] at hheld hroom hlength hfits hfull
            cases taken with
            | zero =>
                have hpos := List.length_pos_iff.mpr hpiece
                have hnone : room state = some 0 := hfull rfl
                rw [hnone] at hroom
                simp only [hheld, hroom, hnone, cut, hasRoom_some]
                simp
                omega
            | succ taken =>
                -- What was taken and what is left are the piece.
                have hfront : (piece.take (taken + 1)).length = taken + 1 := by
                  simp only [List.length_take]; omega
                have hleft : (piece.drop (taken + 1)).length < piece.length := by
                  simp only [List.length_drop]; omega
                have hrest := ih _ hleft next (piece.drop (taken + 1)) rfl
                rw [hheld, hroom] at hrest
                obtain ⟨hheld', hroom', hiff⟩ := hrest
                have hsplit : piece.take (taken + 1) ++ piece.drop (taken + 1) = piece :=
                  List.take_append_drop _ _
                have hsum : piece.length = (taken + 1) + (piece.drop (taken + 1)).length := by
                  simp only [List.length_drop]; omega
                have hcut := cut_append (piece.drop (taken + 1)) (hfront.symm ▸ hfits)
                rw [hsplit, hfront] at hcut
                refine ⟨?_, ?_, ?_⟩
                · simp only [hheld', hcut, List.append_assoc]
                · rw [hroom', Option.map_map, hsum]
                  congr 1
                  funext space
                  simp only [Function.comp]
                  omega
                · rw [hiff, hsum, hasRoom_append]
                  exact (and_iff_right hfits).symm

/-- **A writer that takes portions of any size fills up** when pieces are offered until they are
taken whole. -/
theorem Takes.fills (h : writer.Takes held room) : writer.sink.Fills held room where
  held_accept state piece := (h.offer state piece).1
  room_accept state piece := (h.offer state piece).2.1
  accept_iff state piece := (h.offer state piece).2.2

end Writer

/-! ## The loop -/

namespace Reading

/-- One read into a buffer of `space` octets: what is at the front of the next chunk, as far as it
fits; nothing at the end, or the fault there. -/
def next (space : Nat) (reading : Reading) : Except IoError (Bytes × Reading) :=
  match reading.chunks with
  | [] =>
    match reading.fault with
    | some cause => .error cause
    | none => .ok ([], reading)
  | chunk :: rest =>
    if chunk.length ≤ space then .ok (chunk, { reading with chunks := rest })
    else .ok (chunk.take space, { reading with chunks := chunk.drop space :: rest })

variable {reading rest : Reading} {space : Nat} {block : Bytes}

/-- A read loses nothing: what it brings and what is left to read are what there was. -/
theorem octets_next (h : reading.next space = .ok (block, rest)) :
    reading.octets = block ++ rest.octets := by
  obtain ⟨chunks, fault⟩ := reading
  cases chunks with
  | nil =>
      cases fault with
      | some cause => cases h
      | none =>
          obtain ⟨rfl, rfl⟩ := Prod.mk.inj (Except.ok.inj h)
          rfl
  | cons chunk others =>
      simp only [next] at h
      split at h
      · obtain ⟨rfl, rfl⟩ := Prod.mk.inj (Except.ok.inj h)
        rfl
      · obtain ⟨rfl, rfl⟩ := Prod.mk.inj (Except.ok.inj h)
        simp [octets, ← List.append_assoc]

/-- A read into a buffer brings something as long as there is a chunk, and no more than fits. -/
theorem next_of_chunks (hspace : 0 < space) (hchunks : ∀ chunk ∈ reading.chunks, chunk ≠ [])
    (hmore : reading.chunks ≠ []) : ∃ block rest, reading.next space = .ok (block, rest) ∧
      block ≠ [] ∧ block.length ≤ space ∧ (∀ chunk ∈ rest.chunks, chunk ≠ []) ∧
      rest.fault = reading.fault := by
  obtain ⟨chunks, fault⟩ := reading
  cases chunks with
  | nil => exact absurd rfl hmore
  | cons chunk others =>
      rw [List.forall_mem_cons] at hchunks
      by_cases hfits : chunk.length ≤ space
      · exact ⟨chunk, ⟨others, fault⟩, by simp [next, hfits], hchunks.1, hfits, hchunks.2, rfl⟩
      · have hlong : space < chunk.length := Nat.lt_of_not_le hfits
        refine ⟨chunk.take space, ⟨chunk.drop space :: others, fault⟩, by simp [next, hfits], ?_,
          List.length_take_le _ _, ?_, rfl⟩
        · rw [← List.length_pos_iff, List.length_take]; omega
        · rw [List.forall_mem_cons, ← List.length_pos_iff, List.length_drop]
          exact ⟨by omega, hchunks.2⟩

end Reading

namespace Frame

variable {σ : Type}

/-- Copy blocks to the sink until a read brings nothing, and count the octets. At the limit nothing
is read any more. There is no result where the counter would overflow. -/
def copy (sink : Sink σ) (limit copied : Nat) (reading : Reading) (state : σ) :
    Option (σ × Except IoError Nat) :=
  if limit = 0 then some (state, .ok copied)
  else
    match reading.next (min blockSize limit) with
    | .error cause => some (state, .error cause)
    | .ok (block, rest) =>
      if block = [] then some (state, .ok copied)
      else
        match sink.accept state block with
        | (state, false) => some (state, .error .refused)
        | (state, true) =>
          if copied + block.length < UInt64.size then
            copy sink (limit - block.length) (copied + block.length) rest state
          else none
termination_by limit
decreasing_by
  have hlength := List.length_pos_iff.mpr ‹¬ block = []›
  omega

/-- Send the header of a frame, copy the content, and compare what was copied with the declared
size. -/
def copyFrame (sink : Sink σ) (name : MemberName) (size : UInt64) (reading : Reading) (state : σ) :
    Option (σ × Except IoError Unit) :=
  match sink.feed state (headerParts name size.toNat) with
  | (state, false) => some (state, .error .refused)
  | (state, true) =>
    match copy sink size.toNat 0 reading state with
    | none => none
    | some (state, .error cause) => some (state, .error cause)
    | some (state, .ok copied) =>
      some (state, if copied = size.toNat then .ok ()
        else .error (.shortContent name.text size.toNat copied))

/-- Nothing is sent within a limit of nothing. -/
theorem contentParts_zero (chunks : List Bytes) : contentParts 0 chunks = [] := by
  induction chunks with
  | nil => rfl
  | cons chunk rest ih => simp [contentParts, ih]

/-- The first piece of a content is what a read into the buffer brings, and the others are the
pieces of what the read leaves. -/
theorem contentParts_next {reading rest : Reading} {limit : Nat} {block : Bytes}
    (h : reading.next (min blockSize limit) = .ok (block, rest)) (hblock : block ≠ []) :
    contentParts limit reading.chunks =
      block :: contentParts (limit - block.length) rest.chunks := by
  have hpos : 0 < blockSize := by decide
  have hlength := List.length_pos_iff.mpr hblock
  obtain ⟨chunks, fault⟩ := reading
  cases chunks with
  | nil =>
      cases fault with
      | some cause => cases h
      | none =>
          obtain ⟨rfl, -⟩ := Prod.mk.inj (Except.ok.inj h)
          exact absurd rfl hblock
  | cons chunk others =>
      simp only [Reading.next] at h
      split at h
      · -- The chunk is a block of its own.
        next hfits =>
        obtain ⟨rfl, rfl⟩ := Prod.mk.inj (Except.ok.inj h)
        have hwithin : chunk.length ≤ limit := by omega
        have hone : chunk.length ≤ blockSize := by omega
        simp only [contentParts, List.take_of_length_le hwithin, pieces_of_ne_nil hpos hblock,
          List.take_of_length_le hone, List.drop_eq_nil_of_le hone, pieces_nil,
          List.singleton_append]
      · -- The block is the front of the chunk, and the rest of the chunk stays to be read.
        next hfits =>
        obtain ⟨rfl, rfl⟩ := Prod.mk.inj (Except.ok.inj h)
        have htaken : (chunk.take (min blockSize limit)).length = min blockSize limit := by
          simp only [List.length_take]; omega
        rw [htaken] at hlength
        have hfront : chunk.take limit ≠ [] := by
          rw [← List.length_pos_iff, List.length_take]; omega
        rw [contentParts, pieces_of_ne_nil hpos hfront, List.take_take, List.cons_append, htaken,
          contentParts, List.length_drop]
        by_cases hmin : blockSize ≤ limit
        · have hrest : limit - chunk.length = limit - blockSize - (chunk.length - blockSize) := by
            omega
          rw [Nat.min_eq_left hmin, List.drop_take, hrest]
        · have hrest : limit - chunk.length = 0 := by omega
          have hnone : (chunk.take limit).drop blockSize = [] := by
            refine List.drop_eq_nil_of_le ?_
            rw [List.length_take]; omega
          rw [Nat.min_eq_right (Nat.le_of_not_le hmin), hnone, hrest, Nat.sub_self]
          simp [contentParts_zero]

end Frame

namespace Reading

/-- How many octets within a limit a reading brings, or the fault that comes before. -/
def amount (limit : Nat) (reading : Reading) : Except IoError Nat :=
  if limit ≤ reading.octets.length then .ok limit
  else
    match reading.fault with
    | some cause => .error cause
    | none => .ok reading.octets.length

theorem amount_append {reading rest : Reading} {block : Bytes} {limit : Nat}
    (hfault : rest.fault = reading.fault) (hoctets : reading.octets = block ++ rest.octets)
    (hblock : block.length ≤ limit) :
    reading.amount limit =
      (rest.amount (limit - block.length)).map fun copied => block.length + copied := by
  unfold amount
  rw [hoctets, List.length_append, hfault]
  by_cases hlimit : limit ≤ block.length + rest.octets.length
  · have hrest : limit - block.length ≤ rest.octets.length := by omega
    have hsum : block.length + (limit - block.length) = limit := by omega
    simp [hlimit, hrest, Except.map, hsum]
  · have hrest : ¬ limit - block.length ≤ rest.octets.length := by omega
    cases hcause : reading.fault with
    | none => simp [hlimit, hrest, Except.map]
    | some cause => simp [hlimit, hrest, Except.map]

end Reading

namespace Frame

variable {σ : Type} {sink : Sink σ}

/-- **The loop copies the pieces of the content**, as far as the sink takes them, and ends with the
count of all octets within the limit. The counter does not overflow if it can hold the limit. -/
theorem copy_eq {reading : Reading} {limit copied : Nat} {state : σ}
    (hchunks : ∀ chunk ∈ reading.chunks, chunk ≠ []) (hcount : copied + limit < UInt64.size) :
    copy sink limit copied reading state =
      some ((sink.feed state (contentParts limit reading.chunks)).1,
        if (sink.feed state (contentParts limit reading.chunks)).2 then
          (reading.amount limit).map fun more => copied + more
        else .error .refused) := by
  induction limit using Nat.strongRecOn generalizing copied reading state with
  | ind limit ih =>
      rw [copy]
      by_cases hlimit : limit = 0
      · subst hlimit
        simp [contentParts_zero, Sink.feed, Reading.amount, Except.map]
      · rw [if_neg hlimit]
        by_cases hmore : reading.chunks = []
        · have hoctets : reading.octets = [] := by simp [Reading.octets, hmore]
          have hshort : ¬ limit ≤ 0 := by omega
          cases hfault : reading.fault with
          | none =>
              simp [Reading.next, hmore, hfault, contentParts, Sink.feed, Reading.amount, hoctets,
                hshort, Except.map]
          | some cause =>
              simp [Reading.next, hmore, hfault, contentParts, Sink.feed, Reading.amount, hoctets,
                hshort, Except.map]
        · have hspace : 0 < min blockSize limit :=
            Nat.lt_min.mpr ⟨by decide, Nat.pos_of_ne_zero hlimit⟩
          obtain ⟨block, rest, hnext, hblock, hfits, hrest, hfault⟩ :=
            Reading.next_of_chunks hspace hchunks hmore
          have hwithin : block.length ≤ limit := Nat.le_trans hfits (Nat.min_le_right _ _)
          have hoctets := Reading.octets_next hnext
          have hparts := contentParts_next hnext hblock
          have hlength := List.length_pos_iff.mpr hblock
          simp only [hnext, if_neg hblock, hparts, Sink.feed]
          cases haccept : sink.accept state block with
          | mk next taken =>
              cases taken with
              | false => rfl
              | true =>
                  have hcount' : copied + block.length + (limit - block.length) < UInt64.size := by
                    omega
                  have hfits : copied + block.length < UInt64.size := by omega
                  have hloop := @ih (limit - block.length) (by omega) _ _ next hrest hcount'
                  rw [Reading.amount_append hfault hoctets hwithin]
                  simp only [if_pos hfits, hloop]
                  cases rest.amount (limit - block.length) with
                  | error cause => rfl
                  | ok more => simp [Except.map, Nat.add_assoc]

/-- **The loop does what `send` says**, and its counter never overflows. -/
theorem copyFrame_eq (name : MemberName) (size : UInt64) {reading : Reading}
    (hchunks : ∀ chunk ∈ reading.chunks, chunk ≠ []) (state : σ) :
    copyFrame sink name size reading state = some (send sink name size.toNat reading state) := by
  have hcount : 0 + size.toNat < UInt64.size := by
    rw [Nat.zero_add]
    exact size.toNat_lt_size
  unfold copyFrame send
  rw [Sink.feed_append]
  cases hheader : sink.feed state (headerParts name size.toNat) with
  | mk next taken =>
      cases taken with
      | false => rfl
      | true =>
          simp only [copy_eq hchunks hcount]
          cases hcontent : sink.feed next (contentParts size.toNat reading.chunks) with
          | mk final whole =>
              cases whole with
              | false => simp
              | true =>
                  simp only [if_true, Reading.amount]
                  by_cases henough : size.toNat ≤ reading.octets.length
                  · simp [henough, Except.map]
                  · have hcopied :
                      min size.toNat reading.octets.length = reading.octets.length := by
                      omega
                    have hshort : reading.octets.length ≠ size.toNat := by omega
                    cases reading.fault with
                    | none => simp [henough, hcopied, hshort, Except.map]
                    | some cause => simp [henough, hcopied, hshort, Except.map]

/-! ## What is left where -/

/-- A frame of the declared size, with as much of the content as it declares. -/
def declared (name : MemberName) (size : Nat) (content : Bytes) : Bytes :=
  header name size ++ content.take size

/-- A frame that declares all of its content is that of the content. -/
theorem declared_length (name : MemberName) (content : Bytes) :
    declared name content.length content = octets name content := by
  simp [declared, octets]

theorem flatten_parts (name : MemberName) (size : Nat) (chunks : List Bytes) :
    (headerParts name size ++ contentParts size chunks).flatten =
      declared name size chunks.flatten := by
  rw [List.flatten_append, flatten_headerParts, flatten_contentParts, declared]

/-- A sink with room is left with the frame as far as there is room; want of room is told before
want of content. -/
theorem send_fills {held : σ → Bytes} {room : σ → Option Nat} (hsink : sink.Fills held room)
    (name : MemberName) (size : Nat) (chunks : List Bytes) (state : σ) :
    held (send sink name size ⟨chunks, none⟩ state).1 =
        held state ++ cut (room state) (declared name size chunks.flatten) ∧
      (send sink name size ⟨chunks, none⟩ state).2 =
        if HasRoom (room state) (declared name size chunks.flatten).length then
          if size ≤ chunks.flatten.length then .ok ()
          else .error (.shortContent name.text size chunks.flatten.length)
        else .error .refused := by
  have hfeed := hsink.feed state (headerParts name size ++ contentParts size chunks)
  rw [flatten_parts] at hfeed
  unfold send
  cases hsent : sink.feed state (headerParts name size ++ contentParts size chunks) with
  | mk final whole =>
      rw [hsent] at hfeed
      obtain ⟨hheld, hwhole⟩ := hfeed
      cases whole with
      | false =>
          have hfull : ¬ HasRoom (room state) (declared name size chunks.flatten).length := by
            simpa using hwhole
          simp only [if_neg hfull, and_true]
          exact hheld
      | true =>
          have hfits : HasRoom (room state) (declared name size chunks.flatten).length :=
            hwhole.mp rfl
          simp only [Reading.octets, if_pos hfits]
          by_cases henough : size ≤ chunks.flatten.length
          · have hcopied : min size chunks.flatten.length = size := by omega
            simpa only [hcopied, if_true, if_pos henough, and_true] using hheld
          · have hcopied : min size chunks.flatten.length = chunks.flatten.length := by omega
            have hshort : chunks.flatten.length ≠ size := by omega
            simpa only [hcopied, if_neg hshort, if_neg henough, and_true] using hheld

/-- **What sending a frame leaves**, and how it ends. Whatever portions the writer takes and
whatever chunks the content comes in, the writer is left with the frame of the declared size as far
as there is room. Sending succeeds exactly where the content is long enough and there is room for
the whole frame; it is refused exactly where there is no room; and otherwise the content is found
too short. The loop never leaves its counter's range. -/
theorem send_streams {writer : Writer σ} {held : σ → Bytes} {room : σ → Option Nat}
    (hwriter : writer.Takes held room) (name : MemberName) (size : UInt64) {chunks : List Bytes}
    (hchunks : ∀ chunk ∈ chunks, chunk ≠ []) {start : σ} (hstart : held start = []) :
    ∃ final ending,
      copyFrame writer.sink name size ⟨chunks, none⟩ start = some (final, ending) ∧
      send writer.sink name size.toNat ⟨chunks, none⟩ start = (final, ending) ∧
      held final = cut (room start) (declared name size.toNat chunks.flatten) ∧
      (ending = .ok () ↔ size.toNat ≤ chunks.flatten.length ∧
        HasRoom (room start) (declared name size.toNat chunks.flatten).length) ∧
      (ending = .error .refused ↔
        ¬ HasRoom (room start) (declared name size.toNat chunks.flatten).length) ∧
      (ending = .error (.shortContent name.text size.toNat chunks.flatten.length) ↔
        chunks.flatten.length < size.toNat ∧
          HasRoom (room start) (declared name size.toNat chunks.flatten).length) ∧
      (size.toNat = chunks.flatten.length → room start = none →
        held final = octets name chunks.flatten) := by
  have hloop : copyFrame writer.sink name size ⟨chunks, none⟩ start =
      some (send writer.sink name size.toNat ⟨chunks, none⟩ start) :=
    copyFrame_eq name size hchunks start
  obtain ⟨hheld, hending⟩ := send_fills hwriter.fills name size.toNat chunks start
  rw [hstart, List.nil_append] at hheld
  cases hsend : send writer.sink name size.toNat ⟨chunks, none⟩ start with
  | mk final ending =>
      simp only [hsend] at hloop hheld hending
      have hwhole (hsize : size.toNat = chunks.flatten.length) (hroom : room start = none) :
          held final = octets name chunks.flatten := by
        rw [hheld, hroom, hsize, declared_length]
        rfl
      refine ⟨final, ending, hloop, rfl, hheld, ?_, ?_, ?_, hwhole⟩
      -- Each ending stands for one side of the two questions: is there room, and is there enough?
      all_goals
        rw [hending]
        by_cases hfits : HasRoom (room start) (declared name size.toNat chunks.flatten).length <;>
          by_cases henough : size.toNat ≤ chunks.flatten.length <;>
            simp [hfits, henough, ← Nat.not_le, -List.length_flatten]

end Frame

namespace Buffer

/-- The buffer as a writer that takes one octet at a time and at most `more` beside it. -/
def writer (more : Nat) : Writer Buffer where
  write buffer piece :=
    let taken := min (more + 1) (cut buffer.room piece).length
    (⟨buffer.octets ++ piece.take taken, buffer.room.map (· - taken)⟩, taken)

theorem takes_writer (more : Nat) : (writer more).Takes octets room where
  held_write buffer piece := rfl
  room_write buffer piece := rfl
  le_length buffer piece := by
    cases hroom : buffer.room with
    | none => simp only [writer, hroom, cut]; omega
    | some space => simp only [writer, hroom, cut, List.length_take]; omega
  hasRoom buffer piece := by
    cases hroom : buffer.room with
    | none => simp
    | some space => simp only [writer, hroom, cut, List.length_take, hasRoom_some]; omega
  full buffer piece hpiece hnone := by
    have hlength := List.length_pos_iff.mpr hpiece
    cases hroom : buffer.room with
    | none => simp only [writer, hroom, cut] at hnone; omega
    | some space =>
        have hspace : space = 0 := by
          simp only [writer, hroom, cut, List.length_take] at hnone; omega
        rw [hspace]

end Buffer

namespace Frame

/-- A content is too short for its declared size, and a buffer that takes three octets at a time has
no room for its last octet: the buffer fills up, and that is what is told. -/
theorem send_streams_full : ∃ final,
    (∀ chunk ∈ [[1], [2, 3]], chunk ≠ ([] : Bytes)) ∧
    send (Buffer.writer 2).sink MemberName.a 4 ⟨[[1], [2, 3]], none⟩ (.empty (some 12)) =
      (final, .error .refused) ∧
    final.octets = [97, 0, 4, 0, 0, 0, 0, 0, 0, 0, 1, 2] := by
  have hchunks : ∀ chunk ∈ [[1], [2, 3]], chunk ≠ ([] : Bytes) := by decide
  obtain ⟨final, ending, -, hsend, hheld, -, hrefused, -⟩ :=
    send_streams (Buffer.takes_writer 2) MemberName.a 4 hchunks
      (rfl : Buffer.octets (.empty (some 12)) = [])
  have hfull : ending = .error .refused := hrefused.mpr (by decide)
  exact ⟨final, hchunks, hfull ▸ hsend, hheld⟩

end Frame

end PackageSeal
