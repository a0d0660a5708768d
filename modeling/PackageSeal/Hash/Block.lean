import PackageSeal.Bytes

/-!
# Hashing in blocks

A block hash folds a compression function over the blocks of a padded message. It can be computed at
once (`BlockHash.hash`) or piece by piece (`Running`), keeping only the chaining value, the octets
of the unfinished block and the number of octets seen. Both end with the same padding: the octet
`0x80`, then zeros, then the number of bits, so that the whole is a multiple of the block size.
-/

namespace PackageSeal.Hash

/-- What fixes one block hash. -/
structure BlockHash where
  /-- The chaining value carried from block to block. -/
  Chain : Type
  /-- Octets of a block. -/
  blockSize : Nat
  blockSize_pos : 0 < blockSize
  /-- Octets of the length that ends the padding. -/
  lengthSize : Nat
  start : Chain
  compress : Chain → Bytes → Chain
  output : Chain → Bytes

namespace BlockHash

variable (H : BlockHash)

/-- What is put after a message of `size` octets. -/
def padding (size : Nat) : Bytes :=
  let zeros := (H.blockSize - (size + 1 + H.lengthSize) % H.blockSize) % H.blockSize
  0x80 :: (List.replicate zeros 0 ++ bigEndian H.lengthSize (8 * size))

/-- Fold the compression over the first `count` blocks. -/
def compressBlocks : Nat → H.Chain → Bytes → H.Chain
  | 0, chain, _ => chain
  | count + 1, chain, bytes =>
    compressBlocks count (H.compress chain (bytes.take H.blockSize)) (bytes.drop H.blockSize)

/-- The hash of a whole message. -/
def hash (message : Bytes) : Bytes :=
  let padded := message ++ H.padding message.length
  H.output (H.compressBlocks (padded.length / H.blockSize) H.start padded)

/-- Folding over more blocks is folding over the first ones and then over the rest. -/
theorem compressBlocks_add (m n : Nat) (chain : H.Chain) (bytes : Bytes) :
    H.compressBlocks (m + n) chain bytes =
      H.compressBlocks n (H.compressBlocks m chain bytes) (bytes.drop (m * H.blockSize)) := by
  induction m generalizing chain bytes with
  | zero => simp [compressBlocks]
  | succ m ih =>
    rw [show m + 1 + n = (m + n) + 1 by omega, compressBlocks, ih, compressBlocks,
      List.drop_drop, Nat.succ_mul, Nat.add_comm]

/-- Octets after the folded blocks do not matter. -/
theorem compressBlocks_append (n : Nat) (chain : H.Chain) (xs ys : Bytes)
    (h : n * H.blockSize ≤ xs.length) :
    H.compressBlocks n chain (xs ++ ys) = H.compressBlocks n chain xs := by
  induction n generalizing chain xs with
  | zero => rfl
  | succ n ih =>
    rw [Nat.succ_mul] at h
    have hb : H.blockSize ≤ xs.length := by omega
    rw [compressBlocks, compressBlocks, List.take_append_of_le_length hb,
      List.drop_append_of_le_length hb, ih]
    rw [List.length_drop]; omega

end BlockHash

/-- A hash under way. -/
@[ext] structure Running (H : BlockHash) where
  chain : H.Chain
  /-- The octets since the last full block. -/
  pending : Bytes
  pending_lt : pending.length < H.blockSize
  /-- The octets seen so far. -/
  size : Nat

namespace Running

variable {H : BlockHash}

/-- Nothing seen yet. -/
def start (H : BlockHash) : Running H :=
  ⟨H.start, [], H.blockSize_pos, 0⟩

/-- What is left of a byte string after its full blocks is shorter than a block. -/
private theorem length_rest_lt (H : BlockHash) (bytes : Bytes) :
    (bytes.drop (bytes.length / H.blockSize * H.blockSize)).length < H.blockSize := by
  have h := Nat.div_add_mod bytes.length H.blockSize
  have hm := Nat.mod_lt bytes.length H.blockSize_pos
  rw [List.length_drop, Nat.mul_comm]
  omega

/-- Take in more of the message. -/
def absorb (r : Running H) (bytes : Bytes) : Running H :=
  let all := r.pending ++ bytes
  let full := all.length / H.blockSize
  ⟨H.compressBlocks full r.chain all, all.drop (full * H.blockSize), length_rest_lt H all,
    r.size + bytes.length⟩

/-- The hash of all that was taken in. -/
def finish (r : Running H) : Bytes :=
  let rest := r.pending ++ H.padding r.size
  H.output (H.compressBlocks (rest.length / H.blockSize) r.chain rest)

/-- Full blocks at the front of an append are counted apart. -/
private theorem div_length_append (H : BlockHash) (xs ys : Bytes) :
    (xs ++ ys).length / H.blockSize =
      xs.length / H.blockSize +
        (xs.drop (xs.length / H.blockSize * H.blockSize) ++ ys).length / H.blockSize := by
  have hle : xs.length / H.blockSize * H.blockSize ≤ xs.length := Nat.div_mul_le_self ..
  have : (xs ++ ys).length = xs.length / H.blockSize * H.blockSize +
      (xs.drop (xs.length / H.blockSize * H.blockSize) ++ ys).length := by
    simp only [List.length_append, List.length_drop]; omega
  rw [this, Nat.add_comm, Nat.add_mul_div_right _ _ H.blockSize_pos, Nat.add_comm]

/-- Taking in nothing changes nothing. -/
@[simp] theorem absorb_nil (r : Running H) : r.absorb [] = r := by
  have h : r.pending.length / H.blockSize = 0 := Nat.div_eq_of_lt r.pending_lt
  ext <;> simp [absorb, h, BlockHash.compressBlocks]

/-- Taking in two pieces is taking in their concatenation. -/
theorem absorb_absorb (r : Running H) (xs ys : Bytes) :
    (r.absorb xs).absorb ys = r.absorb (xs ++ ys) := by
  have hle : (r.pending ++ xs).length / H.blockSize * H.blockSize ≤ (r.pending ++ xs).length :=
    Nat.div_mul_le_self ..
  have hdiv := div_length_append H (r.pending ++ xs) ys
  simp only [absorb, Running.mk.injEq]
  rw [← List.append_assoc, hdiv]
  refine ⟨?_, ?_, by simp [Nat.add_assoc]⟩
  · rw [H.compressBlocks_add, H.compressBlocks_append _ _ _ _ hle,
      List.drop_append_of_le_length hle]
  · rw [Nat.add_mul, ← List.drop_drop, List.drop_append_of_le_length hle]

/-- Taking in pieces one after the other is taking them in end to end. -/
theorem foldl_absorb (parts : List Bytes) (r : Running H) :
    parts.foldl absorb r = r.absorb parts.flatten := by
  induction parts generalizing r with
  | nil => simp
  | cons p ps ih => rw [List.foldl_cons, ih, absorb_absorb, List.flatten_cons]

/-- A hash taken in at once is the hash of the message. -/
theorem finish_absorb_start (message : Bytes) :
    ((start H).absorb message).finish = H.hash message := by
  have hle : message.length / H.blockSize * H.blockSize ≤ message.length := Nat.div_mul_le_self ..
  simp only [start, absorb, finish, BlockHash.hash, List.nil_append, Nat.zero_add]
  rw [div_length_append H message (H.padding message.length), H.compressBlocks_add,
    H.compressBlocks_append _ _ _ _ hle, List.drop_append_of_le_length hle]

/-- Hashing piece by piece is hashing the pieces put end to end. -/
theorem finish_foldl_absorb (parts : List Bytes) :
    (parts.foldl absorb (start H)).finish = H.hash parts.flatten := by
  rw [foldl_absorb, finish_absorb_start]

end Running

end PackageSeal.Hash
