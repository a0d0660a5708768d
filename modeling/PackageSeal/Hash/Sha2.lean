import PackageSeal.Hash.Block

/-!
# The SHA-2 family

The two members used here share everything but the word: its width, and the amounts by which the
mixing functions rotate and shift. The constants of the narrow member are the high halves of those
of the wide one, so one table serves both.
-/

namespace PackageSeal.Hash

/-- What fixes one member of the family over words `W`. -/
structure Sha2 (W : Type) where
  add : W → W → W
  xor : W → W → W
  and : W → W → W
  not : W → W
  /-- Mixing of the first state word in a round. -/
  sumA : W → W
  /-- Mixing of the fifth state word in a round. -/
  sumE : W → W
  /-- Mixing of the fifteenth word back in the schedule. -/
  near : W → W
  /-- Mixing of the second word back in the schedule. -/
  far : W → W
  /-- Octets of a word. -/
  width : Nat
  ofNat : Nat → W
  toNat : W → Nat
  /-- The round constants, as many as there are rounds. -/
  constants : List W
  start : List W

namespace Sha2

variable {W : Type} (S : Sha2 W)

/-- The words of a block, first word first. -/
@[specialize] def words (block : Bytes) : List W :=
  (pieces S.width block).map fun octets => S.ofNat (ofBigEndian octets)

/-- The message schedule, newest word first, extended by `n` words. -/
@[specialize] def extend : Nat → List W → List W
  | 0, schedule => schedule
  | n + 1, schedule =>
    let zero := S.ofNat 0
    let back (i : Nat) := schedule.getD (i - 1) zero
    extend n
      (S.add (S.add (S.far (back 2)) (back 7)) (S.add (S.near (back 15)) (back 16)) :: schedule)

/-- One round with a schedule word and its constant. -/
@[specialize] def round (state : List W) (input : W × W) : List W :=
  match state with
  | [a, b, c, d, e, f, g, h] =>
    let choice := S.xor (S.and e f) (S.and (S.not e) g)
    let majority := S.xor (S.xor (S.and a b) (S.and a c)) (S.and b c)
    let t := S.add (S.add h (S.sumE e)) (S.add choice (S.add input.1 input.2))
    [S.add t (S.add (S.sumA a) majority), a, b, c, S.add d t, e, f, g]
  | other => other

/-- Fold one block into the state. -/
@[specialize] def compress (state : List W) (block : Bytes) : List W :=
  let schedule := (S.extend (S.constants.length - 16) (S.words block).reverse).reverse
  let mixed := (schedule.zip S.constants).foldl S.round state
  List.zipWith S.add state mixed

/-- The state as octets. -/
def output (state : List W) : Bytes :=
  state.flatMap fun w => bigEndian S.width (S.toNat w)

theorem length_round (state : List W) (input : W × W) :
    (S.round state input).length = state.length := by
  unfold round
  split <;> rfl

theorem length_compress (state : List W) (block : Bytes) :
    (S.compress state block).length = state.length := by
  have hfold : ∀ (inputs : List (W × W)) (state : List W),
      (inputs.foldl S.round state).length = state.length := by
    intro inputs
    induction inputs with
    | nil => intro state; rfl
    | cons i is ih => intro state; rw [List.foldl_cons, ih, S.length_round]
  simp [compress, hfold]

/-- A state is written in as many words as it has. -/
theorem length_output (state : List W) : (S.output state).length = state.length * S.width := by
  induction state with
  | nil => simp [output]
  | cons w ws ih =>
    simp only [output, List.flatMap_cons, List.length_append, length_bigEndian] at ih ⊢
    rw [ih, List.length_cons, Nat.succ_mul, Nat.add_comm]

end Sha2

/-! ## Constants -/

/-- The first 64 bits of the fractional parts of the cube roots of the first eighty primes. -/
def cubeRoots : List Nat := [
    0x428a2f98d728ae22, 0x7137449123ef65cd, 0xb5c0fbcfec4d3b2f, 0xe9b5dba58189dbbc,
    0x3956c25bf348b538, 0x59f111f1b605d019, 0x923f82a4af194f9b, 0xab1c5ed5da6d8118,
    0xd807aa98a3030242, 0x12835b0145706fbe, 0x243185be4ee4b28c, 0x550c7dc3d5ffb4e2,
    0x72be5d74f27b896f, 0x80deb1fe3b1696b1, 0x9bdc06a725c71235, 0xc19bf174cf692694,
    0xe49b69c19ef14ad2, 0xefbe4786384f25e3, 0x0fc19dc68b8cd5b5, 0x240ca1cc77ac9c65,
    0x2de92c6f592b0275, 0x4a7484aa6ea6e483, 0x5cb0a9dcbd41fbd4, 0x76f988da831153b5,
    0x983e5152ee66dfab, 0xa831c66d2db43210, 0xb00327c898fb213f, 0xbf597fc7beef0ee4,
    0xc6e00bf33da88fc2, 0xd5a79147930aa725, 0x06ca6351e003826f, 0x142929670a0e6e70,
    0x27b70a8546d22ffc, 0x2e1b21385c26c926, 0x4d2c6dfc5ac42aed, 0x53380d139d95b3df,
    0x650a73548baf63de, 0x766a0abb3c77b2a8, 0x81c2c92e47edaee6, 0x92722c851482353b,
    0xa2bfe8a14cf10364, 0xa81a664bbc423001, 0xc24b8b70d0f89791, 0xc76c51a30654be30,
    0xd192e819d6ef5218, 0xd69906245565a910, 0xf40e35855771202a, 0x106aa07032bbd1b8,
    0x19a4c116b8d2d0c8, 0x1e376c085141ab53, 0x2748774cdf8eeb99, 0x34b0bcb5e19b48a8,
    0x391c0cb3c5c95a63, 0x4ed8aa4ae3418acb, 0x5b9cca4f7763e373, 0x682e6ff3d6b2b8a3,
    0x748f82ee5defb2fc, 0x78a5636f43172f60, 0x84c87814a1f0ab72, 0x8cc702081a6439ec,
    0x90befffa23631e28, 0xa4506cebde82bde9, 0xbef9a3f7b2c67915, 0xc67178f2e372532b,
    0xca273eceea26619c, 0xd186b8c721c0c207, 0xeada7dd6cde0eb1e, 0xf57d4f7fee6ed178,
    0x06f067aa72176fba, 0x0a637dc5a2c898a6, 0x113f9804bef90dae, 0x1b710b35131c471b,
    0x28db77f523047d84, 0x32caab7b40c72493, 0x3c9ebe0a15c9bebc, 0x431d67c49c100d4c,
    0x4cc5d4becb3e42b6, 0x597f299cfc657e2a, 0x5fcb6fab3ad6faec, 0x6c44198c4a475817]

/-- The first 64 bits of the fractional parts of the square roots of the first eight primes. -/
def squareRoots : List Nat := [
    0x6a09e667f3bcc908, 0xbb67ae8584caa73b, 0x3c6ef372fe94f82b, 0xa54ff53a5f1d36f1,
    0x510e527fade682d1, 0x9b05688c2b3e6c1f, 0x1f83d9abfb41bd6b, 0x5be0cd19137e2179]

/-! ## The two members -/

/-- Rotation of a 32-bit word to the right. -/
private def rotate32 (n x : UInt32) : UInt32 :=
  (x >>> n) ||| (x <<< (32 - n))

/-- Rotation of a 64-bit word to the right. -/
private def rotate64 (n x : UInt64) : UInt64 :=
  (x >>> n) ||| (x <<< (64 - n))

/-- The member with words of 32 bits. -/
def narrow : Sha2 UInt32 where
  add := (· + ·)
  xor := (· ^^^ ·)
  and := (· &&& ·)
  not := (~~~ ·)
  sumA x := rotate32 2 x ^^^ rotate32 13 x ^^^ rotate32 22 x
  sumE x := rotate32 6 x ^^^ rotate32 11 x ^^^ rotate32 25 x
  near x := rotate32 7 x ^^^ rotate32 18 x ^^^ (x >>> 3)
  far x := rotate32 17 x ^^^ rotate32 19 x ^^^ (x >>> 10)
  width := 4
  ofNat := UInt32.ofNat
  toNat := UInt32.toNat
  constants := (cubeRoots.take 64).map fun k => UInt32.ofNat (k >>> 32)
  start := squareRoots.map fun k => UInt32.ofNat (k >>> 32)

/-- The member with words of 64 bits. -/
def wide : Sha2 UInt64 where
  add := (· + ·)
  xor := (· ^^^ ·)
  and := (· &&& ·)
  not := (~~~ ·)
  sumA x := rotate64 28 x ^^^ rotate64 34 x ^^^ rotate64 39 x
  sumE x := rotate64 14 x ^^^ rotate64 18 x ^^^ rotate64 41 x
  near x := rotate64 1 x ^^^ rotate64 8 x ^^^ (x >>> 7)
  far x := rotate64 19 x ^^^ rotate64 61 x ^^^ (x >>> 6)
  width := 8
  ofNat := UInt64.ofNat
  toNat := UInt64.toNat
  constants := cubeRoots.map UInt64.ofNat
  start := squareRoots.map UInt64.ofNat

/-- SHA-256: blocks of 64 octets, 32 octets out. -/
def sha256 : BlockHash where
  Chain := List UInt32
  blockSize := 64
  blockSize_pos := by decide
  lengthSize := 8
  start := narrow.start
  compress := narrow.compress
  output := narrow.output

/-- SHA-512: blocks of 128 octets, 64 octets out. -/
def sha512 : BlockHash where
  Chain := List UInt64
  blockSize := 128
  blockSize_pos := by decide
  lengthSize := 16
  start := wide.start
  compress := wide.compress
  output := wide.output

/-- A fold over blocks keeps the number of words when the compression does. -/
private theorem length_compressBlocks (H : BlockHash) {W : Type} (words : H.Chain → List W)
    (hc : ∀ chain block, (words (H.compress chain block)).length = (words chain).length)
    (n : Nat) (chain : H.Chain) (bytes : Bytes) :
    (words (H.compressBlocks n chain bytes)).length = (words chain).length := by
  induction n generalizing chain bytes with
  | zero => rfl
  | succ n ih => rw [BlockHash.compressBlocks, ih, hc]

theorem length_sha256 (message : Bytes) : (sha256.hash message).length = 32 := by
  have h := length_compressBlocks sha256 (fun c : List UInt32 => c) (narrow.length_compress)
    ((message ++ sha256.padding message.length).length / sha256.blockSize) sha256.start
    (message ++ sha256.padding message.length)
  have ho := narrow.length_output (sha256.compressBlocks
    ((message ++ sha256.padding message.length).length / sha256.blockSize) sha256.start
    (message ++ sha256.padding message.length))
  rw [h] at ho
  exact ho

end PackageSeal.Hash
