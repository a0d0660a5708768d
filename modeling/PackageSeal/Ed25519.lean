import PackageSeal.Hash.Sha2
import PackageSeal.SignatureScheme

/-!
# Ed25519

The Edwards curve `-x² + y² = 1 + d x² y²` over the integers modulo `2 ^ 255 - 19`, its points in
extended coordinates, and the signature scheme built on them with SHA-512.

Verification is strict: the scalar half of a signature lies below the group order, neither the key
nor the point half of the signature is of small order, and the recomputed point is compared octet
for octet.
-/

namespace PackageSeal.Ed25519

/-! ## The field -/

/-- The order of the field. -/
def fieldOrder : Nat := (1 <<< 255) - 19

/-- The order of the group that the base point generates. -/
def groupOrder : Nat := (1 <<< 252) + 27742317777372353535851937790883648493

private def mul (a b : Nat) : Nat := a * b % fieldOrder

private def add (a b : Nat) : Nat := (a + b) % fieldOrder

private def sub (a b : Nat) : Nat := (a + (fieldOrder - b % fieldOrder)) % fieldOrder

/-- Power by squaring, for an exponent below `2 ^ bits`. -/
private def powerBits : Nat → Nat → Nat → Nat
  | 0, _, _ => 1
  | bits + 1, base, exponent =>
    let rest := powerBits bits (mul base base) (exponent / 2)
    if exponent % 2 = 1 then mul base rest else rest

private def power (base exponent : Nat) : Nat :=
  powerBits 255 base exponent

private def inverse (a : Nat) : Nat :=
  power a (fieldOrder - 2)

/-- A square root of minus one. -/
private def rootOfMinusOne : Nat :=
  power 2 ((fieldOrder - 1) / 4)

/-- The curve's coefficient `-121665 / 121666`. -/
def coefficient : Nat :=
  mul (fieldOrder - 121665) (inverse 121666)

/-- A square root of `u / v`, if there is one. -/
private def rootOfRatio? (u v : Nat) : Option Nat :=
  let v3 := mul (mul v v) v
  let v7 := mul (mul v3 v3) v
  let candidate := mul (mul u v3) (power (mul u v7) ((fieldOrder - 5) / 8))
  let check := mul v (mul candidate candidate)
  if check = u % fieldOrder then some candidate
  else if check = sub 0 u then some (mul candidate rootOfMinusOne)
  else none

/-! ## Points -/

/-- A point `(x / z, y / z)` with `t = x y / z`. -/
structure Point where
  x : Nat
  y : Nat
  z : Nat
  t : Nat

namespace Point

/-- The neutral point. -/
def zero : Point := ⟨0, 1, 1, 0⟩

/-- The sum of two points. -/
def sum (d : Nat) (p q : Point) : Point :=
  let a := mul (sub p.y p.x) (sub q.y q.x)
  let b := mul (add p.y p.x) (add q.y q.x)
  let c := mul (mul (2 * p.t) q.t) d
  let e := mul (2 * p.z) q.z
  let f := sub b a
  let g := sub e c
  let h := add e c
  let i := add b a
  ⟨mul f g, mul h i, mul g h, mul f i⟩

/-- The point with the sign of `x` turned. -/
def negate (p : Point) : Point :=
  ⟨sub 0 p.x, p.y, p.z, sub 0 p.t⟩

/-- The multiple of a point by a number below `2 ^ bits`. -/
private def timesBits (d : Nat) : Nat → Nat → Point → Point
  | 0, _, _ => zero
  | bits + 1, n, p =>
    let rest := timesBits d bits (n / 2) (sum d p p)
    if n % 2 = 1 then sum d rest p else rest

/-- The multiple of a point by a number below `2 ^ 256`. -/
def times (n : Nat) (p : Point) : Point :=
  timesBits coefficient 256 n p

/-- Whether a point is the neutral one. -/
def isZero (p : Point) : Bool :=
  p.x % fieldOrder == 0 && p.y % fieldOrder == p.z % fieldOrder

/-- Whether eight times a point is the neutral one. -/
def hasSmallOrder (p : Point) : Bool :=
  let d := coefficient
  let twice := sum d p p
  let fourfold := sum d twice twice
  (sum d fourfold fourfold).isZero

/-- The octets of a point: `y`, with the parity of `x` in the highest bit. -/
def encode (p : Point) : Bytes :=
  let i := inverse p.z
  let x := mul p.x i
  let y := mul p.y i
  littleEndian 32 (y + (x % 2) <<< 255)

/-- The point that the octets stand for, if there is one. A `y` beyond the field is reduced, and a
sign on `x = 0` is ignored. -/
def decode? (bytes : Bytes) : Option Point := do
  let n := ofLittleEndian bytes
  let y := n % (1 <<< 255) % fieldOrder
  let square := mul y y
  let root ← rootOfRatio? (sub square 1) (add (mul coefficient square) 1)
  let x := if root % 2 = (n >>> 255) % 2 then root else sub 0 root
  pure ⟨x, y, 1, mul x y⟩

/-- The base point: `y = 4 / 5` and `x` even. -/
def base : Point :=
  (decode? (littleEndian 32 (mul 4 (inverse 5)))).getD zero

end Point

/-! ## The scheme -/

/-- The octets as a number reduced modulo the group order. -/
private def scalar (bytes : Bytes) : Nat :=
  ofLittleEndian bytes % groupOrder

/-- The secret scalar of a seed: the low half of its hash, with the three lowest bits and the
highest cleared and the second highest set. -/
private def secretScalar (seed : Seed) : Nat :=
  let low := ofLittleEndian ((Hash.sha512.hash seed.bytes).take 32)
  low % (1 <<< 254) / 8 * 8 + (1 <<< 254)

/-- The part of a seed's hash that starts the first pass. -/
private def nonceSecret (seed : Seed) : Bytes :=
  (Hash.sha512.hash seed.bytes).drop 32

private theorem length_encode (p : Point) : p.encode.length = 32 := by
  simp [Point.encode]

/-- The public key of a seed. -/
def publicKey (seed : Seed) : PublicKey :=
  ⟨(Point.base.times (secretScalar seed)).encode, length_encode _⟩

/-- The point half of a signature, from a finished first pass. -/
private def commitment (nonce : Hash.Running Hash.sha512) : Bytes :=
  (Point.base.times (scalar nonce.finish)).encode

/-- The scalar half of a signature, from both passes. -/
private def response (seed : Seed) (nonce challenge : Hash.Running Hash.sha512) : Bytes :=
  let s := (scalar challenge.finish * secretScalar seed + scalar nonce.finish) % groupOrder
  littleEndian 32 s

/-- The strict verification of a signature over a message. -/
def verifies (key : PublicKey) (message : Bytes) (signature : Signature) : Bool :=
  let r := signature.bytes.take 32
  let s := ofLittleEndian (signature.bytes.drop 32)
  match Point.decode? key.bytes, Point.decode? r with
  | some a, some commitment =>
    if s < groupOrder && !commitment.hasSmallOrder && !a.hasSmallOrder then
      let k := scalar (Hash.sha512.hash (r ++ key.bytes ++ message))
      let recomputed := Point.sum coefficient (Point.base.times s) (a.negate.times k)
      recomputed.encode == r
    else false
  | _, _ => false

/-- The scheme over SHA-512. -/
def scheme : SignatureScheme where
  State := Hash.Running Hash.sha512
  absorb := Hash.Running.absorb
  nonceStart seed := (Hash.Running.start Hash.sha512).absorb (nonceSecret seed)
  challengeStart seed nonce :=
    (Hash.Running.start Hash.sha512).absorb (commitment nonce ++ (publicKey seed).bytes)
  finish seed nonce challenge :=
    ⟨commitment nonce ++ response seed nonce challenge, by
      simp [commitment, response, length_encode]⟩
  publicKey := publicKey
  acceptsKey key := (Point.decode? key.bytes).isSome
  verifies := verifies

/-! ## Signing at once -/

/-- The signature of a message at hand: the commitment to the hash of the secret and the message,
and the response to the hash of that commitment, the key and the message. -/
def sign (seed : Seed) (message : Bytes) : Signature :=
  let r := scalar (Hash.sha512.hash (nonceSecret seed ++ message))
  let point := (Point.base.times r).encode
  let k := scalar (Hash.sha512.hash (point ++ (publicKey seed).bytes ++ message))
  ⟨point ++ littleEndian 32 ((k * secretScalar seed + r) % groupOrder),
    by simp [point, length_encode]⟩

/-- Both passes over a message make the signature of the message. -/
theorem scheme_sign (seed : Seed) (message : Bytes) :
    scheme.sign seed message = sign seed message := by
  have hfinish (prelude : Bytes) :
      (((Hash.Running.start Hash.sha512).absorb prelude).absorb message).finish =
        Hash.sha512.hash (prelude ++ message) := by
    rw [Hash.Running.absorb_absorb, Hash.Running.finish_absorb_start]
  simp only [SignatureScheme.sign, scheme, sign, commitment, response, hfinish]

end PackageSeal.Ed25519
