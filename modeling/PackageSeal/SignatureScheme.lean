import PackageSeal.Bytes

/-!
# Signature schemes

A scheme signs a message in two passes, so that a message too large to hold can be read twice
instead: the first pass fixes a nonce, the second the challenge that answers it. Sealing and
verification take the scheme as an argument; `Lawful` states what they may rely on.
-/

namespace PackageSeal

/-- The secret from which a key pair is derived. -/
abbrev Seed := Octets 32

/-- A public key. -/
abbrev PublicKey := Octets 32

/-- A signature. -/
abbrev Signature := Octets 64

/-- A two-pass signature scheme. -/
structure SignatureScheme where
  /-- A pass over a message under way. -/
  State : Type
  absorb : State → Bytes → State
  /-- The start of the first pass. -/
  nonceStart : Seed → State
  /-- The start of the second pass, after a finished first one. -/
  challengeStart : Seed → State → State
  /-- The signature after both passes. -/
  finish : Seed → State → State → Signature
  publicKey : Seed → PublicKey
  /-- Whether the octets stand for a key at all. -/
  acceptsKey : PublicKey → Bool
  verifies : PublicKey → Bytes → Signature → Bool

namespace SignatureScheme

/-- The signature of a message at hand. -/
def sign (S : SignatureScheme) (seed : Seed) (message : Bytes) : Signature :=
  let nonce := S.absorb (S.nonceStart seed) message
  let challenge := S.absorb (S.challengeStart seed nonce) message
  S.finish seed nonce challenge

/-- What the passes of a scheme promise: they do not see how the message is cut. -/
structure Streams (S : SignatureScheme) : Prop where
  absorb_nil : ∀ state, S.absorb state [] = state
  absorb_absorb : ∀ state xs ys, S.absorb (S.absorb state xs) ys = S.absorb state (xs ++ ys)

/-- What a sound scheme promises: its passes do not see how the message is cut, and what a derived
key signs verifies under it. -/
structure Lawful (S : SignatureScheme) : Prop extends S.Streams where
  acceptsKey_publicKey : ∀ seed, S.acceptsKey (S.publicKey seed) = true
  verifies_sign : ∀ seed message,
    S.verifies (S.publicKey seed) message (S.sign seed message) = true

end SignatureScheme

end PackageSeal
