import PackageSeal.Ed25519

/-!
# Schemes that keep their promises

The passes of Ed25519 do not see how a message is cut. That derived keys and honest signatures are
accepted is a fact about the curve, which is taken from outside: `completed` is a scheme with it, so
that what is proved of every lawful scheme can be applied.
-/

namespace PackageSeal

namespace SignatureScheme

variable {S : SignatureScheme}

open Classical in
/-- The scheme, certainly accepting derived keys and honest signatures. -/
noncomputable def completed (S : SignatureScheme) : SignatureScheme :=
  { S with
    acceptsKey := fun key => S.acceptsKey key || decide (∃ seed, key = S.publicKey seed)
    verifies := fun key message signature => S.verifies key message signature ||
      decide (∃ seed, key = S.publicKey seed ∧ signature = S.sign seed message) }

open Classical in
/-- A scheme whose passes do not see how a message is cut is lawful once completed. -/
theorem Streams.completed_lawful (h : S.Streams) : S.completed.Lawful where
  absorb_nil := h.absorb_nil
  absorb_absorb := h.absorb_absorb
  acceptsKey_publicKey seed := by
    show (S.acceptsKey (S.publicKey seed) ||
      decide (∃ other, S.publicKey seed = S.publicKey other)) = true
    rw [Bool.or_eq_true, decide_eq_true_iff]
    exact .inr ⟨seed, rfl⟩
  verifies_sign seed message := by
    show (S.verifies (S.publicKey seed) message (S.sign seed message) ||
      decide (∃ other, S.publicKey seed = S.publicKey other ∧
        S.sign seed message = S.sign other message)) = true
    rw [Bool.or_eq_true, decide_eq_true_iff]
    exact .inr ⟨seed, rfl, rfl⟩

end SignatureScheme

/-- The passes of Ed25519 do not see how the message is cut. -/
theorem Ed25519.scheme_streams : scheme.Streams where
  absorb_nil := Hash.Running.absorb_nil
  absorb_absorb := Hash.Running.absorb_absorb

end PackageSeal
