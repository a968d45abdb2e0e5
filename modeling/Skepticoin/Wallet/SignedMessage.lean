import Skepticoin.Wallet.Signing

namespace Skepticoin

open Guard

variable {crypto : Crypto}

section Message

variable {t u : Transaction}

theorem signable_references (t : Transaction) : output_references t.signable_equivalent = output_references t := by
  rw [output_references, output_references, Transaction.signable_equivalent, List.map_map]
  rfl

-- The object that is signed has the references and the outputs of the payment,
-- and nothing else.
theorem signable_equivalent_eq_iff :
    t.signable_equivalent = u.signable_equivalent ↔
      output_references t = output_references u ∧ t.outputs = u.outputs := by
  constructor
  · intro h
    have houtputs : t.signable_equivalent.outputs = u.signable_equivalent.outputs := by rw [h]
    refine ⟨?_, houtputs⟩
    rw [← signable_references t, h, signable_references]
  · intro h
    exact signable_equivalent_congr h.1 h.2

-- A placeholder signature always fits, so the outputs alone decide.
theorem signable_fits (h : ∀ output ∈ t.outputs, output.Fits) : t.signable_equivalent.Fits := by
  refine ⟨?_, h⟩
  intro input hinput
  obtain ⟨original, _, rfl⟩ := List.mem_map.mp hinput
  exact ⟨.SignableEquivalent, rfl, trivial⟩

-- One flat byte string, from which the references and the outputs can be read
-- back.
theorem signable_serialize_inj {message : Bytes} (ht : t.signable_equivalent.serialize = .ok message)
    (hu : u.signable_equivalent.serialize = .ok message) :
    output_references t = output_references u ∧ t.outputs = u.outputs := by
  obtain ⟨hinputs, houtputs⟩ := transaction_serialize_inj ht hu
  refine ⟨?_, houtputs⟩
  rw [← signable_references t, ← signable_references u, output_references, output_references, hinputs]

end Message

section Spend

variable {input : Input} {previous_output : Output} {t : Transaction} {message : Bytes}

-- What the validator hands to the verification: the key of the output that is
-- spent, the signature of the input, and the message.
theorem validate_signature_for_spend_eq_ok (hmessage : t.signable_equivalent.serialize = .ok message) :
    validate_signature_for_spend crypto input previous_output t = .ok () ↔
      ∃ signature, input.signature = some (.SECP256k1Signature signature) ∧
        crypto.verify previous_output.public_key.public_key signature message = .ok true := by
  unfold validate_signature_for_spend
  rw [hmessage]
  cases input.signature with
  | none => simp [bind, Except.bind]
  | some signature =>
      cases signature with
      | SignableEquivalent => simp [Signature.validate]
      | CoinbaseData data => simp [Signature.validate]
      | SECP256k1Signature signature => simp [Signature.validate]

-- The wallet signs the message that the validator checks, whatever the
-- transaction was signed with before.
theorem sign_transaction_message {sign : Signer} {wallet : Wallet} {m : UnspentTransactionOuts}
    {signed : Transaction} (h : sign_transaction sign wallet m t = .ok signed) :
    signed.signable_equivalent.serialize = t.signable_equivalent.serialize := by
  obtain ⟨hreferences, houtputs⟩ := signed_output_references h
  rw [signable_equivalent_eq_iff.mpr ⟨hreferences, houtputs⟩]

end Spend

-- Two transactions are signed by the same message exactly when they make the
-- same payment, and a signature that spends in the one spends in the other
-- exactly when it verifies against the message of the other.
theorem signed_message_fixes_payment {t u : Transaction} (ht : ∀ output ∈ t.outputs, output.Fits)
    (hu : ∀ output ∈ u.outputs, output.Fits) :
    ∃ message message', t.signable_equivalent.serialize = .ok message ∧
      u.signable_equivalent.serialize = .ok message' ∧
      (message = message' ↔ output_references t = output_references u ∧ t.outputs = u.outputs) ∧
      ∀ crypto input previous_output,
        validate_signature_for_spend crypto input previous_output t = .ok () →
        ∃ signature, input.signature = some (.SECP256k1Signature signature) ∧
          crypto.verify previous_output.public_key.public_key signature message = .ok true ∧
          (validate_signature_for_spend crypto input previous_output u = .ok () ↔
            crypto.verify previous_output.public_key.public_key signature message' = .ok true) := by
  obtain ⟨message, hmessage⟩ := transaction_serialize_ok (signable_fits ht)
  obtain ⟨message', hmessage'⟩ := transaction_serialize_ok (signable_fits hu)
  refine ⟨message, message', hmessage, hmessage', ?_, ?_⟩
  · constructor
    · intro heq
      subst heq
      exact signable_serialize_inj hmessage hmessage'
    · intro hpayment
      rw [signable_equivalent_eq_iff.mpr hpayment, hmessage'] at hmessage
      exact (Except.ok.inj hmessage).symm
  · intro crypto input previous_output haccepted
    obtain ⟨signature, hsignature, hverify⟩ := (validate_signature_for_spend_eq_ok hmessage).mp haccepted
    refine ⟨signature, hsignature, hverify, ?_⟩
    rw [validate_signature_for_spend_eq_ok hmessage', hsignature]
    constructor
    · intro h
      obtain ⟨other, hother, hverified⟩ := h
      obtain rfl := Signature.SECP256k1Signature.inj (Option.some.inj hother)
      exact hverified
    · intro h
      exact ⟨signature, rfl, h⟩

-- The same payment before and after it is signed.
def sample_payment (signature : Option Signature) : Transaction where
  inputs := [⟨construct_reference_to_thin_air, signature⟩]
  outputs := [⟨5, sample_key⟩]

theorem signed_message_fixes_sample_payment :
    ∃ message message', (sample_payment none).signable_equivalent.serialize = .ok message ∧
      (sample_payment (some (.SECP256k1Signature sample_key.public_key))).signable_equivalent.serialize =
        .ok message' ∧
      message = message' := by
  have hfits : ∀ signature, ∀ output ∈ (sample_payment signature).outputs, output.Fits := by
    intro signature output houtput
    rw [List.mem_singleton.mp houtput]
    show 5 < 2 ^ 64
    decide
  obtain ⟨message, message', hmessage, hmessage', hsame, _⟩ := signed_message_fixes_payment (hfits none)
    (hfits (some (.SECP256k1Signature sample_key.public_key)))
  exact ⟨message, message', hmessage, hmessage', hsame.mpr ⟨rfl, rfl⟩⟩

end Skepticoin
