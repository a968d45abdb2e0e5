import Skepticoin.Datatypes.RoundTrip
import Skepticoin.Wallet.Selection

namespace Skepticoin

open Guard FMap Effect

variable {crypto : Crypto} {sign : Signer} {m : UnspentTransactionOuts} {wallet : Wallet}

-- Each private key makes signatures that its public key verifies.
structure KeysMatch (crypto : Crypto) (sign : Signer) (wallet : Wallet) : Prop where
  once : wallet.public_keys.Nodup
  signs : ∀ item ∈ wallet.keypairs, ∃ hlength : item.1.length = 64, ∀ i message, ∃ signature,
    sign i item.2 message = .ok signature ∧ crypto.verify ⟨item.1, hlength⟩ signature message = .ok true

theorem KeysMatch.width (h : KeysMatch crypto sign wallet) :
    ∀ public_key ∈ wallet.public_keys, public_key.length = 64 := by
  intro public_key hpublic
  obtain ⟨item, hitem, rfl⟩ := List.mem_map.mp hpublic
  exact (h.signs item hitem).1

section Signing

variable {transaction signed : Transaction} {message : Bytes}

-- Signing leaves the message that is signed as it is.
theorem signable_equivalent_congr (hinputs : output_references signed = output_references transaction)
    (houtputs : signed.outputs = transaction.outputs) :
    signed.signable_equivalent = transaction.signable_equivalent := by
  have hmap : ∀ t : Transaction, t.inputs.map Input.signable_equivalent =
      (output_references t).map fun reference => ⟨reference, some .SignableEquivalent⟩ := by
    intro t
    rw [output_references, List.map_map]
    rfl
  rw [Transaction.signable_equivalent, Transaction.signable_equivalent, hmap, hmap, hinputs, houtputs]

-- What a signed input is.
def SignedBy (sign : Signer) (wallet : Wallet) (m : UnspentTransactionOuts) (message : Bytes) (input : Input × Nat)
    (signed : Input) : Prop :=
  ∃ output private_key signature, m.lookup input.1.output_reference = some output ∧
    Dict.get wallet.keypairs output.public_key.public_key.1 = some private_key ∧
    sign input.2 private_key message = .ok signature ∧
    signed = ⟨input.1.output_reference, some (.SECP256k1Signature signature)⟩

theorem sign_input_eq_ok {input : Input × Nat} {result : Input} :
    sign_input sign wallet m message input = .ok result ↔ SignedBy sign wallet m message input result := by
  unfold sign_input SignedBy
  cases m.lookup input.1.output_reference with
  | none => simp
  | some output =>
      simp only []
      cases hkey : Dict.get wallet.keypairs output.public_key.public_key.1 with
      | none => simp [hkey]
      | some private_key =>
          simp only [bind_eq_ok, pure_eq_ok]
          constructor
          · intro h
            obtain ⟨signature, hsignature, hresult⟩ := h
            exact ⟨output, private_key, signature, rfl, hkey, hsignature, hresult.symm⟩
          · intro h
            obtain ⟨output', private_key', signature, houtput, hkey', hsignature, hresult⟩ := h
            obtain rfl := Option.some.inj houtput
            obtain rfl := Option.some.inj (hkey.symm.trans hkey')
            exact ⟨signature, hsignature, hresult.symm⟩

theorem sign_transaction_eq_ok :
    sign_transaction sign wallet m transaction = .ok signed ↔
      ∃ message inputs, transaction.signable_equivalent.serialize = .ok message ∧
        List.Forall₂ (SignedBy sign wallet m message) transaction.signable_equivalent.inputs.zipIdx inputs ∧
        { inputs := inputs, outputs := transaction.outputs } = signed := by
  simp only [sign_transaction, bind_eq_ok, pure_eq_ok, collect_eq_ok, sign_input_eq_ok]
  constructor
  · intro h
    obtain ⟨message, hmessage, inputs, hinputs, hsigned⟩ := h
    exact ⟨message, inputs, hmessage, hinputs, hsigned⟩
  · intro h
    obtain ⟨message, inputs, hmessage, hinputs, hsigned⟩ := h
    exact ⟨message, hmessage, inputs, hinputs, hsigned⟩

theorem signed_references {inputs : List (Input × Nat)} {results : List Input}
    (h : List.Forall₂ (SignedBy sign wallet m message) inputs results) :
    results.map (fun input => input.output_reference) = inputs.map fun input => input.1.output_reference := by
  induction h with
  | nil => rfl
  | cons hfirst _ ih =>
      obtain ⟨_, _, _, _, _, _, rfl⟩ := hfirst
      rw [List.map_cons, List.map_cons, ih]

theorem signed_output_references (h : sign_transaction sign wallet m transaction = .ok signed) :
    output_references signed = output_references transaction ∧ signed.outputs = transaction.outputs := by
  obtain ⟨message, inputs, _, hinputs, rfl⟩ := sign_transaction_eq_ok.mp h
  refine ⟨?_, rfl⟩
  have hindexed : transaction.signable_equivalent.inputs.zipIdx.map (fun input => input.1.output_reference) =
      (transaction.signable_equivalent.inputs.zipIdx.map Prod.fst).map Input.output_reference := by
    rw [List.map_map]
    rfl
  have hsame : transaction.signable_equivalent.inputs.map Input.output_reference = output_references transaction := by
    rw [Transaction.signable_equivalent, List.map_map]
    rfl
  rw [output_references, ← hsame, ← List.zipIdx_map_fst 0 transaction.signable_equivalent.inputs, ← hindexed]
  exact signed_references hinputs

-- A wallet can sign for outputs paid to its keys, where the format can hold what
-- the transaction pays.
theorem sign_transaction_ok (hkeys : KeysMatch crypto sign wallet)
    (howned : ∀ reference ∈ output_references transaction, ∃ output, m.lookup reference = some output ∧
      output.public_key.public_key.1 ∈ wallet.public_keys)
    (hfits : ∀ output ∈ transaction.outputs, output.Fits) :
    ∃ signed, sign_transaction sign wallet m transaction = .ok signed := by
  obtain ⟨message, hmessage⟩ : ∃ message, transaction.signable_equivalent.serialize = .ok message := by
    apply transaction_serialize_ok
    refine ⟨?_, hfits⟩
    intro input hinput
    obtain ⟨original, _, rfl⟩ := List.mem_map.mp hinput
    exact ⟨.SignableEquivalent, rfl, trivial⟩
  obtain ⟨inputs, hinputs⟩ := collect_ok (sign_input sign wallet m message)
    transaction.signable_equivalent.inputs.zipIdx (by
      intro input hinput
      have hmem := List.fst_mem_of_mem_zipIdx hinput
      obtain ⟨original, horiginal, hsignable⟩ := List.mem_map.mp hmem
      obtain ⟨output, hlookup, hkey⟩ := howned original.output_reference (List.mem_map_of_mem horiginal)
      obtain ⟨item, hitem, hpublic⟩ := List.mem_map.mp hkey
      obtain ⟨_, hsigns⟩ := hkeys.signs item hitem
      obtain ⟨signature, hsignature, _⟩ := hsigns input.2 message
      have hget : Dict.get wallet.keypairs output.public_key.public_key.1 = some item.2 :=
        Dict.get_of_mem hkeys.once (hpublic ▸ hitem)
      exact ⟨_, sign_input_eq_ok.mpr ⟨output, item.2, signature, hsignable ▸ hlookup, hget, hsignature, rfl⟩⟩)
  refine ⟨_, sign_transaction_eq_ok.mpr ⟨message, inputs, hmessage, ?_, rfl⟩⟩
  exact (collect_eq_ok.mp hinputs).imp fun _ _ hinput => sign_input_eq_ok.mp hinput

-- The signatures are the ones that the validator asks for.
theorem signed_spends (hkeys : KeysMatch crypto sign wallet)
    (h : sign_transaction sign wallet m transaction = .ok signed) :
    collect (validate_spend crypto m signed) signed.inputs = .ok ((output_references signed).map (worth m)) := by
  obtain ⟨hreferences, houtputs⟩ := signed_output_references h
  have hsignable := signable_equivalent_congr hreferences houtputs
  obtain ⟨message, inputs, hmessage, hinputs, hsigned⟩ := sign_transaction_eq_ok.mp h
  have hsignedInputs : signed.inputs = inputs := by rw [← hsigned]
  rw [collect_eq_ok, output_references, List.map_map, List.forall₂_map_right_iff, List.forall₂_same, hsignedInputs]
  intro input hinput
  obtain ⟨original, _, output, private_key, signature, hlookup, hget, hsignature, hself⟩ :=
    forall₂_mem_left hinputs.flip hinput
  obtain ⟨hlength, hsigns⟩ := hkeys.signs _ (Dict.mem_of_get hget)
  obtain ⟨signature', hsignature', hverify⟩ := hsigns original.2 message
  rw [← Except.ok.inj (hsignature.symm.trans hsignature')] at hverify
  have hworth : worth m input.output_reference = output.value := by
    rw [hself, worth, measureAt, hlookup, Option.elim_some]
  refine validate_spend_eq_ok.mpr ⟨output, by rw [hself]; exact hlookup, ?_, hworth.symm⟩
  simp [validate_signature_for_spend, hsignable, hmessage, hself, Signature.validate, hverify]

-- What is signed has been written, so that its outputs fit the format.
theorem sign_transaction_fits (h : sign_transaction sign wallet m transaction = .ok signed) :
    ∀ output ∈ transaction.outputs, output.Fits := by
  obtain ⟨message, _, hmessage, _, _⟩ := sign_transaction_eq_ok.mp h
  obtain ⟨_, written, _, hwritten, _⟩ := transaction_serialize_eq_ok.mp hmessage
  obtain ⟨_, elems, _, helems, _⟩ := serialize_list_eq_ok.mp hwritten
  intro output houtput
  obtain ⟨bytes, _, hbytes⟩ := forall₂_mem_left (collect_eq_ok.mp helems) houtput
  simp only [Output.stream_serialize, bind_eq_ok, pure_eq_ok] at hbytes
  obtain ⟨value, hvalue, _⟩ := hbytes
  have hlt := (pack_eq_ok.mp hvalue).1
  show output.value < 2 ^ 64
  omega

end Signing

-- The signatures that residues verify.
def sample_sign : Signer := fun _ private_key _ =>
  if h : private_key.length = 64 then .ok ⟨private_key, h⟩ else .error .AssertionError

theorem sample_keys_match : KeysMatch .residue sample_sign Wallet.sample_wallet where
  once := List.nodup_singleton _
  signs := by
    intro item hitem
    obtain rfl : item = (sample_key.public_key.1, sample_key.public_key.1) := List.mem_singleton.mp hitem
    refine ⟨sample_key.public_key.2, ?_⟩
    intro i message
    exact ⟨sample_key.public_key, dif_pos sample_key.public_key.2, by simp [Crypto.residue]⟩

end Skepticoin
