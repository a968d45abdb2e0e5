import Skepticoin.Datatypes
import Skepticoin.Serialization.Theorems

namespace Skepticoin

open Guard Codec

theorem reads_public_key (key : SECP256k1PublicKey) :
    Reads PublicKey.stream_deserialize key.stream_serialize key := by
  have htype := reads_safe_read (n := 1) ⟨TYPE_SECP256k1, rfl⟩
  exact htype.bind (Reads.unless (by simp) (Reads.map _ (reads_safe_read key.public_key)))

theorem consumes_public_key :
    Consumes PublicKey.stream_deserialize fun key used => key.stream_serialize = used := by
  refine ((consumes_safe_read 1).bind fun _ => (Consumes.raw _).bind fun _ =>
    (consumes_safe_read 64).bind fun bytes => Consumes.pure (SECP256k1PublicKey.mk bytes)).mono ?_
  rintro _ _ ⟨⟨_, _⟩, _, _, rfl, rfl, _, _, _, rfl, ⟨htype, rfl⟩, bytes, _, _, rfl, rfl, rfl, rfl⟩
  rw [raiseIf_eq_ok, not_not] at htype
  simp [SECP256k1PublicKey.stream_serialize, ← htype]

theorem coinbase_data_new (data : CoinbaseData) :
    CoinbaseData.new data.height data.signature = .ok data := by
  simp [CoinbaseData.new, data.height_le, data.signature_le]

theorem coinbase_data_new_eq_ok {height : Nat} {signature : Bytes} {data : CoinbaseData}
    (h : CoinbaseData.new height signature = .ok data) :
    data.height = height ∧ data.signature = signature := by
  unfold CoinbaseData.new at h
  split at h
  · split at h
    · cases h
      exact ⟨rfl, rfl⟩
    · cases h
  · cases h

theorem coinbase_data_serialize_eq_ok {data : CoinbaseData} {bytes : Bytes} :
    data.stream_serialize = .ok bytes ↔ ∃ height length, pack 4 data.height = .ok height ∧
      pack 1 data.signature.length = .ok length ∧
      TYPE_COINBASE_DATA ++ height ++ length ++ data.signature = bytes := by
  simp only [CoinbaseData.stream_serialize, bind_eq_ok, pure_eq_ok]
  constructor
  · rintro ⟨height, hh, length, hl, rfl⟩
    exact ⟨height, length, hh, hl, rfl⟩
  · rintro ⟨height, length, hh, hl, rfl⟩
    exact ⟨height, hh, length, hl, rfl⟩

theorem reads_coinbase_data {data : CoinbaseData} {height length : Bytes}
    (hh : pack 4 data.height = .ok height) (hl : pack 1 data.signature.length = .ok length) :
    Reads CoinbaseData.stream_deserialize (height ++ (length ++ data.signature)) data := by
  have hsig := reads_safe_read (n := data.signature.length) ⟨data.signature, rfl⟩
  exact (reads_unpack hh).bind ((reads_unpack hl).bind (hsig.check (coinbase_data_new data)))

theorem consumes_coinbase_data :
    Consumes CoinbaseData.stream_deserialize fun data used =>
      data.stream_serialize = .ok (TYPE_COINBASE_DATA ++ used) := by
  refine ((consumes_unpack 4).bind fun _ => (consumes_unpack 1).bind fun length =>
    (consumes_safe_read length).bind fun _ => Consumes.raw _).mono ?_
  rintro data _ ⟨height, hbytes, _, rfl, hh, length, lbytes, _, rfl, hl, ⟨signature, hlen⟩, _, _, rfl, rfl,
    hnew, rfl⟩
  obtain ⟨rfl, rfl⟩ := coinbase_data_new_eq_ok hnew
  subst hlen
  exact coinbase_data_serialize_eq_ok.mpr ⟨hbytes, lbytes, hh, hl, by simp⟩

theorem reads_signature {signature : Signature} {bytes : Bytes}
    (h : signature.stream_serialize = .ok bytes) : Reads Signature.stream_deserialize bytes signature := by
  cases signature with
  | SignableEquivalent =>
      cases h
      exact (reads_safe_read (n := 1) ⟨TYPE_SIGNABLE_EQUIVALENT, rfl⟩).bind (Reads.pure _)
  | CoinbaseData data =>
      obtain ⟨height, length, hh, hl, rfl⟩ := coinbase_data_serialize_eq_ok.mp h
      rw [List.append_assoc, List.append_assoc]
      exact (reads_safe_read (n := 1) ⟨TYPE_COINBASE_DATA, rfl⟩).bind
        (Reads.map _ (reads_coinbase_data hh hl))
  | SECP256k1Signature signature =>
      cases h
      exact (reads_safe_read (n := 1) ⟨TYPE_SECP256k1, rfl⟩).bind
        (Reads.map _ (reads_safe_read signature))

theorem consumes_signature :
    Consumes Signature.stream_deserialize fun signature used => signature.stream_serialize = .ok used := by
  have hbody : ∀ type_indicator : FixedBytes 1, Consumes
      (if type_indicator.1 = TYPE_SIGNABLE_EQUIVALENT then pure Signature.SignableEquivalent
      else if type_indicator.1 = TYPE_COINBASE_DATA then do
        let data ← CoinbaseData.stream_deserialize
        return Signature.CoinbaseData data
      else if type_indicator.1 = TYPE_SECP256k1 then do
        let signature ← safe_read 64
        return Signature.SECP256k1Signature signature
      else raw (.error (.DeserializationError "Non-supported signature type.")) : Stream Signature)
      fun signature used => signature.stream_serialize = .ok (type_indicator.1 ++ used) := by
    intro type_indicator
    split_ifs with h0 h1 h2
    · refine (Consumes.pure _).mono ?_
      rintro _ _ ⟨rfl, rfl⟩
      simp [Signature.stream_serialize, h0]
    · refine (consumes_coinbase_data.bind fun data => Consumes.pure (Signature.CoinbaseData data)).mono ?_
      rintro _ _ ⟨data, used, _, rfl, hdata, rfl, rfl⟩
      rw [List.append_nil, h1]
      exact hdata
    · refine ((consumes_safe_read 64).bind fun signature =>
        Consumes.pure (Signature.SECP256k1Signature signature)).mono ?_
      rintro _ _ ⟨signature, _, _, rfl, rfl, rfl, rfl⟩
      simp [Signature.stream_serialize, h2]
    · refine (Consumes.raw _).mono ?_
      rintro _ _ ⟨h, _⟩
      cases h
  refine ((consumes_safe_read 1).bind hbody).mono ?_
  rintro signature _ ⟨type_indicator, _, used, rfl, rfl, h⟩
  exact h

theorem output_reference_new (reference : OutputReference) :
    OutputReference.new reference.hash reference.index = .ok reference := by
  simp [OutputReference.new, reference.index_le]

theorem output_reference_new_eq_ok {hash : Hash} {index : Nat} {reference : OutputReference}
    (h : OutputReference.new hash index = .ok reference) :
    reference.hash = hash ∧ reference.index = index := by
  unfold OutputReference.new at h
  split at h
  · cases h
    exact ⟨rfl, rfl⟩
  · cases h

theorem reads_output_reference {reference : OutputReference} {bytes : Bytes}
    (h : reference.stream_serialize = .ok bytes) :
    Reads OutputReference.stream_deserialize bytes reference := by
  simp only [OutputReference.stream_serialize, bind_eq_ok, pure_eq_ok] at h
  obtain ⟨index, hindex, rfl⟩ := h
  exact (reads_safe_read reference.hash).bind
    ((reads_unpack hindex).check (output_reference_new reference))

theorem consumes_output_reference :
    Consumes OutputReference.stream_deserialize fun reference used =>
      reference.stream_serialize = .ok used := by
  refine ((consumes_safe_read 32).bind fun _ => (consumes_unpack 4).bind fun _ =>
    Consumes.raw _).mono ?_
  rintro reference _ ⟨hash, _, _, rfl, rfl, index, bytes, _, rfl, hindex, hnew, rfl⟩
  obtain ⟨rfl, rfl⟩ := output_reference_new_eq_ok hnew
  simp [OutputReference.stream_serialize, hindex]

theorem input_serialize_eq_ok {input : Input} {bytes : Bytes} :
    input.stream_serialize = .ok bytes ↔ ∃ reference signature signed,
      input.output_reference.stream_serialize = .ok reference ∧ input.signature = some signature ∧
      signature.stream_serialize = .ok signed ∧ reference ++ signed = bytes := by
  obtain ⟨output_reference, signature⟩ := input
  simp only [Input.stream_serialize, bind_eq_ok]
  cases signature with
  | none => simp
  | some signature => simp

theorem reads_input {input : Input} {bytes : Bytes} (h : input.stream_serialize = .ok bytes) :
    Reads Input.stream_deserialize bytes input := by
  obtain ⟨reference, signature, signed, href, hsome, hsigned, rfl⟩ := input_serialize_eq_ok.mp h
  obtain ⟨output_reference, _⟩ := input
  cases hsome
  exact (reads_output_reference href).bind (Reads.map _ (reads_signature hsigned))

theorem consumes_input :
    Consumes Input.stream_deserialize fun input used => input.stream_serialize = .ok used := by
  refine (consumes_output_reference.bind fun reference => consumes_signature.bind fun signature =>
    Consumes.pure (Input.mk reference (some signature))).mono ?_
  rintro _ _ ⟨reference, first, _, rfl, href, signature, second, _, rfl, hsig, rfl, rfl⟩
  exact input_serialize_eq_ok.mpr ⟨first, signature, second, href, rfl, hsig, by simp⟩

theorem reads_output {output : Output} {bytes : Bytes} (h : output.stream_serialize = .ok bytes) :
    Reads Output.stream_deserialize bytes output := by
  simp only [Output.stream_serialize, bind_eq_ok, pure_eq_ok] at h
  obtain ⟨value, hvalue, rfl⟩ := h
  exact (reads_unpack hvalue).bind (Reads.map _ (reads_public_key output.public_key))

theorem consumes_output :
    Consumes Output.stream_deserialize fun output used => output.stream_serialize = .ok used := by
  refine ((consumes_unpack 8).bind fun value => consumes_public_key.bind fun key =>
    Consumes.pure (Output.mk value key)).mono ?_
  rintro _ _ ⟨value, first, _, rfl, hvalue, key, _, _, rfl, rfl, rfl, rfl⟩
  simp [Output.stream_serialize, hvalue]

end Skepticoin
