import Skepticoin.Cheating
import Skepticoin.Datatypes.Canonical

namespace Skepticoin

open Guard Codec

-- "You buy a piece of paradise ... Just believe in me", in ASCII.
def just_believe_in_me : Bytes :=
  computer 57 0x596f75206275792061207069656365206f662070617261646973650a596f75206275792061207069656365206f66206d650a49276c6c206765 ++
  computer 57 0x7420796f752065766572797468696e6720796f752077616e7465640a49276c6c2067657420796f752065766572797468696e6720796f75206e ++
  computer 57 0x6565640a446f6e2774206e65656420746f2062656c6965766520696e206865726561667465720a4a7573742062656c6965766520696e206d65

def genesis_block_data : Bytes :=
  computer 57 0x00000000000000000000000000000000000000000000000000000000000000000000616c35621abdf928185b74d57985cea7ff2d66ef318c58 ++
  computer 57 0xec7ea8dd01ed089028604e7f3101000000000000000000000000000000000000000000000000000000000000000000003aea13176dbcbf6210 ++
  computer 57 0x55bdb3d6a138be4b73229d8584cb380e1dd1bbe1cedd42820000000000000000000000000000000000000000000000000000000000000000e3 ++
  computer 57 0x8ee41a6b0f6584fe8b95bd8c8d7b4d6db961fa5c2a6fafe72ea1533dd2838b0100010000000000000000000000000000000000000000000000 ++
  computer 57 0x000000000000000000000000000100000000ab596f75206275792061207069656365206f662070617261646973650a596f7520627579206120 ++
  computer 57 0x7069656365206f66206d650a49276c6c2067657420796f752065766572797468696e6720796f752077616e7465640a49276c6c206765742079 ++
  computer 57 0x6f752065766572797468696e6720796f75206e6565640a446f6e2774206e65656420746f2062656c6965766520696e20686572656166746572 ++
  computer 57 0x0a4a7573742062656c6965766520696e206d6501000000003b9aca0002aac3faad6ddc26ec4674328741498fe74bdb0d8e49a22473a02370e5 ++
  computer 36 0x3d69b0079819d5ac3f0cd36f25578eb042ad2a7b59f84a0b5f622e41ac982f478e8cb259

-- The fields that the genesis data encodes.
def genesis_transaction : Transaction where
  inputs := [{
    output_reference := ⟨zero_hash, 0, first_index_le⟩
    signature := some (.CoinbaseData ⟨0, just_believe_in_me, by decide, by decide +kernel⟩) }]
  outputs := [{
    value := 1000000000
    public_key := ⟨.ofNat 64 0xaac3faad6ddc26ec4674328741498fe74bdb0d8e49a22473a02370e53d69b0079819d5ac3f0cd36f25578eb042ad2a7b59f84a0b5f622e41ac982f478e8cb259⟩ }]

def genesis_header : BlockHeader where
  summary := {
    height := 0
    previous_block_hash := zero_hash
    merkle_root_hash := .ofNat 32 0x616c35621abdf928185b74d57985cea7ff2d66ef318c58ec7ea8dd01ed089028
    timestamp := 1615757105
    target := .ofNat 32 0x0100000000000000000000000000000000000000000000000000000000000000
    nonce := 58 }
  pow_evidence := {
    summary_hash := .ofNat 32 0xea13176dbcbf621055bdb3d6a138be4b73229d8584cb380e1dd1bbe1cedd4282
    chain_sample := to_bytes 32 0
    block_hash := .ofNat 32 0xe38ee41a6b0f6584fe8b95bd8c8d7b4d6db961fa5c2a6fafe72ea1533dd2838b }

def genesis_header_data : Bytes := genesis_block_data.take 202

def genesis_transaction_data : Bytes := genesis_block_data.drop 203

def genesis_block (crypto : Crypto) : Block where
  header := genesis_header
  transactions := [{ genesis_transaction with
    cached_hash := some (crypto.sha256d genesis_transaction_data) }]
  cached_hash := some (crypto.sha256d genesis_header_data)

theorem genesis_header_serialize : genesis_header.serialize = .ok genesis_header_data := by
  decide +kernel

theorem genesis_transaction_serialize :
    genesis_transaction.serialize = .ok genesis_transaction_data := by
  decide +kernel

theorem genesis_block_serialize :
    Block.serialize ⟨genesis_header, [genesis_transaction], none⟩ = .ok genesis_block_data := by
  decide +kernel

theorem genesis_evidence_fits : genesis_header.pow_evidence.Fits := to_bytes_length 32 0

theorem genesis_deserialize (crypto : Crypto) :
    Block.deserialize crypto genesis_block_data = .ok (genesis_block crypto) := by
  obtain ⟨header, decoded, hheader, hdecoded, hreads⟩ :=
    strict_reads_block crypto genesis_evidence_fits genesis_block_serialize
  obtain rfl : header = genesis_header_data :=
    Except.ok.inj (hheader.symm.trans genesis_header_serialize)
  obtain ⟨transaction, rfl, bytes, hbytes, rfl⟩ : ∃ transaction, decoded = [transaction] ∧
      Recached crypto genesis_transaction transaction := by
    cases hdecoded with
    | cons h hnil =>
        cases hnil
        exact ⟨_, rfl, h⟩
  obtain rfl : bytes = genesis_transaction_data :=
    Except.ok.inj (hbytes.symm.trans genesis_transaction_serialize)
  have hrun := (refines_block crypto).reads hreads []
  rw [List.append_nil] at hrun
  simp [Block.deserialize, hrun, genesis_block]

end Skepticoin
