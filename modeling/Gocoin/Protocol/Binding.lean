import Gocoin.Protocol.Wire

/-!
# Protocol/Binding — what a header hash says about the header

`Hash` hashes the fields of a header in the order of the structure, `HashNoSig` all of them but the
signature in an order of its own.  Both lists have one element a field, so on two encodings without
collision of the hash function equal hashes are equal fields (`header_hash_binds`).
-/

namespace Gocoin

open Rlp

/-- No collision of the hash function on what two writers write; a size field holds either. -/
def NoCollision (keccak : HashFn) (w₁ w₂ : Writer) : Prop :=
  ∀ b₁ ∈ encodeToBytes w₁, ∀ b₂ ∈ encodeToBytes w₂,
    b₁.length < 2 ^ 64 ∧ (keccak b₁ = keccak b₂ → b₁ = b₂)

instance (keccak : HashFn) (w₁ w₂ : Writer) : Decidable (NoCollision keccak w₁ w₂) :=
  inferInstanceAs (Decidable (∀ b₁ ∈ encodeToBytes w₁, ∀ b₂ ∈ encodeToBytes w₂,
    b₁.length < 2 ^ 64 ∧ (keccak b₁ = keccak b₂ → b₁ = b₂)))

theorem rlpHash_eq_iff {keccak : HashFn} {w₁ w₂ : Writer} {it₁ it₂ : Item}
    (h₁ : Writes w₁ it₁) (h₂ : Writes w₂ it₂) (hfree : NoCollision keccak w₁ w₂) :
    rlpHash keccak (some it₁) = rlpHash keccak (some it₂) ↔ it₁ = it₂ := by
  constructor
  · intro h
    obtain ⟨hsize, hinj⟩ := hfree _ h₁.encodeToBytes _ h₂.encodeToBytes
    exact encode_injective hsize (hinj h)
  · intro h
    rw [h]

namespace Header

/-- The writer of the list of `HashNoSig`. -/
def writeNoSig (h : Header) : Writer :=
  writeList [writeBytes h.uncleHash.bytes, writeBigInt h.number, writeBigInt h.idIndex,
    writeUint h.groupID.toNat, writeUint h.walletID.toNat, writeBigInt h.timestamp,
    writeBigInt h.gasUsed, writeBytes h.version, writeBytes h.percent, writeBytes h.pk,
    writeBytes h.extraIndex.bytes, writeBytes h.spaceRoot.bytes, writeBytes h.accRoot.bytes,
    writeBytes h.groupRoot.bytes, writeBytes h.coinRoot.bytes, writeBytes h.txHash.bytes,
    writeBytes h.consensusGroupHash.bytes, writeBytes h.extraHash.bytes,
    writeBytes h.liquidationHash]

/-- The list of `HashNoSig`, of a header without negative integers. -/
def noSigItem (h : Header) : Item :=
  .list [.str h.uncleHash.bytes, .ofNat h.number, .ofNat h.idIndex, .ofNat h.groupID.toNat,
    .ofNat h.walletID.toNat, .ofNat h.timestamp, .ofNat h.gasUsed.toNat, .str h.version,
    .str h.percent, .str h.pk, .str h.extraIndex.bytes, .str h.spaceRoot.bytes,
    .str h.accRoot.bytes, .str h.groupRoot.bytes, .str h.coinRoot.bytes, .str h.txHash.bytes,
    .str h.consensusGroupHash.bytes, .str h.extraHash.bytes, .str h.liquidationHash]

variable {h h₁ h₂ : Header}

theorem hashNoSig_eq {keccak : HashFn} (hgas : 0 ≤ h.gasUsed) :
    h.hashNoSig keccak = rlpHash keccak (some h.noSigItem) := by
  rw [hashNoSig, Item.ofInt?_of_nonneg hgas]
  rfl

theorem writes_writeNoSig (hgas : 0 ≤ h.gasUsed) : Writes h.writeNoSig h.noSigItem := by
  refine writes_list ?_
  repeat' first
    | exact List.Forall₂.nil
    | refine List.Forall₂.cons ?_ ?_
    | exact writes_bytes _
    | exact writes_natCast _
    | exact writes_bigInt hgas
    | exact writes_uint h.walletID.toNat_lt
    | exact writes_uint (h.groupID.toNat_lt.trans (by norm_num))

/-- **Every field but the signature is in the list.** -/
theorem noSigItem_eq_iff (hgas₁ : 0 ≤ h₁.gasUsed) (hgas₂ : 0 ≤ h₂.gasUsed) :
    h₁.noSigItem = h₂.noSigItem ↔ h₁ = { h₂ with sign := h₁.sign } := by
  have hgas : h₁.gasUsed.toNat = h₂.gasUsed.toNat ↔ h₁.gasUsed = h₂.gasUsed := by omega
  cases h₁
  cases h₂
  simp only [noSigItem, Item.list.injEq, List.cons.injEq, Item.str.injEq, Item.ofNat_inj,
    ← FixedBytes.ext_bytes_iff, UInt64.toNat_inj, UInt32.toNat_inj, Header.mk.injEq, and_true,
    true_and, hgas]
  tauto

theorem item_eq_iff {it₁ it₂ : Item} (h : h₁.item = some it₁) (h' : h₂.item = some it₂) :
    it₁ = it₂ ↔ h₁ = h₂ := by
  constructor
  · rintro rfl
    exact Option.some.inj ((ofItem_item h).symm.trans (ofItem_item h'))
  · rintro rfl
    exact Option.some.inj (h.symm.trans h')

end Header

/-- **The header hashes bind the header.**  Two headers without negative integers have the same
`HashNoSig` exactly when they agree on every field but the signature, which `SetSigner` relies on;
they have the same `Hash` exactly when they agree on the signature too. -/
theorem header_hash_binds {keccak : HashFn} {h₁ h₂ : Header} (hgas₁ : 0 ≤ h₁.gasUsed)
    (hgas₂ : 0 ≤ h₂.gasUsed) :
    (NoCollision keccak h₁.writeNoSig h₂.writeNoSig →
      (h₁.hashNoSig keccak = h₂.hashNoSig keccak ↔ h₁ = { h₂ with sign := h₁.sign })) ∧
    (∀ (b : Block) (sig : Bytes),
      (b.setSigner sig).header.hashNoSig keccak = b.header.hashNoSig keccak) ∧
    (NoCollision keccak h₁.write h₂.write →
      (h₁.hash keccak = h₂.hash keccak ↔
        h₁ = { h₂ with sign := h₁.sign } ∧ h₁.sign = h₂.sign)) := by
  refine ⟨fun hfree => ?_, Block.hashNoSig_setSigner keccak, fun hfree => ?_⟩
  · rw [Header.hashNoSig_eq hgas₁, Header.hashNoSig_eq hgas₂,
      rlpHash_eq_iff (Header.writes_writeNoSig hgas₁) (Header.writes_writeNoSig hgas₂) hfree]
    exact Header.noSigItem_eq_iff hgas₁ hgas₂
  · obtain ⟨it₁, hit₁⟩ := Header.exists_item hgas₁
    obtain ⟨it₂, hit₂⟩ := Header.exists_item hgas₂
    rw [Header.hash, Header.hash, hit₁, hit₂,
      rlpHash_eq_iff (Header.writes_write hit₁) (Header.writes_write hit₂) hfree,
      Header.item_eq_iff hit₁ hit₂]
    constructor
    · rintro rfl
      exact ⟨rfl, rfl⟩
    · rintro ⟨h, hsign⟩
      rw [h, hsign]

/-- A header with a number, a group key and a signature. -/
def Sample.header (number : ℕ) (sign : Bytes) : Header where
  uncleHash := .zero 32
  number := number
  idIndex := 0
  walletID := 0
  groupID := 0
  timestamp := 0
  gasUsed := 0
  version := []
  percent := []
  pk := [1]
  sign := sign
  liquidationHash := []
  extraIndex := .zero 4
  spaceRoot := .zero 32
  accRoot := .zero 32
  groupRoot := .zero 32
  coinRoot := .zero 32
  txHash := .zero 32
  consensusGroupHash := .zero 32
  extraHash := .zero 32

/-- Another signature, another number: the signed hash sees the second only. -/
theorem header_hash_binds_sample :
    (Sample.header 1 [1]).hashNoSig Sample.keccak = (Sample.header 1 [2]).hashNoSig Sample.keccak ∧
      (Sample.header 1 [1]).hash Sample.keccak ≠ (Sample.header 1 [2]).hash Sample.keccak ∧
      (Sample.header 1 [1]).hashNoSig Sample.keccak
        ≠ (Sample.header 2 [1]).hashNoSig Sample.keccak := by
  have hgas : ∀ number sign, 0 ≤ (Sample.header number sign).gasUsed := fun _ _ => le_refl 0
  refine ⟨?_, ?_, ?_⟩
  · exact ((header_hash_binds (hgas 1 [1]) (hgas 1 [2])).1 (by decide +kernel)).mpr rfl
  · rw [ne_eq, (header_hash_binds (hgas 1 [1]) (hgas 1 [2])).2.2 (by decide +kernel)]
    decide +kernel
  · rw [ne_eq, (header_hash_binds (hgas 1 [1]) (hgas 2 [1])).1 (by decide +kernel)]
    decide +kernel

end Gocoin
