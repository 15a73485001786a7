import Gocoin.Trie.Hasher
import Gocoin.Protocol.Tx

/-!
# Protocol/Block — headers, blocks and their hashes

`protocol/block.go` and `protocol/derive_sha.go`.  A block is a header and a body; it is named by
the hash of its header, signatures are made over the hash of the header without its signature, and
the transactions are summarised by the root of a trie that maps positions to transactions.
-/

namespace Gocoin

open Rlp Trie

/-- `Header`. -/
structure Header where
  uncleHash : Hash
  number : ℕ
  idIndex : ℕ
  walletID : UInt64
  groupID : UInt32
  timestamp : ℕ
  gasUsed : ℤ
  version : Bytes
  percent : Bytes
  pk : Bytes
  sign : Bytes
  liquidationHash : Bytes
  extraIndex : FixedBytes 4
  spaceRoot : Hash
  accRoot : Hash
  groupRoot : Hash
  coinRoot : Hash
  txHash : Hash
  consensusGroupHash : Hash
  extraHash : Hash
  deriving DecidableEq

/-- `Block` with its `Block_Body`. -/
structure Block where
  header : Header
  transactions : List Tx
  extraData : Bytes
  deriving DecidableEq

namespace Header

/-- The list `rlp` makes of a header, its fields in the order of the structure. -/
def item (h : Header) : Option Item :=
  (Item.ofInt? h.gasUsed).map fun gasUsed =>
    .list [.str h.uncleHash.bytes, .ofNat h.number, .ofNat h.idIndex, .ofNat h.walletID.toNat,
      .ofNat h.groupID.toNat, .ofNat h.timestamp, gasUsed, .str h.version, .str h.percent,
      .str h.pk, .str h.sign, .str h.liquidationHash, .str h.extraIndex.bytes,
      .str h.spaceRoot.bytes, .str h.accRoot.bytes, .str h.groupRoot.bytes, .str h.coinRoot.bytes,
      .str h.txHash.bytes, .str h.consensusGroupHash.bytes, .str h.extraHash.bytes]

/-- `Hash`. -/
def hash (keccak : HashFn) (h : Header) : Hash := rlpHash keccak h.item

/-- `HashNoSig`: every field but the signature, in an order of its own. -/
def hashNoSig (keccak : HashFn) (h : Header) : Hash :=
  rlpHash keccak <| (Item.ofInt? h.gasUsed).map fun gasUsed =>
    .list [.str h.uncleHash.bytes, .ofNat h.number, .ofNat h.idIndex, .ofNat h.groupID.toNat,
      .ofNat h.walletID.toNat, .ofNat h.timestamp, gasUsed, .str h.version, .str h.percent,
      .str h.pk, .str h.extraIndex.bytes, .str h.spaceRoot.bytes, .str h.accRoot.bytes,
      .str h.groupRoot.bytes, .str h.coinRoot.bytes, .str h.txHash.bytes,
      .str h.consensusGroupHash.bytes, .str h.extraHash.bytes, .str h.liquidationHash]

end Header

namespace Block

/-- `Hash`. -/
def hash (keccak : HashFn) (b : Block) : Hash := b.header.hash keccak

variable (b : Block)

/-- `GetNumberU64`. -/
def numberU64 : UInt64 := u64 b.header.number

/-- `GetGasUsedU64`. -/
def gasUsedU64 : UInt64 := intU64 b.header.gasUsed

/-- `GetSpaceIndexU64`. -/
def spaceIndexU64 : UInt64 := u64 b.header.idIndex

/-- The list `rlp` makes of a `Block_Body`. -/
def bodyItem : Option Item :=
  (b.transactions.mapM Tx.item).map fun txs => .list [.list txs, .str b.extraData]

/-- `SetSigner`; an empty signature is not set. -/
def setSigner (sig : Bytes) : Block :=
  if sig.length > 0 then { b with header := { b.header with sign := sig } } else b

/-- Signing changes the signature only. -/
theorem exists_setSigner (sig : Bytes) :
    ∃ sign, b.setSigner sig = { b with header := { b.header with sign } } := by
  unfold setSigner
  split
  · exact ⟨sig, rfl⟩
  · exact ⟨b.header.sign, rfl⟩

@[simp] theorem number_setSigner (sig : Bytes) :
    (b.setSigner sig).header.number = b.header.number := by
  obtain ⟨sign, h⟩ := b.exists_setSigner sig
  rw [h]

theorem hashNoSig_setSigner (keccak : HashFn) (b : Block) (sig : Bytes) :
    (b.setSigner sig).header.hashNoSig keccak = b.header.hashNoSig keccak := by
  unfold setSigner
  split <;> rfl

end Block

/-! ## The transaction root -/

/-- The loop of `DeriveSha`: transaction after transaction, from position `i` on. -/
def deriveFrom : Trie → ℕ → List Tx → Except TrieErr Trie
  | t, _, [] => .ok t
  | t, i, tx :: txs => do
    let t ← t.tryUpdate (fun _ => none) (Rlp.encode (.ofNat i))
      ((tx.item.map Rlp.encode).getD [])
    deriveFrom t (i + 1) txs

/-- `DeriveSha`: the root of the trie of the transactions under their encoded positions. -/
def deriveSha (keccak : HashFn) (txs : List Tx) : Option Hash :=
  match deriveFrom ⟨.nil, 0, 0⟩ 0 txs with
  | .error _ => none
  | .ok t =>
    match t.hash keccak with
    | .error _ => none
    | .ok r => some r.1

end Gocoin
