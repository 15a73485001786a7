import Gocoin.ValidateGroup.Group

/-!
# Protocol/Tx — transactions and their senders

`protocol/tx.go` and `protocol/tx_signing.go`.  A transaction carries a cost, a recipient, an
amount, a time, a payload whose first byte is its type, and a signature; its sender is recovered
from the signature over a hash of the cost, the recipient, the amount and the payload.
-/

namespace Gocoin

open Rlp

/-- The transaction types, by the first byte of the payload; every other byte, the contract types 13
and 14 among them, is executed by no switch. -/
inductive TxKind where
  | spaceCreation
  | recharge
  | attrSet
  | createGroup
  | publishCoin
  | epochTx
  | epochSigTx
  | applyGroup
  | stellReport
  | stellGroup
  | coinGroup
  | transactionGroup
  | other
  deriving DecidableEq

/-- The type of a first byte. -/
def TxKind.ofByte (b : UInt8) : TxKind :=
  match b.toNat with
  | 1 => .spaceCreation
  | 2 => .recharge
  | 3 => .attrSet
  | 4 => .createGroup
  | 5 => .publishCoin
  | 6 => .epochTx
  | 7 => .epochSigTx
  | 8 => .applyGroup
  | 9 => .stellReport
  | 10 => .stellGroup
  | 11 => .coinGroup
  | 12 => .transactionGroup
  | _ => .other

/-- `Txstruct`. -/
structure Tx where
  cost : ℤ
  recipient : Option Address
  amount : ℤ
  txtime : UInt64
  payload : Bytes
  v : ℕ
  r : ℕ
  s : ℕ
  deriving DecidableEq

namespace Tx

/-- The recipient as an item; no recipient is the empty string. -/
def recipientItem (addr : Option Address) : Item := .str ((addr.map FixedBytes.bytes).getD [])

/-- The list `rlp` makes of a transaction; negative amounts have no encoding. -/
def item (tx : Tx) : Option Item := do
  let cost ← Item.ofInt? tx.cost
  let amount ← Item.ofInt? tx.amount
  some (.list [cost, recipientItem tx.recipient, amount, .ofNat tx.txtime.toNat, .str tx.payload,
    .ofNat tx.v, .ofNat tx.r, .ofNat tx.s])

/-- `Size`: the length of the encoding. -/
def size (tx : Tx) : ℕ := ((tx.item.map Rlp.encode).getD []).length

/-- `int64` of the time, as a big integer. -/
def time (tx : Tx) : ℤ := tx.txtime.toBitVec.toInt

/-- The type in `Data()[0]`; an empty payload is an index out of range. -/
def ptype (tx : Tx) : Option TxKind := tx.payload.head?.map TxKind.ofByte

section Sender

variable (P : Prims)

/-- `Hash`. -/
def hash (tx : Tx) : Hash := rlpHash P.keccak tx.item

/-- `FrontierSigner.Hash`; the time is not signed. -/
def sigHash (tx : Tx) : Hash :=
  rlpHash P.keccak do
    let cost ← Item.ofInt? tx.cost
    let amount ← Item.ofInt? tx.amount
    some (.list [cost, recipientItem tx.recipient, amount, .str tx.payload])

/-- The order of the group of the signature curve. -/
def secp256k1N : ℕ := 0xfffffffffffffffffffffffffffffffebaaedce6af48a03bbfd25e8cd0364141

/-- `ValidateSignatureValues`, before homestead. -/
def validateSignatureValues (v : UInt8) (r s : ℕ) : Bool :=
  decide (1 ≤ r) && decide (1 ≤ s) && decide (r < secp256k1N) && decide (s < secp256k1N) &&
    (v == 0 || v == 1)

/-- `recoverPlain`. -/
def recoverPlain (sighash : Hash) (R S Vb : ℕ) : Option Address :=
  if 256 ≤ Vb then none
  else
    let V : UInt8 := (u64 Vb - 27).toUInt8
    if validateSignatureValues V R S then
      let sig := (FixedBytes.ofBytes 32 (BigEndian.toBytes R)).bytes ++
        (FixedBytes.ofBytes 32 (BigEndian.toBytes S)).bytes ++ [V]
      match P.ecrecover sighash sig with
      | some (4 :: pub) => some (FixedBytes.ofBytes 20 (P.keccak pub).bytes)
      | _ => none
    else none

/-- `Sender` with the frontier signer. -/
def sender (tx : Tx) : Option Address := recoverPlain P (tx.sigHash P) tx.r tx.s tx.v

/-- `from, _ := Sender(…)`: the zero address when the recovery fails. -/
def senderOrZero (tx : Tx) : Address := (tx.sender P).getD (.zero 20)

end Sender

end Tx

/-! ## Payloads -/

/-- `Attr`. -/
structure Attr where
  k : Bytes
  v : Bytes
  deriving DecidableEq

/-- `rlp.DecodeBytes` into an `Attr` whose error is only printed: the fields decoded before the
error keep their values. -/
def decodeAttr (b : Bytes) : Attr :=
  match Rlp.splitList b with
  | none => ⟨[], []⟩
  | some (content, _) =>
    match Rlp.splitString content with
    | none => ⟨[], []⟩
    | some (k, rest) =>
      match Rlp.splitString rest with
      | none => ⟨k, []⟩
      | some (v, _) => ⟨k, v⟩

/-- `LiquidationReport`. -/
structure LiquidationReport where
  gas : UInt64
  spaceId : ℕ
  deriving DecidableEq

/-- The report of an item. -/
def LiquidationReport.ofItem : Item → Option LiquidationReport
  | .list [gas, id] => do
    let gas ← gas.uint64?
    let spaceId ← id.nat?
    some ⟨gas, spaceId⟩
  | _ => none

/-- `rlp.DecodeBytes` into `LiquidationReports`. -/
def decodeReports (b : Bytes) : Option (List LiquidationReport) := do
  let it ← Rlp.decode b
  let xs ← it.elems?
  xs.mapM LiquidationReport.ofItem

end Gocoin
