import Gocoin.Protocol.Decode

/-!
# Space/Database — the tables of the chain

`space/database_util.go`.  The tables share one key-value store: canonical hashes by number, headers
and bodies by number and hash, numbers by hash, places of transactions and liquidation reports by
transaction hash, and the hashes of the head.  No key has the 32 bytes of a trie node's key, and the
keys of different tables never agree.
-/

namespace Gocoin.Space

open Rlp

/-! ## Keys -/

/-- `headerPrefix`, `sh`. -/
def headerPrefix : Bytes := [0x73, 0x68]

/-- `numSuffix`, `sn`. -/
def numSuffix : Bytes := [0x73, 0x6e]

/-- `blockHashPrefix`, `sH`. -/
def blockHashPrefix : Bytes := [0x73, 0x48]

/-- `bodyPrefix`, `sb`. -/
def bodyPrefix : Bytes := [0x73, 0x62]

/-- `lookupPrefix`, `sl`. -/
def lookupPrefix : Bytes := [0x73, 0x6c]

/-- `liquidationfix`, `lr`. -/
def liquidationfix : Bytes := [0x6c, 0x72]

/-- `LastHeader`. -/
def headHeaderKey : Bytes := [0x4c, 0x61, 0x73, 0x74, 0x48, 0x65, 0x61, 0x64, 0x65, 0x72]

/-- `LastBlock`. -/
def headBlockKey : Bytes := [0x4c, 0x61, 0x73, 0x74, 0x42, 0x6c, 0x6f, 0x63, 0x6b]

/-- `LastFast`. -/
def headFastKey : Bytes := [0x4c, 0x61, 0x73, 0x74, 0x46, 0x61, 0x73, 0x74]

/-- The key of the canonical hash of a number. -/
def canonicalKey (number : UInt64) : Bytes :=
  headerPrefix ++ (encodeBlockNumber number ++ numSuffix)

/-- `headerKey`. -/
def headerKey (hash : Hash) (number : UInt64) : Bytes :=
  headerPrefix ++ (encodeBlockNumber number ++ hash.bytes)

/-- `blockBodyKey`. -/
def blockBodyKey (hash : Hash) (number : UInt64) : Bytes :=
  bodyPrefix ++ (encodeBlockNumber number ++ hash.bytes)

/-- The key of a block's number. -/
def numberKey (hash : Hash) : Bytes := blockHashPrefix ++ hash.bytes

/-- The key of a transaction's place. -/
def lookupKey (hash : Hash) : Bytes := lookupPrefix ++ hash.bytes

/-- The key of a liquidation report. -/
def liquidationKey (hash : Hash) : Bytes := liquidationfix ++ hash.bytes

/-! ## Reading and writing -/

variable (db : Db)

/-- `GetCanonicalHash`; the zero hash when there is none. -/
def getCanonicalHash (number : UInt64) : Hash :=
  match db.get (canonicalKey number) with
  | some (b :: bs) => FixedBytes.ofBytes 32 (b :: bs)
  | _ => FixedBytes.zero 32

/-- `WriteCanonicalHash`. -/
def writeCanonicalHash (hash : Hash) (number : UInt64) : Db :=
  db.put (canonicalKey number) hash.bytes

/-- `WriteHeadFastBlockHash`. -/
def writeHeadFastBlockHash (hash : Hash) : Db := db.put headFastKey hash.bytes

/-- `WriteHeadBlockHash`. -/
def writeHeadBlockHash (hash : Hash) : Db := db.put headBlockKey hash.bytes

/-- `WriteHeadHeaderHash`. -/
def writeHeadHeaderHash (hash : Hash) : Db := db.put headHeaderKey hash.bytes

/-- `GetHeaderRLP`. -/
def getHeaderRLP (hash : Hash) (number : UInt64) : Option Bytes := db.get (headerKey hash number)

/-- `GetBodyRLP`. -/
def getBodyRLP (hash : Hash) (number : UInt64) : Option Bytes := db.get (blockBodyKey hash number)

/-- `WriteBodyRLP`. -/
def writeBodyRLP (hash : Hash) (number : UInt64) (data : Bytes) : Db :=
  db.put (blockBodyKey hash number) data

/-- `WriteBody`; an encoding error ends the process. -/
def writeBody (keccak : HashFn) (db : Db) (b : Block) : Option Db :=
  b.bodyItem.map fun it => db.put (blockBodyKey (b.hash keccak) b.numberU64) (Rlp.encode it)

/-- `WriteHeader`: the number under the hash, then the header. -/
def writeHeader (keccak : HashFn) (db : Db) (h : Header) : Option Db :=
  h.item.map fun it =>
    (db.put (numberKey (h.hash keccak)) (encodeBlockNumber (u64 h.number))).put
      (headerKey (h.hash keccak) (u64 h.number)) (Rlp.encode it)

/-- `WriteBlock`: the body first, then the header. -/
def writeBlock (keccak : HashFn) (db : Db) (b : Block) : Option Db := do
  let db ← writeBody keccak db b
  writeHeader keccak db b.header

/-- `DeleteCanonicalHash`. -/
def deleteCanonicalHash (number : UInt64) : Db := db.delete (canonicalKey number)

/-- `DeleteHeader`: the number of the hash, then the header. -/
def deleteHeader (hash : Hash) (number : UInt64) : Db :=
  (db.delete (numberKey hash)).delete (headerKey hash number)

/-- `DeleteBody`. -/
def deleteBody (hash : Hash) (number : UInt64) : Db := db.delete (blockBodyKey hash number)

/-- `DeleteBlock`. -/
def deleteBlock (hash : Hash) (number : UInt64) : Db :=
  deleteBody (deleteHeader db hash number) hash number

/-! ## Where a transaction is -/

/-- `TxLookupEntry`. -/
structure TxLookupEntry where
  blockHash : Hash
  blockIndex : UInt64
  index : UInt64
  deriving DecidableEq

namespace TxLookupEntry

/-- The entry of no transaction. -/
def missing : TxLookupEntry := ⟨FixedBytes.zero 32, 0, 0⟩

/-- The list `rlp` makes of an entry. -/
def item (e : TxLookupEntry) : Item :=
  .list [.str e.blockHash.bytes, .ofNat e.blockIndex.toNat, .ofNat e.index.toNat]

/-- The entry of a list. -/
def ofItem : Item → Option TxLookupEntry
  | .list [hash, number, index] => do
    let blockHash ← FixedBytes.ofItem 32 hash
    let blockIndex ← number.uint64?
    let index ← index.uint64?
    some ⟨blockHash, blockIndex, index⟩
  | _ => none

end TxLookupEntry

/-- `GetTxLookupEntry`: no data, or data that cannot be decoded, is the entry of no transaction. -/
def getTxLookupEntry (hash : Hash) : TxLookupEntry :=
  match db.get (lookupKey hash) with
  | some (b :: bs) => ((Rlp.decode (b :: bs)).bind TxLookupEntry.ofItem).getD .missing
  | _ => .missing

/-- `WriteTxLookupEntries`: an entry for every transaction of the block, in order. -/
def writeTxLookupEntries (P : Prims) (db : Db) (b : Block) : Db :=
  b.transactions.zipIdx.foldl
    (fun db tx => db.put (lookupKey (tx.1.hash P))
      (Rlp.encode (TxLookupEntry.item ⟨b.hash P.keccak, b.numberU64, u64 tx.2⟩))) db

/-- `DeleteTxLookupEntry`. -/
def deleteTxLookupEntry (hash : Hash) : Db := db.delete (lookupKey hash)

/-! ## Liquidation reports -/

/-- `GetLiquidation`; the empty string when there is none. -/
def getLiquidation (hash : Hash) : Bytes := (db.get (liquidationKey hash)).getD []

/-- `WriteLiquidationHash`. -/
def writeLiquidationHash (hash : Hash) (data : Bytes) : Db := db.put (liquidationKey hash) data

/-- `DeleteLiquidationHash`. -/
def deleteLiquidationHash (hash : Hash) : Db := db.delete (liquidationKey hash)

end Gocoin.Space
