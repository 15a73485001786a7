import Gocoin.Space.Reopening
import Gocoin.ValidateGroup.Tables

/-!
# Space/Tables — the database as independent tables

Blocks, numbers, places of transactions, reports, heads and group lists lie in one flat key space.
A `Cell` is one entry of one kind; `Cell.key_injective` says that two cells never share a key,
whatever the bytes of their hashes and numbers: the length of a key and its first two bytes tell the
kind, and the rest is the arguments.

`Tables` is what the `Get…` functions see, one function per kind, and `Tables.apply` is what each
`Write…` and `Delete…` function does to it — an update of its own table at its own arguments and
nothing else.  **The database is the tables** (`tables_run`): reading after any sequence of
operations is applying the sequence to what was read before it.
-/

namespace Gocoin.Space

open State Rlp ValidateGroup
open Function (update)

/-- `GetHeadFastBlockHash`. -/
def getHeadFastBlockHash (db : Db) : Hash := getHash db headFastKey

/-! ## Cells and their keys -/

/-- The lists of the groups; each has a `Get…` and a `Write…` function of its own. -/
inductive GroupList where
  /-- `GetValidateGroup`, `WriteValidateGroup`. -/
  | validate
  /-- `GetThresholdGroup`, `WriteThresholdGroup`. -/
  | threshold
  /-- `GetCoinGroup`, `WriteCoinGroup`. -/
  | coin
  /-- `GetCoinValidateGroup`, `WriteCoinValidateGroup`. -/
  | coinValidate
  /-- `GetThresholdCoinGroup`, `WriteThresholdCoinGroup`. -/
  | thresholdCoin
  /-- `GetTransactionGroup`, `WriteTransactionGroup`. -/
  | transaction
  /-- `GetNewTxMembers`, `WriteNewTxMembers`. -/
  | newTx
  /-- `GetThresholdTxMembers`, `WriteThresholdTxMembers`. -/
  | thresholdTx
  /-- `GetStellGroup`, `WriteStellGroup`. -/
  | stell
  deriving DecidableEq

/-- The key of a list. -/
def GroupList.key : GroupList → Bytes
  | validate => groupMembersKey
  | threshold => thresholdMembersKey
  | coin => coinMembersKey
  | coinValidate => coingroupMembersKey
  | thresholdCoin => thresholdCoinMembersKey
  | transaction => transactionMembersKey
  | newTx => newTxMembersKey
  | thresholdTx => thresholdTxMembersKey
  | stell => stellMembersKey

/-- One entry of the database: its kind and its arguments. -/
inductive Cell where
  | canonical (number : UInt64)
  | number (hash : Hash)
  | header (hash : Hash) (number : UInt64)
  | body (hash : Hash) (number : UInt64)
  | lookup (hash : Hash)
  | liquidation (hash : Hash)
  | headHeader
  | headBlock
  | headFast
  | members (list : GroupList)
  | groupConst (hash : Hash)
  deriving DecidableEq

namespace Cell

/-- The key of a cell. -/
def key : Cell → Bytes
  | .canonical n => canonicalKey n
  | .number h => numberKey h
  | .header h n => headerKey h n
  | .body h n => blockBodyKey h n
  | .lookup h => lookupKey h
  | .liquidation h => liquidationKey h
  | .headHeader => headHeaderKey
  | .headBlock => headBlockKey
  | .headFast => headFastKey
  | .members l => l.key
  | .groupConst h => h.bytes

/-- The kinds of cells, every list of a group being a kind. -/
inductive Kind where
  | canonical | number | header | body | lookup | liquidation | headHeader | headBlock | headFast
  | members (list : GroupList)
  | groupConst
  deriving DecidableEq

/-- The kind of a cell. -/
def kind : Cell → Kind
  | canonical _ => .canonical
  | number _ => .number
  | header _ _ => .header
  | body _ _ => .body
  | lookup _ => .lookup
  | liquidation _ => .liquidation
  | headHeader => .headHeader
  | headBlock => .headBlock
  | headFast => .headFast
  | members list => .members list
  | groupConst _ => .groupConst

/-- What tells the kind of a key: its length and its first two bytes, but nothing of the bytes of a
raw hash. -/
def signature (key : Bytes) : ℕ × Bytes := (key.length, if key.length = 32 then [] else key.take 2)

/-- The signature of the keys of a kind. -/
def Kind.signature : Kind → ℕ × Bytes
  | canonical => (12, headerPrefix)
  | number => (34, blockHashPrefix)
  | header => (42, headerPrefix)
  | body => (42, bodyPrefix)
  | lookup => (34, lookupPrefix)
  | liquidation => (34, liquidationfix)
  | headHeader => (10, [0x4c, 0x61])
  | headBlock => (9, [0x4c, 0x61])
  | headFast => (8, [0x4c, 0x61])
  | members .validate => (16, [0x4c, 0x61])
  | members .threshold => (16, [0x74, 0x68])
  | members .coin => (11, [0x63, 0x6f])
  | members .coinValidate => (19, [0x63, 0x6f])
  | members .thresholdCoin => (20, [0x74, 0x68])
  | members .transaction => (18, [0x74, 0x72])
  | members .newTx => (12, [0x6e, 0x65])
  | members .thresholdTx => (18, [0x74, 0x68])
  | members .stell => (12, [0x53, 0x74])
  | groupConst => (32, [])

/-- The kinds, one after the other. -/
def Kind.all : List Kind :=
  [.canonical, .number, .header, .body, .lookup, .liquidation, .headHeader, .headBlock, .headFast,
    .members .validate, .members .threshold, .members .coin, .members .coinValidate,
    .members .thresholdCoin, .members .transaction, .members .newTx, .members .thresholdTx,
    .members .stell, .groupConst]

theorem Kind.mem_all (k : Kind) : k ∈ Kind.all := by
  cases k with
  | members list => cases list <;> decide
  | _ => decide

/-- **The kinds have different signatures.** -/
theorem Kind.signature_injective : Function.Injective Kind.signature := by
  have hnodup : (Kind.all.map Kind.signature).Nodup := by decide +kernel
  intro k l h
  exact List.inj_on_of_nodup_map hnodup k.mem_all l.mem_all h

theorem signature_append {tag tail : Bytes} (n : ℕ) (hn : n ≠ 30) (htag : tag.length = 2)
    (htail : tail.length = n) : signature (tag ++ tail) = (n + 2, tag) := by
  have hlen : (tag ++ tail).length = n + 2 := by rw [List.length_append, htag, htail, add_comm]
  rw [signature, hlen, if_neg (by omega), List.take_left' htag]

theorem signature_key (c : Cell) : signature c.key = c.kind.signature := by
  cases c with
  | canonical n => exact signature_append 10 (by decide) rfl (by simp [numSuffix])
  | number h => exact signature_append 32 (by decide) rfl h.length_eq
  | header h n | body h n => exact signature_append 40 (by decide) rfl (by simp [h.length_eq])
  | lookup h | liquidation h => exact signature_append 32 (by decide) rfl h.length_eq
  | headHeader => rfl
  | headBlock => rfl
  | headFast => rfl
  | members list => cases list <;> rfl
  | groupConst h => rw [key, signature, if_pos h.length_eq, h.length_eq, kind, Kind.signature]

theorem numbered_inj {m n : UInt64} {x y : Bytes}
    (h : encodeBlockNumber m ++ x = encodeBlockNumber n ++ y) : m = n ∧ x = y := by
  obtain ⟨hnum, htail⟩ := List.append_inj h (by simp)
  exact ⟨encodeBlockNumber_injective hnum, htail⟩

/-- **No two cells share a key.** -/
theorem key_injective : Function.Injective key := by
  intro c d h
  have hkind : c.kind = d.kind := Kind.signature_injective (by
    rw [← signature_key, ← signature_key, h])
  cases c with
  | canonical m =>
    cases d <;> cases hkind
    rw [(numbered_inj (List.append_cancel_left h)).1]
  | number a =>
    cases d <;> cases hkind
    rw [FixedBytes.ext_bytes (List.append_cancel_left h)]
  | header a m | body a m =>
    cases d <;> cases hkind
    obtain ⟨rfl, hhash⟩ := numbered_inj (List.append_cancel_left h)
    rw [FixedBytes.ext_bytes hhash]
  | lookup a | liquidation a =>
    cases d <;> cases hkind
    rw [FixedBytes.ext_bytes (List.append_cancel_left h)]
  | headHeader | headBlock | headFast | members l => cases d <;> cases hkind; rfl
  | groupConst a =>
    cases d <;> cases hkind
    rw [FixedBytes.ext_bytes h]

/-! ## What is read of a cell -/

/-- What the `Get…` function of a cell returns.  A report that is not there is an error, not the
empty string. -/
def Entry : Cell → Type
  | .canonical _ => Hash
  | .number _ => UInt64
  | .header _ _ => Option Bytes
  | .body _ _ => Option Bytes
  | .lookup _ => TxLookupEntry
  | .liquidation _ => Option Bytes
  | .headHeader => Hash
  | .headBlock => Hash
  | .headFast => Hash
  | .members _ | .groupConst _ => List GroupMember

/-- What is read of a cell that has nothing. -/
def absent : (c : Cell) → c.Entry
  | .canonical _ => FixedBytes.zero 32
  | .number _ => missingNumber
  | .header _ _ => none
  | .body _ _ => none
  | .lookup _ => TxLookupEntry.missing
  | .liquidation _ => none
  | .headHeader | .headBlock | .headFast => FixedBytes.zero 32
  | .members _ => []
  | .groupConst _ => []

end Cell

/-- The tables: an entry for every cell. -/
abbrev Tables := (c : Cell) → c.Entry

namespace Tables

/-- What the `Get…` functions read of a database. -/
def of (db : Db) : Tables
  | .canonical n => getCanonicalHash db n
  | .number h => getBlockNumber db h
  | .header h n => getHeaderRLP db h n
  | .body h n => getBodyRLP db h n
  | .lookup h => getTxLookupEntry db h
  | .liquidation h => db.get (liquidationKey h)
  | .headHeader => getHeadHeaderHash db
  | .headBlock => getHeadBlockHash db
  | .headFast => getHeadFastBlockHash db
  | .members l => getMembers db l.key
  | .groupConst h => getMembers db h.bytes

variable {db db' : Db}

theorem getHash_congr {key : Bytes} (h : db'.get key = db.get key) :
    getHash db' key = getHash db key := by
  rw [getHash, h, getHash]

theorem getBlockNumber_congr {a : Hash} (h : db'.get (numberKey a) = db.get (numberKey a)) :
    getBlockNumber db' a = getBlockNumber db a := by
  rw [getBlockNumber, h, getBlockNumber]

theorem getTxLookupEntry_congr {a : Hash} (h : db'.get (lookupKey a) = db.get (lookupKey a)) :
    getTxLookupEntry db' a = getTxLookupEntry db a := by
  rw [getTxLookupEntry, h, getTxLookupEntry]

/-- **An entry is read from its own cell.** -/
theorem of_congr {c : Cell} (h : db'.get c.key = db.get c.key) : of db' c = of db c := by
  cases c with
  | canonical n => exact getHash_congr h
  | number a => exact getBlockNumber_congr h
  | header a n => exact h
  | body a n => exact h
  | lookup a => exact getTxLookupEntry_congr h
  | liquidation a => exact h
  | headHeader | headBlock | headFast => exact getHash_congr h
  | members l | groupConst a => exact getMembers_congr h

/-- Where only one cell changed, only its entry did. -/
theorem of_eq_update (c : Cell) (h : ∀ k, k ≠ c.key → db'.get k = db.get k) :
    of db' = update (of db) c (of db' c) := by
  funext d
  by_cases hd : d = c
  · subst hd
    rw [Function.update_self]
  · rw [Function.update_of_ne hd, of_congr (h d.key fun hk => hd (Cell.key_injective hk))]

theorem of_put (db : Db) (c : Cell) {v : Bytes} {e : c.Entry} (he : of (db.put c.key v) c = e) :
    of (db.put c.key v) = update (of db) c e := by
  rw [of_eq_update c fun k hk => Db.get_put_of_ne db hk v, he]

theorem of_delete (db : Db) (c : Cell) : of (db.delete c.key) = update (of db) c c.absent := by
  have habsent : of (db.delete c.key) c = of Db.empty c :=
    of_congr (by rw [Db.get_delete_self]; rfl)
  rw [of_eq_update c fun k hk => Db.get_delete_of_ne db hk, habsent]
  cases c <;> rfl

end Tables

/-! ## An entry is read back -/

namespace TxLookupEntry

theorem ofItem_item (e : TxLookupEntry) : ofItem e.item = some e := by
  simp only [item, ofItem, FixedBytes.ofItem_str, Item.uint64?_ofNat, some_bind]

theorem length_encode_item (e : TxLookupEntry) : (Rlp.encode e.item).length < 2 ^ 64 := by
  have hhash := Rlp.length_encodeString_le
    (lt_of_eq_of_lt e.blockHash.length_eq (by norm_num : 32 < 2 ^ 64))
  have hnumber := Rlp.length_encode_ofNat_le e.blockIndex.toNat_lt
  have hindex := Rlp.length_encode_ofNat_le e.index.toNat_lt
  have hitems : (encodeItems [.str e.blockHash.bytes, .ofNat e.blockIndex.toNat,
      .ofNat e.index.toNat]).length ≤ 100 := by
    rw [e.blockHash.length_eq] at hhash
    simp only [encodeItems, encode, List.append_nil, List.length_append] at hnumber hindex ⊢
    omega
  have hlist := Rlp.length_encode_list_le (lt_of_le_of_lt hitems (by norm_num))
  rw [item]
  omega

end TxLookupEntry

theorem getTxLookupEntry_of_get {db : Db} {h : Hash} {e : TxLookupEntry}
    (hget : db.get (lookupKey h) = some (Rlp.encode e.item)) : getTxLookupEntry db h = e := by
  have hdecode := decode_encode e.length_encode_item
  obtain ⟨b, bs, hbytes⟩ := List.exists_cons_of_length_pos (length_encode_pos e.item)
  rw [hbytes] at hdecode hget
  rw [getTxLookupEntry, hget]
  simp only [hdecode, Option.bind_some, TxLookupEntry.ofItem_item, Option.getD_some]

/-! ## Operations -/

/-- A write or a delete.  `WriteBody` is `WriteBodyRLP` of the encoding; of the lists only
`validate`, `coinValidate`, `newTx` and `thresholdTx` have a `Delete…` function. -/
inductive TableOp where
  | writeCanonicalHash (hash : Hash) (number : UInt64)
  | writeHeader (header : Header)
  | writeBodyRLP (hash : Hash) (number : UInt64) (data : Bytes)
  | writeTxLookupEntries (block : Block)
  | writeLiquidationHash (hash : Hash) (data : Bytes)
  | writeHeadHeaderHash (hash : Hash)
  | writeHeadBlockHash (hash : Hash)
  | writeHeadFastBlockHash (hash : Hash)
  | writeMembers (list : GroupList) (members : List GroupMember)
  | writeGroupConst (hash : Hash) (members : List GroupMember)
  | deleteCanonicalHash (number : UInt64)
  | deleteHeader (hash : Hash) (number : UInt64)
  | deleteBody (hash : Hash) (number : UInt64)
  | deleteBlock (hash : Hash) (number : UInt64)
  | deleteTxLookupEntry (hash : Hash)
  | deleteLiquidationHash (hash : Hash)
  | deleteMembers (list : GroupList)

namespace TableOp

section

variable (P : Prims)

/-- The operation on the database; what cannot be encoded is not written. -/
def run (db : Db) : TableOp → Db
  | writeCanonicalHash h n => Space.writeCanonicalHash db h n
  | writeHeader h => (Space.writeHeader P.keccak db h).getD db
  | writeBodyRLP h n data => Space.writeBodyRLP db h n data
  | writeTxLookupEntries b => Space.writeTxLookupEntries P db b
  | writeLiquidationHash h data => Space.writeLiquidationHash db h data
  | writeHeadHeaderHash h => Space.writeHeadHeaderHash db h
  | writeHeadBlockHash h => Space.writeHeadBlockHash db h
  | writeHeadFastBlockHash h => Space.writeHeadFastBlockHash db h
  | writeMembers l ms => ValidateGroup.writeMembers db l.key ms
  | writeGroupConst h ms => ValidateGroup.writeGroupConst db h ms
  | deleteCanonicalHash n => Space.deleteCanonicalHash db n
  | deleteHeader h n => Space.deleteHeader db h n
  | deleteBody h n => Space.deleteBody db h n
  | deleteBlock h n => Space.deleteBlock db h n
  | deleteTxLookupEntry h => Space.deleteTxLookupEntry db h
  | deleteLiquidationHash h => Space.deleteLiquidationHash db h
  | deleteMembers l => db.delete l.key

/-- The entries of a block's transactions, in order; of equal hashes the last one stays. -/
def applyLookups (t : Tables) (b : Block) : Tables :=
  b.transactions.zipIdx.foldl (fun t tx => update t (.lookup (tx.1.hash P))
    (⟨b.hash P.keccak, b.numberU64, u64 tx.2⟩ : TxLookupEntry)) t

/-- **The operation on the tables**: its own table, at its own arguments. -/
def apply (t : Tables) : TableOp → Tables
  | writeCanonicalHash h n => update t (.canonical n) h
  | writeHeader h =>
    match h.item with
    | some it => update (update t (.number (h.hash P.keccak)) (u64 h.number))
        (.header (h.hash P.keccak) (u64 h.number)) (some (Rlp.encode it))
    | none => t
  | writeBodyRLP h n data => update t (.body h n) (some data)
  | writeTxLookupEntries b => applyLookups P t b
  | writeLiquidationHash h data => update t (.liquidation h) (some data)
  | writeHeadHeaderHash h => update t .headHeader h
  | writeHeadBlockHash h => update t .headBlock h
  | writeHeadFastBlockHash h => update t .headFast h
  | writeMembers l ms => if Timely ms then update t (.members l) ms else t
  | writeGroupConst h ms => if Timely ms then update t (.groupConst h) ms else t
  | deleteCanonicalHash n => update t (.canonical n) (Cell.absent _)
  | deleteHeader h n =>
    update (update t (.number h) (Cell.absent _)) (.header h n) (Cell.absent _)
  | deleteBody h n => update t (.body h n) (Cell.absent _)
  | deleteBlock h n => update (update (update t (.number h)
      (Cell.absent _)) (.header h n) (Cell.absent _)) (.body h n) (Cell.absent _)
  | deleteTxLookupEntry h => update t (.lookup h) (Cell.absent _)
  | deleteLiquidationHash h => update t (.liquidation h) (Cell.absent _)
  | deleteMembers l => update t (.members l) (Cell.absent _)

end

/-- A list that is written has an encoding shorter than `2 ^ 64` bytes, if it has one. -/
def Fits : TableOp → Prop
  | writeMembers _ ms | writeGroupConst _ ms => ValidateGroup.Fits ms
  | _ => True

variable {P : Prims}

theorem of_writeMembers (db : Db) (c : Cell) {ms : List GroupMember} (hfits : ValidateGroup.Fits ms)
    {e : c.Entry} (he : ∀ db', getMembers db' c.key = ms → Tables.of db' c = e) :
    Tables.of (ValidateGroup.writeMembers db c.key ms)
      = if Timely ms then update (Tables.of db) c e else Tables.of db := by
  split
  · next h =>
    have hread : getMembers (ValidateGroup.writeMembers db c.key ms) c.key = ms := by
      rw [getMembers_writeMembers hfits, if_pos h]
    rw [ValidateGroup.writeMembers, membersItem_of_timely h] at hread ⊢
    exact Tables.of_put db c (he _ hread)
  · next h => rw [ValidateGroup.writeMembers, membersItem_eq_none h]

theorem of_writeTxLookupEntries (db : Db) (b : Block) :
    Tables.of (Space.writeTxLookupEntries P db b) = applyLookups P (Tables.of db) b := by
  unfold Space.writeTxLookupEntries applyLookups
  induction b.transactions.zipIdx generalizing db with
  | nil => rfl
  | cons tx txs ih =>
    rw [List.foldl_cons, List.foldl_cons, ih]
    exact congrArg (List.foldl _ · txs) (Tables.of_put db (.lookup (tx.1.hash P))
      (getTxLookupEntry_of_get (Db.get_put_self ..)))

theorem of_writeHeader (db : Db) (h : Header) :
    Tables.of ((Space.writeHeader P.keccak db h).getD db)
      = (writeHeader h).apply P (Tables.of db) := by
  rw [apply, Space.writeHeader]
  cases h.item with
  | none => rfl
  | some it =>
    have hnumber := Tables.of_put db (.number (h.hash P.keccak))
      (getBlockNumber_of_get (Db.get_put_self db _ (encodeBlockNumber (u64 h.number))))
    have hheader := Tables.of_put (db.put (numberKey (h.hash P.keccak)) (encodeBlockNumber
      (u64 h.number))) (.header (h.hash P.keccak) (u64 h.number))
        (Db.get_put_self _ _ (Rlp.encode it))
    exact hheader.trans (congrArg (update · _ _) hnumber)

theorem of_deleteHeader (db : Db) (h : Hash) (n : UInt64) :
    Tables.of (Space.deleteHeader db h n) = (deleteHeader h n).apply P (Tables.of db) :=
  (Tables.of_delete (db.delete (numberKey h)) (.header h n)).trans
    (congrArg (update · _ _) (Tables.of_delete db (.number h)))

/-- **One operation**: reading after it is applying it to what was read before. -/
theorem of_run (db : Db) {op : TableOp} (hfits : op.Fits) :
    Tables.of (op.run P db) = op.apply P (Tables.of db) := by
  cases op with
  | writeCanonicalHash h n =>
    exact Tables.of_put db (.canonical n) (getHash_of_get (Db.get_put_self ..))
  | writeHeader h => exact of_writeHeader db h
  | writeBodyRLP h n data => exact Tables.of_put db (.body h n) (Db.get_put_self ..)
  | writeTxLookupEntries b => exact of_writeTxLookupEntries db b
  | writeLiquidationHash h data => exact Tables.of_put db (.liquidation h) (Db.get_put_self ..)
  | writeHeadHeaderHash h =>
    exact Tables.of_put db .headHeader (getHash_of_get (Db.get_put_self ..))
  | writeHeadBlockHash h => exact Tables.of_put db .headBlock (getHash_of_get (Db.get_put_self ..))
  | writeHeadFastBlockHash h =>
    exact Tables.of_put db .headFast (getHash_of_get (Db.get_put_self ..))
  | writeMembers l ms => exact of_writeMembers db (.members l) hfits fun _ hread => hread
  | writeGroupConst h ms => exact of_writeMembers db (.groupConst h) hfits fun _ hread => hread
  | deleteCanonicalHash n => exact Tables.of_delete db (.canonical n)
  | deleteHeader h n => exact of_deleteHeader db h n
  | deleteBody h n => exact Tables.of_delete db (.body h n)
  | deleteBlock h n =>
    exact (Tables.of_delete (Space.deleteHeader db h n) (.body h n)).trans
      (congrArg (update · _ _) (of_deleteHeader (P := P) db h n))
  | deleteTxLookupEntry h => exact Tables.of_delete db (.lookup h)
  | deleteLiquidationHash h => exact Tables.of_delete db (.liquidation h)
  | deleteMembers l => exact Tables.of_delete db (.members l)

end TableOp

/-- **The database is the tables**: after any sequence of writes and deletes, every `Get…` function
reads what the tables have after the same sequence of updates — of its own table, at its own
arguments. -/
theorem tables_run (P : Prims) (db : Db) (ops : List TableOp) (hfits : ∀ op ∈ ops, op.Fits) :
    Tables.of (ops.foldl (TableOp.run P) db) = ops.foldl (TableOp.apply P) (Tables.of db) := by
  induction ops generalizing db with
  | nil => rfl
  | cons op ops ih =>
    rw [List.foldl_cons, List.foldl_cons, ih _ fun o ho => hfits o (List.mem_cons_of_mem op ho),
      TableOp.of_run db (hfits op List.mem_cons_self)]

/-- A group list between writes under the same hash and number in other tables. -/
theorem tables_run_sample : let ops : List TableOp := [.writeCanonicalHash (.zero 32) 7,
      .writeBodyRLP (.zero 32) 7 [0xc0],
      .writeGroupConst (.zero 32) [⟨FixedBytes.zero 20, 5⟩],
      .writeLiquidationHash (.zero 32) [], .deleteBlock (.zero 32) 7]
    (∀ op ∈ ops, op.Fits) ∧
      Tables.of (ops.foldl (TableOp.run Sample.prims) Db.empty)
        = ops.foldl (TableOp.apply Sample.prims) (Tables.of Db.empty) := by
  have hfits : ValidateGroup.Fits [⟨FixedBytes.zero 20, 5⟩] := by decide +kernel
  refine ⟨?_, tables_run _ _ _ ?_⟩ <;>
    simp only [List.forall_mem_cons, TableOp.Fits, hfits, List.not_mem_nil, IsEmpty.forall_iff,
      implies_true, and_self]

end Gocoin.Space
