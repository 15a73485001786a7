import Gocoin.Protocol.Decode
import Gocoin.Space.Canonical

/-!
# Space/Reopening — a chain that is read from its database

`NewBlockChain` of `space/blockchain.go` and what it reads.  The head is the block whose hash is
stored as the last one; when that block cannot be read the chain starts again from the first block.
In every run the database has the head under its hash (`run_houses`), so a chain that is reopened
has the head again — as `NewBlock` makes it of the stored header and body (`Houses.loadLastState`).
-/

namespace Gocoin.Space

open State Rlp ValidateGroup

/-! ## Reading blocks -/

/-- `missingNumber`. -/
def missingNumber : UInt64 := 0xffffffffffffffff

/-- `GetBlockNumber`. -/
def getBlockNumber (db : Db) (hash : Hash) : UInt64 :=
  match db.get (numberKey hash) with
  | some data => if data.length = 8 then u64 (BigEndian.ofBytes data) else missingNumber
  | none => missingNumber

/-- The hash under a key; the zero hash when there is none. -/
def getHash (db : Db) (key : Bytes) : Hash :=
  match db.get key with
  | some (b :: bs) => FixedBytes.ofBytes 32 (b :: bs)
  | _ => FixedBytes.zero 32

/-- `GetHeadBlockHash`. -/
def getHeadBlockHash (db : Db) : Hash := getHash db headBlockKey

/-- `GetHeadHeaderHash`. -/
def getHeadHeaderHash (db : Db) : Hash := getHash db headHeaderKey

/-- `GetHeader`. -/
def getHeader (db : Db) (hash : Hash) (number : UInt64) : Option Header :=
  match getHeaderRLP db hash number with
  | some (b :: bs) => (Rlp.first (b :: bs)).bind Header.ofItem
  | _ => none

/-- `GetBody`. -/
def getBody (db : Db) (hash : Hash) (number : UInt64) : Option (List Tx × Bytes) :=
  match getBodyRLP db hash number with
  | some (b :: bs) => (Rlp.first (b :: bs)).bind bodyOfItem
  | _ => none

/-- `GetHeaderByHash`. -/
def getHeaderByHash (db : Db) (hash : Hash) : Option Header :=
  getHeader db hash (getBlockNumber db hash)

section

variable (P : Prims)

/-- `GetBlock`; a block that is not there is no crash. -/
def getBlock (db : Db) (hash : Hash) (number : UInt64) : Option (Option Block) :=
  match getHeader db hash number, getBody db hash number with
  | some header, some body => (newBlock P.keccak header body.1).map some
  | _, _ => some none

/-- `GetBlockByHash`. -/
def getBlockByHash (db : Db) (hash : Hash) : Option (Option Block) :=
  getBlock P db hash (getBlockNumber db hash)

/-- `GetBlockByNumber`. -/
def getBlockByNumber (db : Db) (number : UInt64) : Option (Option Block) :=
  let hash := getCanonicalHash db number
  if hash = FixedBytes.zero 32 then some none else getBlock P db hash number

/-- `loadLastState`: the last block, if it can be read; the hash of the last header is written
again. -/
def loadLastState (db : Db) (currentBlock : Block) : Option (Db × Block) :=
  let head := getHeadBlockHash db
  if head = FixedBytes.zero 32 then some (db, currentBlock)
  else do
    match ← getBlockByHash P db head with
    | none => some (db, currentBlock)
    | some b =>
      let headHeader := getHeadHeaderHash db
      let currentHeader := if headHeader = FixedBytes.zero 32 then b.header
        else (getHeaderByHash db headHeader).getD b.header
      some (writeHeadHeaderHash db (currentHeader.hash P.keccak), b)

/-- `NewBlockChain` on a database with a first block; without one it fails, or makes a new one. -/
def newBlockChain (db : Db) : Option BlockChain := do
  let genesisBlock ← (← getBlockByNumber P db 0)
  let (db, currentBlock) ← loadLastState P db genesisBlock
  some ⟨db, currentBlock, none⟩

end

/-! ## What is read back -/

variable {db : Db} {h : Hash} {n : UInt64} {P : Prims} {b : Block}

theorem getHash_of_get {key : Bytes} (hget : db.get key = some h.bytes) : getHash db key = h := by
  obtain ⟨x, xs, hb⟩ := BlockChain.exists_bytes_eq_cons h
  rw [getHash, hget, hb]
  show FixedBytes.ofBytes 32 (x :: xs) = h
  rw [← hb, FixedBytes.ofBytes_bytes]

theorem getBlockNumber_of_get (hget : db.get (numberKey h) = some (encodeBlockNumber n)) :
    getBlockNumber db h = n := by
  have hlen : (BigEndian.toBytes n.toNat).length ≤ 8 :=
    BigEndian.length_toBytes_le (lt_of_lt_of_eq n.toNat_lt (by norm_num))
  have hread : BigEndian.ofBytes (encodeBlockNumber n) = n.toNat := by
    rw [encodeBlockNumber, FixedBytes.bytes_ofBytes_of_le hlen,
      BigEndian.ofBytes_replicate_append, BigEndian.ofBytes_toBytes]
  rw [getBlockNumber, hget]
  simp only [length_encodeBlockNumber, if_true, hread, u64_toNat]

/-- The encodings of a block are shorter than `2 ^ 64` bytes, and its hash is not zero. -/
structure Storable (P : Prims) (b : Block) : Prop where
  hash : b.hash P.keccak ≠ FixedBytes.zero 32
  header : ∀ it ∈ b.header.item, (Rlp.encode it).length < 2 ^ 64
  body : ∀ it ∈ b.bodyItem, (Rlp.encode it).length < 2 ^ 64

instance (P : Prims) (b : Block) : Decidable (Storable P b) :=
  decidable_of_iff (b.hash P.keccak ≠ FixedBytes.zero 32 ∧
      (∀ it ∈ b.header.item, (Rlp.encode it).length < 2 ^ 64) ∧
      ∀ it ∈ b.bodyItem, (Rlp.encode it).length < 2 ^ 64)
    ⟨fun ⟨h, hh, hb⟩ => ⟨h, hh, hb⟩, fun h => ⟨h.hash, h.header, h.body⟩⟩

/-- The first item of an encoding, as a `Get…` function reads it. -/
theorem exists_cons_encode {it : Item} (hsize : (Rlp.encode it).length < 2 ^ 64) :
    ∃ b bs, Rlp.encode it = b :: bs ∧ Rlp.first (b :: bs) = some it := by
  obtain ⟨b, bs, hbytes⟩ := List.exists_cons_of_length_pos (length_encode_pos it)
  exact ⟨b, bs, hbytes, hbytes ▸ first_encode hsize⟩

/-- **A stored block is read as `NewBlock` makes it.** -/
theorem getBlock_of_storedAt (h : BlockChain.StoredAt P.keccak db n b) (hs : Storable P b) :
    getBlock P db (b.hash P.keccak) n = (newBlock P.keccak b.header b.transactions).map some := by
  obtain ⟨head, body, hhead, hbody, hgh, hgb⟩ := h
  obtain ⟨x, xs, hx, hfirst⟩ := exists_cons_encode (hs.header head hhead)
  obtain ⟨y, ys, hy, hfirst'⟩ := exists_cons_encode (hs.body body hbody)
  have hheader : getHeader db (b.hash P.keccak) n = some b.header := by
    rw [getHeader, hgh, hx]
    simp only [hfirst, Option.bind_some, Header.ofItem_item hhead]
  have hbody' : getBody db (b.hash P.keccak) n = some (b.transactions, b.extraData) := by
    rw [getBody, hgb, hy]
    simp only [hfirst', Option.bind_some, bodyOfItem_bodyItem hbody]
  rw [getBlock, hheader, hbody']

/-- The database has the block under its hash, as the last one. -/
structure Houses (P : Prims) (db : Db) (b : Block) : Prop where
  last : db.get headBlockKey = some (b.hash P.keccak).bytes
  number : db.get (numberKey (b.hash P.keccak)) = some (encodeBlockNumber b.numberU64)
  stored : BlockChain.StoredAt P.keccak db b.numberU64 b
  storable : Storable P b

/-- **The last block is the one that the database has**, as `NewBlock` makes it. -/
theorem Houses.loadLastState (h : Houses P db b) (genesisBlock : Block) :
    (Space.loadLastState P db genesisBlock).map Prod.snd
      = newBlock P.keccak b.header b.transactions := by
  have hhead : getHeadBlockHash db = b.hash P.keccak := getHash_of_get h.last
  unfold Space.loadLastState
  simp only [hhead, if_neg h.storable.hash, getBlockByHash, getBlockNumber_of_get h.number,
    getBlock_of_storedAt h.stored h.storable]
  cases newBlock P.keccak b.header b.transactions <;> rfl

/-! ## The database of a run has the head -/

/-- The keys that do not matter for the head: those of the execution of a block, of canonical hashes
and of the last header. -/
def asideKeys : Set Bytes := executedKeys ∪ Set.range canonicalKey ∪ {headHeaderKey}

theorem headBlockKey_notMem : headBlockKey ∉ asideKeys := by
  rintro (((((hg | ⟨h, hr⟩) | hn) | ⟨h, hp⟩) | ⟨n, hc⟩) | hh)
  · revert hg
    simp [groupKeys, headBlockKey, groupMembersKey, thresholdMembersKey, coinMembersKey,
      coingroupMembersKey, thresholdCoinMembersKey, transactionMembersKey, newTxMembersKey,
      thresholdTxMembersKey, stellMembersKey]
  · simp [liquidationKey, liquidationfix, headBlockKey] at hr
  · exact absurd (show headBlockKey.length = 32 from hn) (by decide)
  · simp [SecureTrie.secKey, SecureTrie.secureKeyPrefix, headBlockKey] at hp
  · simp [canonicalKey, headerPrefix, headBlockKey] at hc
  · exact absurd (show headBlockKey = headHeaderKey from hh) (by decide)

theorem numberKey_notMem (h : Hash) : numberKey h ∉ asideKeys := by
  have hlen : (numberKey h).length = 34 := by simp [numberKey, blockHashPrefix, h.length_eq]
  rintro (((((hg | ⟨x, hr⟩) | hn) | ⟨x, hp⟩) | ⟨n, hc⟩) | hh)
  · exact (length_of_mem_groupKeys hg).2 hlen
  · simp [liquidationKey, liquidationfix, numberKey, blockHashPrefix] at hr
  · exact absurd (hlen.symm.trans hn) (by decide)
  · simp [SecureTrie.secKey, SecureTrie.secureKeyPrefix, numberKey, blockHashPrefix] at hp
  · simp [canonicalKey, headerPrefix, numberKey, blockHashPrefix] at hc
  · rw [show numberKey h = headHeaderKey from hh] at hlen
    exact absurd hlen (by decide)

/-- A key of the block tables that is longer than those of canonical hashes. -/
theorem ChainKey.notMem_asideKeys {k : Bytes} (h : ChainKey k) (hlen : k.length = 42) :
    k ∉ asideKeys := by
  rintro ((hk | ⟨n, hc⟩) | hh)
  · exact h.notMem hk
  · rw [← hc] at hlen
    simp [canonicalKey, headerPrefix, numSuffix] at hlen
  · rw [show k = headHeaderKey from hh] at hlen
    exact absurd hlen (by decide)

namespace Houses

variable {P : Prims} {db db' : Db} {b : Block}

theorem sameOff (h : Houses P db b) (hoff : db.SameOff asideKeys db') : Houses P db' b := by
  obtain ⟨head, body, hhead, hbody, hgh, hgb⟩ := h.stored
  refine ⟨(hoff _ headBlockKey_notMem).trans h.last, (hoff _ (numberKey_notMem _)).trans h.number,
    ⟨head, body, hhead, hbody, ?_, ?_⟩, h.storable⟩
  · refine (hoff _ ((chainKey_headerKey _ _).notMem_asideKeys ?_)).trans hgh
    simp [headerKey, headerPrefix, FixedBytes.length_eq]
  · refine (hoff _ ((chainKey_blockBodyKey _ _).notMem_asideKeys ?_)).trans hgb
    simp [blockBodyKey, bodyPrefix, FixedBytes.length_eq]

/-- A new head is stored. -/
theorem writeHead (h : BlockChain.writeHead P db b = some db') (hs : Storable P b) :
    Houses P db' b := by
  refine ⟨?_, ?_, BlockChain.storedAt_writeHead h, hs⟩
  · obtain ⟨head, body, -, -, rfl⟩ := BlockChain.writeHead_eq P h
    rw [Db.get_put_of_ne, Db.get_put_of_ne, Db.get_put_of_ne, Db.get_put_of_ne, Db.get_put_self] <;>
      simp [headBlockKey, headHeaderKey, blockBodyKey, bodyPrefix, headerKey, headerPrefix,
        numberKey, blockHashPrefix]
  · obtain ⟨head, body, -, -, rfl⟩ := BlockChain.writeHead_eq P h
    rw [Db.get_put_of_ne, Db.get_put_self]
    simp [headerKey, headerPrefix, numberKey, blockHashPrefix]

end Houses

namespace BlockChain

variable {P : Prims}

/-- The keys of the execution of a block do not matter for the head. -/
theorem asideKeys_of_exec : executedKeys ⊆ asideKeys := fun _ hk => .inl (.inl hk)

variable {bc : BlockChain}

/-- The database of a genesis chain has the first block. -/
theorem houses_genesisChain {ord : IterOrder} {accounts : List AccountConfig} {now : ℤ}
    (h : genesisChain P ord accounts now = some bc) (hs : Storable P bc.currentBlock) :
    Houses P bc.db bc.currentBlock := by
  obtain ⟨s₀, r, c, db₁, hf⟩ := exists_founded h
  obtain ⟨db, hwrite, hdb₁⟩ := hf.written
  have hoff := (hf.sameOff P).mono asideKeys_of_exec
  refine ⟨(hoff _ headBlockKey_notMem).trans ?_, (hoff _ (numberKey_notMem _)).trans ?_,
    hf.storedAt P, hs⟩
  · rw [hdb₁, writeHeadHeaderHash, Db.get_put_of_ne _ (by decide), writeHeadBlockHash,
      Db.get_put_self]
  simp only [writeBlock, writeBody, writeHeader, bind_eq_some, Option.map_eq_some_iff] at hwrite
  obtain ⟨_, ⟨body, -, rfl⟩, head, -, rfl⟩ := hwrite
  rw [hdb₁, writeHeadHeaderHash, Db.get_put_of_ne, writeHeadBlockHash, Db.get_put_of_ne,
    writeCanonicalHash, Db.get_put_of_ne, Db.get_put_of_ne]
  · exact Db.get_put_self ..
  all_goals
    simp [headBlockKey, headHeaderKey, canonicalKey, headerKey, headerPrefix, numberKey,
      blockHashPrefix]

/-- **The database has the head**, in every run of storable blocks from genesis. -/
theorem run_houses {bc₀ : BlockChain} (h₀ : Houses P bc₀.db bc₀.currentBlock)
    (hr : Run P (fun _ b => Storable P b) bc₀ bc) : Houses P bc.db bc.currentBlock := by
  refine hr.invariant (I := fun bc => Houses P bc.db bc.currentBlock) h₀ ?_ ?_
  · intro bc bc' ord b evs hI hC h
    obtain rfl | ⟨-, -, -, h⟩ := insert_cases P h
    · exact hI
    obtain rfl | ⟨db, -, hw, hb⟩ := insertHead_sameOff P h
    · exact hI
    · rw [hb]
      exact .writeHead hw hC
  · exact fun hash data hI => hI.sameOff ((report_sameOff _ hash data).mono asideKeys_of_exec)

end BlockChain

end Gocoin.Space
