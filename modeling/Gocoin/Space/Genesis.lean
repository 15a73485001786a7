import Gocoin.Common.Sample
import Gocoin.Space.BlockChain
import Gocoin.ValidateGroup.Tables

/-!
# Space/Genesis — the first block and its group

`space/genesis.go`.  The genesis block is made of a list of configured accounts: each gets a space,
is bound to it and is given a balance, and the first of them becomes the only member of the
consensus group.
-/

namespace Gocoin

open State Trie Rlp

namespace Space

/-- `AccountConfig`.  The space id goes through `int64`, which makes one from `2 ^ 63` on negative;
such ids are left out. -/
structure AccountConfig where
  address : Address
  spaceId : Fin (2 ^ 63)
  balance : UInt64
  walletId : UInt64
  groupId : UInt32

section

variable (P : Prims)

/-- One turn of the loop of `ToBlock`. -/
def configure (get : Nodes) (s : StateDB) (ac : AccountConfig) : Option (UInt64 × StateDB) := do
  let (walletindex, s) ← s.createSpaceAndBindAddr P.keccak get ac.spaceId ac.walletId ac.address
  let s ← s.setBalance P.keccak get ac.address ac.balance.toBitVec.toInt
  some (walletindex, s)

/-- The loop of `ToBlock`; the wallet index is that of the last account. -/
def configureAll (get : Nodes) (s : StateDB) (accounts : List AccountConfig) :
    Option (UInt64 × StateDB) :=
  accounts.foldlM (fun r ac => configure P get r.2 ac) (0, s)

variable {P} in
/-- The last account is configured after the others. -/
theorem configureAll_concat {get : Nodes} {s : StateDB}
    {accounts : List AccountConfig} {z : AccountConfig} {r : UInt64 × StateDB}
    (hr : configureAll P get s (accounts ++ [z]) = some r) :
    ∃ r₀, configureAll P get s accounts = some r₀ ∧ configure P get r₀.2 z = some r := by
  rw [configureAll, List.foldlM_append] at hr
  obtain ⟨r₀, hr₀, hlast⟩ := Option.bind_eq_some_iff.mp hr
  rw [List.foldlM_cons] at hlast
  obtain ⟨r₁, hr₁, hnil⟩ := Option.bind_eq_some_iff.mp hlast
  cases hnil
  exact ⟨r₀, hr₀, hr₁⟩

/-- The bytes of `20180105`. -/
def genesisVersion : Bytes := [0x32, 0x30, 0x31, 0x38, 0x30, 0x31, 0x30, 0x35]

/-- `ToBlock`, given the accounts of the configuration file. -/
def toBlock (ord : IterOrder) (db : Db) (accounts : List AccountConfig) :
    Option (Block × Address × Db) :=
  match State.new db.nodes (.zero 32) (.zero 32) with
  | .error _ => none
  | .ok s => do
    let (walletindex, s) ← configureAll P db.nodes s accounts
    let committed ← s.commitTo P.keccak ord db
    let addr := (accounts.head?.map AccountConfig.address).getD (.zero 20)
    let header : Header :=
      { uncleHash := .zero 32, number := 0, idIndex := 1, walletID := walletindex,
        groupID := (accounts.head?.map AccountConfig.groupId).getD 0, timestamp := 1514793600,
        gasUsed := 0, version := genesisVersion, percent := [], pk := [], sign := [],
        liquidationHash := [], extraIndex := .zero 4,
        spaceRoot := committed.rootSpace, accRoot := committed.rootAccount,
        groupRoot := .zero 32, coinRoot := .zero 32, txHash := emptyRoot,
        consensusGroupHash := rlpHash P.keccak (some (.str addr.bytes)),
        extraHash := .zero 32 }
    some (⟨header, [], []⟩, addr, committed.db)

/-- `GetGenesisBlock` on an empty database at time `now`, and the chain with its group. -/
def genesisChain (ord : IterOrder) (accounts : List AccountConfig) (now : ℤ) :
    Option BlockChain := do
  let (block, addr, db) ← toBlock P ord Db.empty accounts
  let db ← writeBlock P.keccak db block
  let hash := block.hash P.keccak
  let db := writeHeadHeaderHash
    (writeHeadBlockHash (writeCanonicalHash db hash block.numberU64) hash) hash
  let vg := ValidateGroup.newValidateGroup P db block.header.consensusGroupHash
  let (vg, db) := vg.add db ⟨addr, now⟩
  let (_, db) := vg.resetInit P db (rlpHash P.keccak (some (.str addr.bytes)))
  some ⟨db, block, some (ValidateGroup.newValidateGroup P db block.header.consensusGroupHash)⟩

/-- The account that becomes the only member of the first group. -/
def BlockChain.founder (accounts : List AccountConfig) : Address :=
  (accounts.head?.map AccountConfig.address).getD (.zero 20)

/-- The state that `ToBlock` opens. -/
abbrev blankState : Except TrieErr StateDB :=
  State.new Db.empty.nodes (.zero 32) (.zero 32)

/-- **What a genesis chain is made of**: the configured state, its commit, and the database with the
first block, before the group is stored. -/
structure BlockChain.Founded (ord : IterOrder) (accounts : List AccountConfig) (now : ℤ)
    (bc : BlockChain) (s₀ : StateDB) (r : UInt64 × StateDB) (c : StateDB.Committed) (db : Db) :
    Prop where
  opened : blankState = .ok s₀
  configured : configureAll P Db.empty.nodes s₀ accounts = some r
  committed : r.2.commitTo P.keccak ord Db.empty = some c
  number : bc.currentBlock.header.number = 0
  idIndex : bc.currentBlock.header.idIndex = 1
  walletID : bc.currentBlock.header.walletID = r.1
  spaceRoot : bc.currentBlock.header.spaceRoot = c.rootSpace
  accRoot : bc.currentBlock.header.accRoot = c.rootAccount
  groupHash : bc.currentBlock.header.consensusGroupHash
    = P.keccak (Rlp.encode (.str (BlockChain.founder accounts).bytes))
  written : ∃ d, writeBlock P.keccak c.db bc.currentBlock = some d ∧
    db = writeHeadHeaderHash (writeHeadBlockHash (writeCanonicalHash d
      (bc.currentBlock.hash P.keccak) bc.currentBlock.numberU64) (bc.currentBlock.hash P.keccak))
      (bc.currentBlock.hash P.keccak)
  stored : ∃ vg db', (ValidateGroup.newValidateGroup P db
      bc.currentBlock.header.consensusGroupHash).add db ⟨BlockChain.founder accounts, now⟩
        = (vg, db') ∧
    (vg.resetInit P db' bc.currentBlock.header.consensusGroupHash).2 = bc.db
  group : bc.validateGroup
    = some (ValidateGroup.newValidateGroup P bc.db bc.currentBlock.header.consensusGroupHash)

variable {P} in
theorem BlockChain.exists_founded {ord : IterOrder} {accounts : List AccountConfig} {now : ℤ}
    {bc : BlockChain} (h : genesisChain P ord accounts now = some bc) :
    ∃ s₀ r c db, BlockChain.Founded P ord accounts now bc s₀ r c db := by
  simp only [genesisChain, bind_eq_some, Prod.exists] at h
  obtain ⟨block, addr, db₀, hblock, db, hwrite, h⟩ := h
  cases h
  unfold toBlock at hblock
  split at hblock
  · cases hblock
  next s₀ hs₀ =>
  simp only [bind_eq_some] at hblock
  obtain ⟨r, hr, c, hc, hblock⟩ := hblock
  cases hblock
  exact ⟨s₀, r, c, _, hs₀, hr, hc, rfl, rfl, rfl, rfl, rfl, rfl, ⟨db, hwrite, rfl⟩,
    ⟨_, _, rfl, rfl⟩, rfl⟩

end

end Space

/-! ## A small chain -/

namespace Sample

open Space

/-- A configuration of one account, which has ten units. -/
def oneAccount (addr : Address) : List AccountConfig := [⟨addr, 0, 10, 1, 0⟩]

/-- The genesis chain of one configured account, founded at a time. -/
def chainAt (now : ℤ) : Option BlockChain := genesisChain prims .plain (oneAccount (address 1)) now

/-- The small chain. -/
def chain : Option BlockChain := chainAt 5

/-- A child of a block that leaves counters and roots as they are, signed by an address. -/
def child (head : Block) (signer : UInt8) (txs : List Tx) : Block where
  header :=
    { head.header with
      uncleHash := head.hash prims.keccak, number := head.header.number + 1,
      pk := 1 :: (address signer).bytes, sign := (address signer).bytes }
  transactions := txs
  extraData := []

/-- A signed block that leaves out four numbers. -/
def gap (head : Block) : Block :=
  { child head 1 [] with header := { (child head 1 []).header with number := 5 } }

/-- A child with another wallet index and another transaction root. -/
def unforced (head : Block) : Block :=
  { child head 1 [] with
    header := { (child head 1 []).header with walletID := 77, txHash := .zero 32 } }

/-- An unsigned transaction that creates a space for an address. -/
def unsignedCreation : Tx := ⟨0, some (address 7), 0, 0, [1], 0, 0, 0⟩

end Sample

end Gocoin
