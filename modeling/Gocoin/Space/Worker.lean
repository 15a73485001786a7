import Gocoin.Space.BlockChain

/-!
# Space/Worker — checking and building blocks

`validateBlock` and `buildBlock` of `space/worker.go`.  A proposed block is
accepted when it names the head as its parent, has a larger number, and shows the two roots, the
next space id and the gas that its execution on the head's state gives.
-/

namespace Gocoin.Space

open State Trie

section

variable (P : Prims)

/-- What `validateBlock` computes from the head and the transactions: the totals of the loop and the
roots of the commit.  A state that cannot be opened is a nil pointer, used at once. -/
def replay (ord : IterOrder) (db : Db) (head : Block) (txs : List Tx) :
    Option (Totals × StateDB.Committed) :=
  match stateAt db head with
  | .error _ => none
  | .ok s => do
    let acc ← validateAll P db (BlockChain.start head s) txs
    let committed ← acc.state.commitTo P.keccak ord db
    some (acc, committed)

/-- `validateBlock`: the verdict and the database, into which the computed state has been written
even when the block is refused. -/
def validateBlock (ord : IterOrder) (db : Db) (head b : Block) : Option (Bool × Db) :=
  if b.header.uncleHash ≠ head.hash P.keccak ∨ b.numberU64 ≤ head.numberU64 then some (false, db)
  else do
    let (acc, committed) ← replay P ord db head b.transactions
    some (decide (b.header.spaceRoot = committed.rootSpace) &&
        decide (b.header.accRoot = committed.rootAccount) &&
        decide (b.spaceIndexU64 = u64 acc.spaceid) && decide (b.gasUsedU64 = intU64 acc.cost),
      committed.db)

/-- The execution part of `buildBlock`: the totals of the loop and the roots of the commit. -/
def buildTotals (ord : IterOrder) (db : Db) (head : Block) (txs : List Tx) :
    Option (Totals × StateDB.Committed) :=
  match stateAt db head with
  | .error _ => none
  | .ok s => do
    let acc ← buildAll P db (BlockChain.start head s) txs
    let committed ← acc.state.commitTo P.keccak ord db
    some (acc, committed)

/-- What `buildBlock` takes from the wallet, the lottery, the group's key and the clock, and the
fixed proposer it knew before. -/
structure Proposer where
  sender : Address
  percent : Bytes
  pubkey : Bytes
  signMsg : Hash → Bytes
  fixedAddress : Address
  now : ℕ

/-- What the last settlement report of the list says behind its type. -/
def lastReport (txs : List Tx) : Bytes :=
  txs.foldl (fun r tx => if tx.ptype = some .stellReport then tx.payload.tail else r) []

/-- `buildBlock`: execute the transactions on the head's state, select the group of the next number,
and make and sign a block; the only proposer of a group below three also writes its group. -/
def buildBlock (ord : IterOrder) (bc : BlockChain) (who : Proposer) (txs : List Tx) :
    Option (Option Block × BlockChain) :=
  if txs = [] then some (none, bc)
  else do
    let head := bc.currentBlock
    let (acc, committed) ← buildTotals P ord bc.db head txs
    let vg ← bc.validateGroup
    let groupConstHash := vg.hash P.keccak
    let (addrs, vg) ← vg.selectConsensus P (head.numberU64 + 1)
    let fixed := decide (addrs.length < 3)
    let fixedAddress := if fixed then addrs.head?.getD who.fixedAddress else who.fixedAddress
    let txHash ← deriveSha P.keccak txs
    let header : Header :=
      { uncleHash := head.hash P.keccak, number := head.header.number + 1, idIndex := acc.spaceid,
        walletID := acc.walletid, groupID := head.header.groupID, timestamp := who.now,
        gasUsed := acc.cost, version := head.header.version, percent := who.percent,
        pk := if fixed then 1 :: who.sender.bytes else 2 :: who.pubkey, sign := [],
        liquidationHash := lastReport txs, extraIndex := .zero 4,
        spaceRoot := committed.rootSpace, accRoot := committed.rootAccount,
        groupRoot := .zero 32, coinRoot := .zero 32, txHash,
        consensusGroupHash := groupConstHash, extraHash := .zero 32 }
    let block := (⟨header, txs, []⟩ : Block).setSigner (who.signMsg (header.hashNoSig P.keccak))
    let db := if fixed && decide (fixedAddress = who.sender) then
        ValidateGroup.writeGroupConst committed.db groupConstHash vg.space.groupmembers
      else committed.db
    some (some block, { bc with db, validateGroup := some vg })

variable {ord : IterOrder} {bc bc' : BlockChain} {who : Proposer} {txs : List Tx} {b : Block}

theorem currentBlock_of_buildBlock {b : Option Block}
    (h : buildBlock P ord bc who txs = some (b, bc')) :
    bc'.currentBlock = bc.currentBlock := by
  unfold buildBlock at h
  split at h
  · cases h
    rfl
  simp only [bind_eq_some, Prod.exists, Option.some.injEq, Prod.mk.injEq] at h
  obtain ⟨acc, committed, -, vg, -, addrs, vg', -, txHash, -, -, rfl⟩ := h
  rfl

section

variable (h : buildBlock P ord bc who txs = some (some b, bc'))
include h

/-- **What `buildBlock` makes**: a block of the given transactions, one above the head, with the
counters of their execution and the hash of the group. -/
theorem buildBlock_cases :
    ∃ acc committed vg, buildTotals P ord bc.db bc.currentBlock txs = some (acc, committed) ∧
      bc.validateGroup = some vg ∧ b.transactions = txs ∧
      b.header.number = bc.currentBlock.header.number + 1 ∧ b.header.idIndex = acc.spaceid ∧
      b.header.walletID = acc.walletid ∧ b.header.consensusGroupHash = vg.hash P.keccak := by
  unfold buildBlock at h
  split at h
  · cases h
  simp only [bind_eq_some, Prod.exists] at h
  obtain ⟨acc, committed, hbuild, vg, hvg, addrs, vg', -, txHash, -, h⟩ := h
  rw [Option.some.injEq, Prod.mk.injEq, Option.some.injEq] at h
  obtain ⟨sign, hsign⟩ := Block.exists_setSigner _ _
  rw [← h.1, hsign]
  exact ⟨acc, committed, vg, hbuild, hvg, rfl, rfl, rfl, rfl, rfl⟩

theorem buildBlock_eq_some :
    b.transactions = txs ∧ b.header.number = bc.currentBlock.header.number + 1 := by
  obtain ⟨_, _, _, -, -, htxs, hnumber, -⟩ := buildBlock_cases P h
  exact ⟨htxs, hnumber⟩

theorem buildBlock_counters :
    ∃ s acc, stateAt bc.db bc.currentBlock = .ok s ∧
      buildAll P bc.db (BlockChain.start bc.currentBlock s) b.transactions = some acc ∧
      b.header.idIndex = acc.spaceid ∧ b.header.walletID = acc.walletid := by
  obtain ⟨acc, committed, vg, hbuild, -, htxs, -, hid, hwallet, -⟩ := buildBlock_cases P h
  unfold buildTotals at hbuild
  split at hbuild
  · cases hbuild
  · next s hs =>
    simp only [bind_eq_some] at hbuild
    obtain ⟨acc', hacc', c, -, hpair⟩ := hbuild
    obtain ⟨rfl, rfl⟩ := Prod.mk.inj (Option.some.inj hpair)
    exact ⟨s, acc', hs, htxs ▸ hacc', hid, hwallet⟩

end

end

end Gocoin.Space
