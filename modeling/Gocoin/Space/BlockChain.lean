import Gocoin.Space.Transition

/-!
# Space/BlockChain — inserting blocks

`space/blockchain.go`.  `Insert` checks a block's signature, executes the block on the state of the
head, writes the new state and makes the block the head; `insertChain` inserts a slice of blocks
whose links it has checked.  A crash — a Go panic, or the exit of the process when a block cannot be
encoded — is `none`.
-/

namespace Gocoin.Space

open State Trie

/-- `CreatethresholdEvent`. -/
structure CreatethresholdEvent where
  gid : ℕ
  hash : Hash
  addrs : List Address

/-- `BlockChain`: the database, the head and the member groups. -/
structure BlockChain where
  db : Db
  currentBlock : Block
  validateGroup : Option ValidateGroup

namespace BlockChain

/-- `Epoch`. -/
def epoch : UInt64 := 3

/-- `IsStellMember`. -/
def isStellMember (bc : BlockChain) (addr : Address) : Bool :=
  bc.validateGroup.any fun vg => vg.isStellAddress addr

section

variable (P : Prims)

/-- `BlockSigerVerifier`: by the first byte of the key, an address or a group key must have signed
the header.  A signed header without key is an index out of range, and so is an empty group key:
`SetHexString` takes the address of its first byte. -/
def blockSigerVerifier (b : Block) : Option Bool :=
  if b.header.sign.length > 0 then
    match b.header.pk with
    | [] => none
    | ptype :: key =>
      let hash := b.header.hashNoSig P.keccak
      if ptype = 1 then
        match P.signSender hash b.header.sign with
        | none => some false
        | some addr => some (decide (key = addr.bytes))
      else if ptype = 2 then
        if key = [] then none else some (P.blsVerify b.header.sign hash.bytes key)
      else some false
  else some false

/-- The event of a group's threshold members, announced when there are three of them. -/
def announce (gid : ℕ) (g : ValidateGroup.MemberGroup) (number : UInt64) :
    Option (List CreatethresholdEvent) :=
  if 3 ≤ g.thresholdgroupmembers.length then do
    let addrs ← g.selectThresholds P.keccak number
    some [⟨gid, rlpHash P.keccak (some (.list (addrs.map fun a => .str a.bytes))), addrs⟩]
  else some []

/-- The end of `Process` at an epoch: the three groups are reset one after the other. -/
def resetGroups (env : Surroundings) (hash : Hash) (number : UInt64) :
    Option (Surroundings × List CreatethresholdEvent) :=
  match env.validateGroup with
  | none => some (env, [])
  | some vg => do
    let (vg, db) := vg.reset P env.db hash
    let ev0 ← announce P 0 vg.space number
    let (vg, db) := vg.resetCoinGroup P db
    let ev1 ← announce P 1 vg.coin number
    let (vg, db) := vg.resetTxGroup P db
    let ev2 ← announce P 2 vg.transaction number
    some (⟨db, some vg⟩, ev0 ++ ev1 ++ ev2)

/-- What the execution of a block starts from: the counters of the head. -/
def start (head : Block) (s : StateDB) : Totals := ⟨head.header.idIndex, head.header.walletID, 0, s⟩

/-- `Process`: every transaction on the state, then the groups at an epoch. -/
def process (bc : BlockChain) (b : Block) (s : StateDB) :
    Option (Surroundings × StateDB × List CreatethresholdEvent) := do
  let (env, acc) ← applyAll P ⟨bc.db, bc.validateGroup⟩ (start bc.currentBlock s) b.transactions
  if b.numberU64 % epoch = 0 ∧ b.numberU64 ≠ 0 then do
    let (env, evs) ← resetGroups P env b.header.consensusGroupHash b.numberU64
    some (env, acc.state, evs)
  else some (env, acc.state, [])

/-- The writes that make a block the head. -/
def writeHead (db : Db) (b : Block) : Option Db :=
  let hash := b.hash P.keccak
  writeBlock P.keccak
    (writeHeadHeaderHash
      (writeHeadBlockHash (writeCanonicalHash db hash b.numberU64) hash) hash) b

/-- The part of `Insert` behind its checks: execute, commit, make the block the head. -/
def insertHead (ord : IterOrder) (bc : BlockChain) (b : Block) :
    Option (BlockChain × List CreatethresholdEvent) :=
  match stateAt bc.db bc.currentBlock with
  | .error .panic => none
  | .error (.missing _) => some (bc, [])
  | .ok s => do
    let (env, s, evs) ← process P bc b s
    let committed ← s.commitTo P.keccak ord env.db
    let db ← writeHead P committed.db b
    some (⟨db, b, env.validateGroup⟩, evs)

/-- `Insert`: a block with the head's number, and one that is canonical already, is left out. -/
def insert (ord : IterOrder) (bc : BlockChain) (b : Block) :
    Option (BlockChain × List CreatethresholdEvent) := do
  if ← blockSigerVerifier P b then
    if b.numberU64 = bc.currentBlock.numberU64 then some (bc, [])
    else if getCanonicalHash bc.db b.numberU64 ≠ b.hash P.keccak then insertHead P ord bc b
    else some (bc, [])
  else some (bc, [])

/-- The check of `insertChain`: each block follows the one before it. -/
def linked : List Block → Bool
  | a :: b :: rest =>
    decide (b.numberU64 = a.numberU64 + 1) && decide (b.header.uncleHash = a.hash P.keccak) &&
      linked (b :: rest)
  | _ => true

/-- The loop of `insertChain`, each block with the orders its commit walks maps in. -/
def insertAll (bc : BlockChain) : List (Block × IterOrder) →
    Option (BlockChain × List CreatethresholdEvent)
  | [] => some (bc, [])
  | (b, ord) :: rest => do
    let (bc, evs) ← insert P ord bc b
    let (bc, evs') ← insertAll bc rest
    some (bc, evs ++ evs')

/-- `insertChain`: how many blocks it went through; a broken chain is skipped without an error. -/
def insertChain (bc : BlockChain) (chain : List (Block × IterOrder)) :
    Option (ℕ × BlockChain × List CreatethresholdEvent) :=
  if linked P (chain.map Prod.fst) then do
    let (bc, evs) ← insertAll P bc chain
    some (chain.length, bc, evs)
  else some (0, bc, [])

end

end BlockChain

end Gocoin.Space
