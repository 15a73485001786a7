import Gocoin.Space.Reopening
import Gocoin.ValidateGroup.Crash

/-!
# Space/Recovery — an insertion that is cut off

`Insert` writes the groups and deletes the used reports while it executes a block, then the nodes of
the state, and last the six entries that make the block the head — each with its own `Put`.  These
are the edits of an insertion (`edits_insertEdits`).  A crash that leaves the canonical hash and not
yet the last hash leaves the old head, and the block can never be inserted again, because it is
taken for canonical; one that leaves the last hash and not yet the block throws the chain back to
its first block.  So no insertion that executes its block survives all crashes
(`insert_survives_iff`).
-/

namespace Gocoin

open State Trie

namespace ValidateGroup

/-- The edits of the `Add…` functions. -/
def addEdits (key : Bytes) (ms : List GroupMember) (seen : List Address) (m : GroupMember) :
    List Edit :=
  if m.address ∈ seen then []
  else
    match ms.getLast? with
    | some last => if last.time < m.time then membersEdits key (ms ++ [m]) else []
    | none => membersEdits key (ms ++ [m])

theorem edits_addEdits (db : Db) (key : Bytes) (ms : List GroupMember) (seen : List Address)
    (m : GroupMember) : db.edits (addEdits key ms seen m) = (addMember db key ms seen m).2.2 := by
  unfold addEdits addMember
  by_cases hseen : m.address ∈ seen
  · rw [if_pos hseen, if_pos hseen]
    rfl
  · rw [if_neg hseen, if_neg hseen]
    cases ms.getLast? with
    | none => exact edits_membersEdits ..
    | some last =>
      simp only
      split
      · exact edits_membersEdits ..
      · rfl

end ValidateGroup

open ValidateGroup

namespace State.StateDB

/-- The writes of `CommitTo`, in order. -/
def commitWrites (keccak : HashFn) (ord : IterOrder) (s : StateDB) (db : Db) :
    Option (List (Bytes × Bytes)) := do
  let s ← s.spaceFinalise keccak ord db.nodes true
  let (_, trieSpace, ws) ← orPanic (s.trieSpace.commitTo keccak)
  let s ← { s with trieSpace }.accountFinalise keccak ord (db.putAll ws).nodes true
  let (_, _, ws') ← orPanic (s.trieAccount.commitTo keccak)
  some (ws ++ ws')

end State.StateDB

namespace Space

/-- The writes of a commit are there. -/
theorem exists_commitWrites {keccak : HashFn} {ord : IterOrder} {s : StateDB} {db : Db}
    {c : StateDB.Committed} (h : s.commitTo keccak ord db = some c) :
    ∃ ws, s.commitWrites keccak ord db = some ws ∧ c.db = db.putAll ws := by
  simp only [StateDB.commitTo, bind_eq_some] at h
  obtain ⟨s₁, hs₁, ⟨h₁, t₁, ws₁⟩, hc₁, s₂, hs₂, ⟨h₂, t₂, ws₂⟩, hc₂, h⟩ := h
  rw [Option.some.injEq] at h
  subst h
  refine ⟨ws₁ ++ ws₂, ?_, (List.foldl_append ..).symm⟩
  simp only [StateDB.commitWrites, hs₁, hc₁, hs₂, hc₂, some_bind]

namespace BlockChain

section

variable (P : Prims)

/-! ## The edits of an insertion -/

/-- The edits of `ApplyTransaction`: an application, or a used report. -/
def sideEffectEdits (env : Surroundings) (tx : Tx) : List Edit :=
  let m : GroupMember := ⟨tx.senderOrZero P, tx.time⟩
  match tx.ptype, env.validateGroup with
  | some .applyGroup, some vg =>
    addEdits groupMembersKey vg.space.newgroupmembers vg.space.membersAddress m
  | some .stellGroup, some vg => addEdits stellMembersKey vg.stellgroupmembers vg.stellAddresses m
  | some .coinGroup, some vg =>
    addEdits coingroupMembersKey vg.coin.newgroupmembers vg.coin.membersAddress m
  | some .transactionGroup, some vg =>
    addEdits newTxMembersKey vg.transaction.newgroupmembers vg.transaction.membersAddress m
  | some .stellReport, _ =>
    if (getLiquidation env.db (tx.hash P)).length > 0 then [.delete (liquidationKey (tx.hash P))]
    else []
  | _, _ => []

/-- The edits of the loop of `Process`. -/
def applyEdits (env : Surroundings) : List Tx → List Edit
  | [] => []
  | tx :: txs => sideEffectEdits P env tx ++ applyEdits (sideEffect P env tx) txs

/-- The edits of the three resets at an epoch. -/
def resetGroupsEdits (vg : ValidateGroup) (hash : Hash) : List Edit :=
  Which.space.resetEdits P hash vg.space ++
    (Which.coin.resetEdits P hash vg.coin ++ Which.transaction.resetEdits P hash vg.transaction)

/-- The edits of `Process`. -/
def processEdits (bc : BlockChain) (b : Block) : List Edit :=
  let env : Surroundings := ⟨bc.db, bc.validateGroup⟩
  applyEdits P env b.transactions ++
    if b.numberU64 % epoch = 0 ∧ b.numberU64 ≠ 0 then
      match (b.transactions.foldl (sideEffect P) env).validateGroup with
      | none => []
      | some vg => resetGroupsEdits P vg b.header.consensusGroupHash
    else []

/-- The edits that make a block the head. -/
def headEdits (b : Block) : Option (List Edit) := do
  let hash := b.hash P.keccak
  let body ← b.bodyItem
  let head ← b.header.item
  some [.put (canonicalKey b.numberU64) hash.bytes, .put headBlockKey hash.bytes,
    .put headHeaderKey hash.bytes, .put (blockBodyKey hash b.numberU64) (Rlp.encode body),
    .put (numberKey hash) (encodeBlockNumber b.numberU64),
    .put (headerKey hash b.numberU64) (Rlp.encode head)]

/-- The edits of the part of `Insert` behind its checks. -/
def insertHeadEdits (ord : IterOrder) (bc : BlockChain) (b : Block) : Option (List Edit) :=
  match stateAt bc.db bc.currentBlock with
  | .error .panic => none
  | .error (.missing _) => some []
  | .ok s => do
    let (env, s, _) ← process P bc b s
    let ws ← s.commitWrites P.keccak ord env.db
    let head ← headEdits P b
    some (processEdits P bc b ++ ws.map (fun w => .put w.1 w.2) ++ head)

/-- The edits of `Insert`. -/
def insertEdits (ord : IterOrder) (bc : BlockChain) (b : Block) : Option (List Edit) := do
  if ← blockSigerVerifier P b then
    if b.numberU64 = bc.currentBlock.numberU64 then some []
    else if getCanonicalHash bc.db b.numberU64 ≠ b.hash P.keccak then insertHeadEdits P ord bc b
    else some []
  else some []

end

variable {P : Prims}

theorem edits_sideEffectEdits (env : Surroundings) (tx : Tx) :
    env.db.edits (sideEffectEdits P env tx) = (sideEffect P env tx).db := by
  unfold sideEffectEdits sideEffect Surroundings.enter
  cases htype : tx.ptype with
  | none => rfl
  | some kind =>
    cases kind with
    | stellReport =>
      simp only
      split <;> rfl
    | applyGroup | stellGroup | coinGroup | transactionGroup =>
      cases env.validateGroup with
      | none => rfl
      | some vg => exact edits_addEdits ..
    | _ => rfl

variable {env env' : Surroundings} {evs : List CreatethresholdEvent} {bc bc' : BlockChain}
  {b : Block} {db db' : Db} {ord : IterOrder} {txs : List Tx}

theorem edits_applyEdits (env : Surroundings) (txs : List Tx) :
    env.db.edits (applyEdits P env txs) = (txs.foldl (sideEffect P) env).db := by
  induction txs generalizing env with
  | nil => rfl
  | cons tx txs ih => rw [applyEdits, Db.edits_append, edits_sideEffectEdits, ih, List.foldl_cons]

theorem edits_resetGroupsEdits {hash : Hash} {number : UInt64} {vg : ValidateGroup}
    (hvg : env.validateGroup = some vg) (h : resetGroups P env hash number = some (env', evs)) :
    env.db.edits (resetGroupsEdits P vg hash) = env'.db := by
  simp only [resetGroups, hvg, bind_eq_some, Option.some.injEq, Prod.mk.injEq] at h
  obtain ⟨_, -, _, -, _, -, rfl, -⟩ := h
  have hspace := edits_resetEdits (P := P) .space hash vg env.db
  have hcoin := edits_resetEdits (P := P) .coin hash (vg.reset P env.db hash).1
    (vg.reset P env.db hash).2
  have htx := edits_resetEdits (P := P) .transaction hash
    ((vg.reset P env.db hash).1.resetCoinGroup P (vg.reset P env.db hash).2).1
    ((vg.reset P env.db hash).1.resetCoinGroup P (vg.reset P env.db hash).2).2
  rw [resetGroupsEdits, Db.edits_append, Db.edits_append]
  exact (congrArg (Db.edits · _) ((congrArg (Db.edits · _) hspace).trans hcoin)).trans htx

theorem edits_processEdits {s s' : StateDB} (h : process P bc b s = some (env, s', evs)) :
    bc.db.edits (processEdits P bc b) = env.db := by
  obtain ⟨env₁, acc, happly, -, h⟩ := process_cases P h
  have henv := applyAll_env P happly
  have hedits := edits_applyEdits (P := P) ⟨bc.db, bc.validateGroup⟩ b.transactions
  rw [processEdits, Db.edits_append]
  simp only [← henv] at hedits ⊢
  rw [hedits]
  obtain ⟨hepoch, rfl, -⟩ | ⟨hepoch, hreset⟩ := h
  · rw [if_neg hepoch]
    rfl
  · rw [if_pos hepoch]
    cases hvg : env₁.validateGroup with
    | none =>
      simp only [resetGroups, hvg, Option.some.injEq, Prod.mk.injEq] at hreset
      rw [← hreset.1]
      rfl
    | some vg => exact edits_resetGroupsEdits hvg hreset

theorem edits_headEdits (h : writeHead P db b = some db') :
    ∃ last, headEdits P b = some (.put (canonicalKey b.numberU64) (b.hash P.keccak).bytes :: last) ∧
      (db.put (canonicalKey b.numberU64) (b.hash P.keccak).bytes).edits last = db' := by
  obtain ⟨head, body, hhead, hbody, rfl⟩ := writeHead_eq P h
  refine ⟨[.put headBlockKey (b.hash P.keccak).bytes, .put headHeaderKey (b.hash P.keccak).bytes,
    .put (blockBodyKey (b.hash P.keccak) b.numberU64) (Rlp.encode body),
    .put (numberKey (b.hash P.keccak)) (encodeBlockNumber b.numberU64),
    .put (headerKey (b.hash P.keccak) b.numberU64) (Rlp.encode head)], ?_, rfl⟩
  simp only [headEdits, hhead, hbody, some_bind]

/-- The state of the head can be opened. -/
def Opens (bc : BlockChain) : Prop := ∃ s, stateAt bc.db bc.currentBlock = .ok s

/-- What `Insert` edits behind its checks: nothing, when the state cannot be opened; else what it
executes, the canonical hash, and the rest of the head's entries. -/
theorem insertHeadEdits_cases (h : insertHead P ord bc b = some (bc', evs)) :
    (¬ Opens bc ∧ bc' = bc ∧ insertHeadEdits P ord bc b = some []) ∨
      ∃ exec last,
        insertHeadEdits P ord bc b
          = some (exec ++ .put (canonicalKey b.numberU64) (b.hash P.keccak).bytes :: last) ∧
        bc.db.SameOff executedKeys (bc.db.edits exec) ∧
        bc'.currentBlock = b ∧
        bc.db.edits (exec ++ .put (canonicalKey b.numberU64) (b.hash P.keccak).bytes :: last)
          = bc'.db := by
  unfold insertHead at h
  unfold insertHeadEdits
  cases hs : stateAt bc.db bc.currentBlock with
  | error e =>
    rw [hs] at h
    cases e with
    | panic => cases h
    | missing r =>
      cases h
      refine .inl ⟨fun ⟨s, hok⟩ => ?_, rfl, rfl⟩
      rw [hs] at hok
      cases hok
  | ok s =>
    rw [hs] at h
    simp only [bind_eq_some, Prod.exists] at h
    obtain ⟨env, s', evs', hp, c, hc, db, hw, h⟩ := h
    cases h
    obtain ⟨ws, hws, hdb⟩ := exists_commitWrites hc
    obtain ⟨last, hhead, hedits⟩ := edits_headEdits hw
    have hexec : bc.db.edits (processEdits P bc b ++ ws.map fun w => .put w.1 w.2) = c.db := by
      rw [Db.edits_append, edits_processEdits hp, hdb, Db.edits, List.foldl_map]
      rfl
    refine .inr ⟨processEdits P bc b ++ ws.map fun w => .put w.1 w.2, last, ?_, ?_, rfl, ?_⟩
    · simp only [hp, hws, hhead, some_bind]
    · rw [hexec]
      refine ((process_sameOff P hp).mono Set.subset_union_left).trans
        ((commitTo_sameOff hc).mono ?_)
      exact Set.union_subset_union_left _ Set.subset_union_right
    · rw [Db.edits_append, hexec]
      exact hedits

/-! ## Blocks that are left out -/

variable (P) in
/-- `Insert` leaves the block out: it is not signed, it has the head's number, or it is
canonical. -/
def LeftOut (bc : BlockChain) (b : Block) : Prop :=
  blockSigerVerifier P b = some false ∨ b.numberU64 = bc.currentBlock.numberU64 ∨
    getCanonicalHash bc.db b.numberU64 = b.hash P.keccak

/-- A block that is left out changes nothing. -/
theorem LeftOut.insert (h : LeftOut P bc b) (hv : blockSigerVerifier P b ≠ none) (ord : IterOrder) :
    BlockChain.insert P ord bc b = some (bc, []) ∧ insertEdits P ord bc b = some [] := by
  obtain ⟨ok, hok⟩ := Option.ne_none_iff_exists'.mp hv
  rcases h with h | h | h <;> cases ok <;> simp_all [BlockChain.insert, insertEdits]

theorem insert_of_not_leftOut (h : ¬ LeftOut P bc b) (hv : blockSigerVerifier P b ≠ none)
    (ord : IterOrder) :
    BlockChain.insert P ord bc b = insertHead P ord bc b ∧
      insertEdits P ord bc b = insertHeadEdits P ord bc b := by
  obtain ⟨ok, hok⟩ := Option.ne_none_iff_exists'.mp hv
  simp only [LeftOut, not_or] at h
  cases ok <;> simp_all [BlockChain.insert, insertEdits]

theorem blockSigerVerifier_ne_none {r : BlockChain × List CreatethresholdEvent}
    (h : insert P ord bc b = some r) :
    blockSigerVerifier P b ≠ none := by
  intro hnone
  simp [insert, hnone] at h

/-- **The edits are those of the insertion.** -/
theorem edits_insertEdits (h : insert P ord bc b = some (bc', evs)) :
    ∃ es, insertEdits P ord bc b = some es ∧ bc.db.edits es = bc'.db := by
  have hv := blockSigerVerifier_ne_none h
  by_cases hleft : LeftOut P bc b
  · obtain ⟨hins, hes⟩ := hleft.insert hv ord
    rw [hins] at h
    cases h
    exact ⟨[], hes, rfl⟩
  · obtain ⟨hins, hes⟩ := insert_of_not_leftOut hleft hv ord
    rw [hins] at h
    obtain ⟨-, rfl, hnil⟩ | ⟨exec, last, hcons, -, -, hdb⟩ := insertHeadEdits_cases h
    · exact ⟨[], hes.trans hnil, rfl⟩
    · exact ⟨_, hes.trans hcons, hdb⟩

/-! ## Reopening -/

/-- A block that is read back has its header up to the root of the transactions. -/
theorem header_newBlock {keccak : HashFn} {header : Header}
    (h : newBlock keccak header txs = some b) :
    b.numberU64 = u64 header.number ∧ b.header.spaceRoot = header.spaceRoot ∧
      b.header.accRoot = header.accRoot := by
  unfold newBlock at h
  split at h <;>
  · obtain ⟨txHash, -, h⟩ := Option.bind_eq_some_iff.mp h
    cases h
    exact ⟨rfl, rfl, rfl⟩

theorem sameOff_loadLastState {genesisBlock : Block}
    (h : loadLastState P db genesisBlock = some (db', b)) : db.SameOff {headHeaderKey} db' := by
  unfold loadLastState at h
  simp only at h
  split at h
  · cases h
    exact .refl _ _
  · simp only [bind_eq_some] at h
    obtain ⟨r, -, h⟩ := h
    split at h
    · cases h
      exact .refl _ _
    · cases h
      exact Db.sameOff_put (Set.mem_singleton headHeaderKey) _ _

/-- A chain that is reopened has the head as `NewBlock` makes it, and its database up to the hash of
the last header. -/
theorem newBlockChain_of_houses (h : Houses P db b) (hbc : newBlockChain P db = some bc) :
    (∃ b₀, getBlockByNumber P db 0 = some (some b₀)) ∧
      newBlock P.keccak b.header b.transactions = some bc.currentBlock ∧
      db.SameOff {headHeaderKey} bc.db := by
  simp only [newBlockChain, bind_eq_some, Prod.exists] at hbc
  obtain ⟨_, hfirst, b₀, rfl, db', cur, hload, hbc⟩ := hbc
  cases hbc
  refine ⟨⟨b₀, hfirst⟩, ?_, sameOff_loadLastState hload⟩
  rw [← h.loadLastState b₀, hload]
  rfl

/-- A database with a first block that has the head is reopened. -/
theorem exists_newBlockChain {b₀ head : Block} (h : Houses P db b)
    (hfirst : getBlockByNumber P db 0 = some (some b₀))
    (hhead : newBlock P.keccak b.header b.transactions = some head) :
    ∃ bc, newBlockChain P db = some bc := by
  have hload := h.loadLastState b₀
  rw [hhead, Option.map_eq_some_iff] at hload
  obtain ⟨⟨db', cur⟩, hload, -⟩ := hload
  refine ⟨⟨db', cur, none⟩, ?_⟩
  simp only [newBlockChain, hfirst, hload, some_bind]

/-- The hash of the last header is neither a node nor a canonical hash. -/
theorem nodes_of_sameOff (h : db.SameOff {headHeaderKey} db') : db'.nodes = db.nodes := by
  refine funext fun x => h x.bytes fun hx => ?_
  have hlen := x.length_eq
  rw [show x.bytes = headHeaderKey from hx] at hlen
  exact absurd hlen (by decide)

theorem canonical_of_sameOff (h : db.SameOff {headHeaderKey} db') (n : UInt64) :
    getCanonicalHash db' n = getCanonicalHash db n := by
  have hne : canonicalKey n ∉ ({headHeaderKey} : Set Bytes) := by
    simp [canonicalKey, headerPrefix, headHeaderKey]
  unfold getCanonicalHash
  rw [h _ hne]

section

variable {bc bc' : BlockChain} {b : Block}

/-- The reopened chain leaves out the blocks that the chain leaves out, whatever its groups. -/
theorem LeftOut.reopened (h : LeftOut P bc b)
    (hnumber : bc'.currentBlock.numberU64 = bc.currentBlock.numberU64)
    (hoff : bc.db.SameOff {headHeaderKey} bc'.db) (vg : Option ValidateGroup) :
    LeftOut P { bc' with validateGroup := vg } b := by
  rcases h with h | h | h
  · exact .inl h
  · exact .inr (.inl (h.trans hnumber.symm))
  · exact .inr (.inr ((canonical_of_sameOff hoff _).trans h))

theorem opens_reopened
    (hhead : newBlock P.keccak bc.currentBlock.header bc.currentBlock.transactions
      = some bc'.currentBlock) (hoff : bc.db.SameOff {headHeaderKey} bc'.db) :
    Opens bc' ↔ Opens bc := by
  obtain ⟨-, hspace, hacc⟩ := header_newBlock hhead
  rw [Opens, Opens, stateAt, stateAt, nodes_of_sameOff hoff, hspace, hacc]

end

/-! ## Crashes -/

variable (P) in
/-- A node that crashed while it inserted the block recovers: reopened, it has the old head or the
block, it can open the state of it, and inserting the block again leads to the intended head. -/
def Recovers (bc : BlockChain) (b head : Block) (db : Db) : Prop :=
  ∃ bc', newBlockChain P db = some bc' ∧
    (bc'.currentBlock = bc.currentBlock ∨ bc'.currentBlock = b) ∧ Opens bc' ∧
    ∀ ord vg, ∃ r, insert P ord { bc' with validateGroup := vg } b = some r ∧
      r.1.currentBlock = head

/-- **An executed insertion does not survive the crash behind the canonical hash**: the old head is
there again, and the block is left out for ever. -/
theorem not_recovers_of_executed {es : List Edit} (hh : Houses P bc.db bc.currentBlock)
    (hleft : ¬ LeftOut P bc b) (h : insert P ord bc b = some (bc', evs))
    (hes : insertEdits P ord bc b = some es) (hopens : Opens bc) :
    ∃ k, ¬ Recovers P bc b bc'.currentBlock (bc.db.crashed es k) := by
  have hv := blockSigerVerifier_ne_none h
  obtain ⟨hins, hedits⟩ := insert_of_not_leftOut hleft hv ord
  rw [hins] at h
  rw [hedits] at hes
  obtain ⟨hnot, -⟩ | ⟨exec, last, hcons, hoff, hcur, -⟩ := insertHeadEdits_cases h
  · exact absurd hopens hnot
  rw [hcons, Option.some.injEq] at hes
  subst hes
  refine ⟨exec.length + 1, ?_⟩
  rintro ⟨bc₁, hreopen, -, -, hagain⟩
  set db := (bc.db.edits exec).put (canonicalKey b.numberU64) (b.hash P.keccak).bytes with hdb
  have hcut : bc.db.crashed
      (exec ++ .put (canonicalKey b.numberU64) (b.hash P.keccak).bytes :: last) (exec.length + 1)
        = db := by
    rw [Db.crashed_append, Db.crashed_of_length_le (Nat.le_succ _), Nat.add_sub_cancel_left]
    rfl
  rw [hcut] at hreopen
  have haside : bc.db.SameOff asideKeys db :=
    (hoff.mono asideKeys_of_exec).trans (Db.sameOff_put (.inl (.inr ⟨_, rfl⟩)) _ _)
  obtain ⟨-, hhead, hoff'⟩ := newBlockChain_of_houses (hh.sameOff haside) hreopen
  have hagain' : LeftOut P { bc₁ with validateGroup := none } b := .inr (.inr
    ((canonical_of_sameOff hoff' _).trans (getCanonicalHash_of_get (Db.get_put_self ..))))
  obtain ⟨r, hr, hhead'⟩ := hagain ord none
  rw [(hagain'.insert hv ord).1, Option.some.injEq] at hr
  rw [← hr, hcur] at hhead'
  refine hleft (.inr (.inl ?_))
  rw [← hhead']
  exact (header_newBlock hhead).1

/-- **Which insertions survive every crash**: those that leave the block out, on a chain whose head
is read back as it was. -/
theorem insert_survives_iff {ord₀ : IterOrder} {accounts : List AccountConfig} {now : ℤ}
    {bc₀ bc bc₁ : BlockChain} {ord : IterOrder} {b : Block} {evs : List CreatethresholdEvent}
    {es : List Edit} (h₀ : genesisChain P ord₀ accounts now = some bc₀)
    (hs : Storable P bc₀.currentBlock) (hr : Run P (fun _ b => Storable P b) bc₀ bc)
    (h : insert P ord bc b = some (bc₁, evs)) (hes : insertEdits P ord bc b = some es) :
    (∀ k, Recovers P bc b bc₁.currentBlock (bc.db.crashed es k)) ↔
      LeftOut P bc b ∧ Opens bc ∧ (∃ b₀, getBlockByNumber P bc.db 0 = some (some b₀)) ∧
        newBlock P.keccak bc.currentBlock.header bc.currentBlock.transactions
          = some bc.currentBlock := by
  have hh := run_houses (houses_genesisChain h₀ hs) hr
  have hv := blockSigerVerifier_ne_none h
  constructor
  · intro hall
    obtain ⟨bc', hreopen, -, hopens', hagain⟩ := hall 0
    obtain ⟨hfirst, hhead, hoff⟩ := newBlockChain_of_houses hh hreopen
    have hopens : Opens bc := (opens_reopened hhead hoff).mp hopens'
    by_cases hleft : LeftOut P bc b
    · refine ⟨hleft, hopens, hfirst, ?_⟩
      obtain ⟨r, hr, hr₁⟩ := hagain ord none
      rw [((hleft.reopened (header_newBlock hhead).1 hoff none).insert hv ord).1,
        Option.some.injEq] at hr
      rw [(hleft.insert hv ord).1] at h
      cases h
      rw [hhead, ← hr₁, ← hr]
    · obtain ⟨k, hk⟩ := not_recovers_of_executed hh hleft h hes hopens
      exact absurd (hall k) hk
  · rintro ⟨hleft, hopens, ⟨b₀, hfirst⟩, hsame⟩ k
    obtain ⟨hins, hnil⟩ := hleft.insert hv ord
    rw [hnil, Option.some.injEq] at hes
    rw [hins] at h
    cases h
    subst hes
    rw [Db.crashed_of_length_le (Nat.zero_le k), Db.edits_nil]
    obtain ⟨bc', hreopen⟩ := exists_newBlockChain hh hfirst hsame
    obtain ⟨-, hhead, hoff⟩ := newBlockChain_of_houses hh hreopen
    have hcur : bc'.currentBlock = bc.currentBlock := Option.some.inj (hhead.symm.trans hsame)
    refine ⟨bc', hreopen, .inl hcur, (opens_reopened hhead hoff).mpr hopens, fun ord' vg => ?_⟩
    exact ⟨_, ((hleft.reopened (header_newBlock hhead).1 hoff vg).insert hv ord').1, hcur⟩

open Sample (prims chain child)

/-- The law applies to a block that is inserted once more. -/
theorem insert_again_survives :
    ∃ bc₀ ∈ chain, ∃ r ∈ insert prims .plain bc₀ (child bc₀.currentBlock 1 []),
      ∀ k, Recovers prims r.1 r.1.currentBlock r.1.currentBlock (r.1.db.crashed [] k) := by
  have hrun : ∃ bc₀ ∈ chain, Storable prims bc₀.currentBlock ∧
      Storable prims (child bc₀.currentBlock 1 []) ∧
      ∃ r ∈ insert prims .plain bc₀ (child bc₀.currentBlock 1 []),
        blockSigerVerifier prims r.1.currentBlock = some true ∧
        (stateAt r.1.db r.1.currentBlock).toBool = true ∧
        (∃ first ∈ getBlockByNumber prims r.1.db 0, ∃ b₀ ∈ first, b₀.numberU64 = 0) ∧
        newBlock prims.keccak r.1.currentBlock.header r.1.currentBlock.transactions
          = some r.1.currentBlock := by
    decide +kernel
  obtain ⟨bc₀, hbc₀, hs₀, hs, r, hr, hv, hopen, ⟨_, hfirst, b₀, rfl, -⟩, hnew⟩ := hrun
  have hleft : LeftOut prims r.1 r.1.currentBlock := .inr (.inl rfl)
  obtain ⟨hins, hnil⟩ := hleft.insert (by rw [hv]; nofun) .plain
  have hopens : Opens r.1 := by
    cases hnew : stateAt r.1.db r.1.currentBlock with
    | error e =>
      rw [hnew] at hopen
      cases hopen
    | ok s => exact ⟨s, hnew⟩
  exact ⟨bc₀, hbc₀, r, hr,
    (insert_survives_iff hbc₀ hs₀ (.single (.insert hs hr)) hins hnil).mpr
      ⟨hleft, hopens, ⟨b₀, hfirst⟩, hnew⟩⟩

/-- A crash between the hash of the last block and the block: two blocks behind the first one, the
reopened chain is at the first block again. -/
theorem crash_falls_back_to_genesis :
    ∃ bc ∈ chain, ∃ r ∈ insert prims .plain bc (child bc.currentBlock 1 []),
    ∃ es ∈ insertEdits prims .plain r.1 (child r.1.currentBlock 1 []),
    ∃ bc' ∈ newBlockChain prims (r.1.db.crashed es (es.length - 4)),
      bc'.currentBlock = bc.currentBlock ∧ bc'.currentBlock ≠ r.1.currentBlock ∧
        bc'.currentBlock ≠ child r.1.currentBlock 1 [] := by
  decide +kernel

end BlockChain

end Space

end Gocoin
