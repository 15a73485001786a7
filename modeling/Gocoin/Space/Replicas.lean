import Gocoin.Protocol.Binding
import Gocoin.Space.Counters

/-!
# Space/Replicas — what two nodes agree on

A header names its parent by hash, so the hash of a block fixes all that lies below it: two chains
from runs of their own that agree on one canonical hash have the same history up to there
(`same_history`).  It names the roots of its state too, so nodes with one head read the same
(`same_state`).  And a block that one node builds is accepted by another one on the same head,
although each walks its maps in an order of its own (`built_accepted`).
-/

namespace Gocoin.Space

open State Rlp Trie

/-- The encoding of the canonical header of a number. -/
def canonicalHeaderRLP (db : Db) (n : ℕ) : Option Bytes :=
  getHeaderRLP db (getCanonicalHash db (u64 n)) (u64 n)

namespace BlockChain

/-- The encodings of the canonical headers. -/
def canonicalHeaders (bc : BlockChain) : List Bytes :=
  (List.range (bc.currentBlock.header.number + 1)).filterMap (canonicalHeaderRLP bc.db)

/-- The chain holds the first block only, and stores it. -/
structure FirstStored (P : Prims) (bc : BlockChain) : Prop extends GenesisOnly P bc where
  stored : StoredAt P.keccak bc.db 0 bc.currentBlock

/-- A block is stored and canonical at the number zero. -/
def HasFirst (P : Prims) (bc : BlockChain) : Prop :=
  ∃ b, StoredAt P.keccak bc.db 0 b ∧ getCanonicalHash bc.db 0 = b.hash P.keccak

variable {P : Prims} {bc₀ bc bc₀' bc' : BlockChain} {n : ℕ} {D : Set Bytes} {C C' : Contents}
  {ord : IterOrder} {who : Proposer} {txs : List Tx} {b : Block}

/-- A genesis chain stores the first block. -/
theorem firstStored_genesisChain {accounts : List AccountConfig} {now : ℤ}
    (h : genesisChain P ord accounts now = some bc) : FirstStored P bc := by
  obtain ⟨s₀, r, c, db, hf⟩ := exists_founded h
  have hstored := hf.storedAt P
  rw [Block.numberU64, hf.number] at hstored
  exact ⟨genesisOnly_genesisChain P h, hstored⟩

/-- Runs that extend the head keep the first block. -/
theorem hasFirst_of_run (h₀ : FirstStored P bc₀) (hr : Run P (Extends P) bc₀ bc) :
    HasFirst P bc := by
  refine hr.invariant ⟨_, h₀.stored, h₀.head⟩ ?_ ?_
  · rintro bc bc' ord b evs ⟨b₀, hstored, hcanon⟩ hC h
    obtain rfl | ⟨db, hoff, hw, -, hn, hlt, -⟩ := insert_child hC h
    · exact ⟨b₀, hstored, hcanon⟩
    have hne : (0 : UInt64) ≠ b.numberU64 := fun he =>
      absurd (u64_inj (m := 0) (by norm_num) hlt he) (by omega)
    refine ⟨b₀, (hstored.sameOff hoff).writeHead hw hne, ?_⟩
    rw [getCanonicalHash_writeHead hw, if_neg hne, getCanonicalHash_sameOff hoff, hcanon]
  · rintro bc hash data ⟨b₀, hstored, hcanon⟩
    have hoff := report_sameOff bc.db hash data
    exact ⟨b₀, hstored.sameOff hoff, (getCanonicalHash_sameOff hoff 0).trans hcanon⟩

/-- The canonical header of a number: it has the canonical hash, and names that of the number
before. -/
theorem Linked.exists_header (hl : Linked P bc) (hf : HasFirst P bc)
    (hn : n ≤ bc.currentBlock.header.number) :
    ∃ (h : Header) (it : Item), h.item = some it ∧ canonicalHeaderRLP bc.db n = some (encode it) ∧
      encode it ∈ bc.canonicalHeaders ∧ getCanonicalHash bc.db (u64 n) = P.keccak (encode it) ∧
      (1 ≤ n → h.uncleHash = getCanonicalHash bc.db (u64 (n - 1))) := by
  obtain ⟨b, hstored, hcanon, hparent⟩ : ∃ b, StoredAt P.keccak bc.db (u64 n) b ∧
      getCanonicalHash bc.db (u64 n) = b.hash P.keccak ∧
      (1 ≤ n → b.header.uncleHash = getCanonicalHash bc.db (u64 (n - 1))) := by
    rcases Nat.eq_zero_or_pos n with rfl | h1
    · obtain ⟨b, hstored, hcanon⟩ := hf
      exact ⟨b, hstored, hcanon, fun h => absurd h (by omega)⟩
    · obtain ⟨b, hstored, hcanon, -, hparent⟩ := hl.link n h1 hn
      exact ⟨b, hstored, hcanon, fun _ => hparent⟩
  obtain ⟨it, -, hit, -, hget, -⟩ := hstored
  rw [← hcanon] at hget
  refine ⟨b.header, it, hit, hget, List.mem_filterMap.mpr ⟨n, ?_, hget⟩, ?_, hparent⟩
  · exact List.mem_range.mpr (Nat.lt_succ_of_le hn)
  · rw [hcanon, Block.hash, Header.hash, hit]
    rfl

/-- **One hash, one history.**  Two runs, each from a first block of its own, whose chains have the
same canonical hash at a number have the same canonical hashes and headers from there down to the
first block.  The hash is assumed to have no collision on the headers of the two chains. -/
theorem same_history (h₀ : FirstStored P bc₀) (hr : Run P (Extends P) bc₀ bc)
    (h₀' : FirstStored P bc₀') (hr' : Run P (Extends P) bc₀' bc')
    (hfits : ∀ e ∈ bc.canonicalHeaders, e.length < 2 ^ 64)
    (hfree : ∀ e ∈ bc.canonicalHeaders, ∀ e' ∈ bc'.canonicalHeaders,
      P.keccak e = P.keccak e' → e = e')
    (hn : n ≤ bc.currentBlock.header.number) (hn' : n ≤ bc'.currentBlock.header.number)
    (hsame : getCanonicalHash bc.db (u64 n) = getCanonicalHash bc'.db (u64 n)) :
    ∀ m ≤ n, getCanonicalHash bc.db (u64 m) = getCanonicalHash bc'.db (u64 m) ∧
      canonicalHeaderRLP bc.db m = canonicalHeaderRLP bc'.db m := by
  have hl := linked_of_run h₀.toGenesisOnly hr
  have hl' := linked_of_run h₀'.toGenesisOnly hr'
  induction n with
  | zero =>
    intro m hm
    obtain rfl := Nat.le_zero.mp hm
    obtain ⟨h, it, -, he, hmem, hcanon, -⟩ := hl.exists_header (hasFirst_of_run h₀ hr) hn
    obtain ⟨h', it', -, he', hmem', hcanon', -⟩ := hl'.exists_header (hasFirst_of_run h₀' hr') hn'
    rw [he, he', hfree _ hmem _ hmem' (hcanon.symm.trans (hsame.trans hcanon'))]
    exact ⟨hsame, rfl⟩
  | succ n ih =>
    obtain ⟨h, it, hit, he, hmem, hcanon, hparent⟩ :=
      hl.exists_header (hasFirst_of_run h₀ hr) hn
    obtain ⟨h', it', hit', he', hmem', hcanon', hparent'⟩ :=
      hl'.exists_header (hasFirst_of_run h₀' hr') hn'
    have henc : encode it = encode it' :=
      hfree _ hmem _ hmem' (hcanon.symm.trans (hsame.trans hcanon'))
    obtain rfl : it = it' := encode_injective (hfits _ hmem) henc
    obtain rfl : h = h' := (Header.item_eq_iff hit hit').mp rfl
    intro m hm
    rcases Nat.le_succ_iff.mp hm with hm | rfl
    · exact ih (by omega) (by omega) ((hparent (by omega)).symm.trans (hparent' (by omega))) m hm
    · exact ⟨hsame, he.trans he'.symm⟩

/-- Two nodes that have initialised the small chain at different times, and have inserted a block
each, have the same history. -/
theorem same_history_sample :
    ∃ bc₀ ∈ Sample.chain, ∃ bc₀' ∈ Sample.chainAt 6,
      ∃ r ∈ insert Sample.prims .plain bc₀ (Sample.child bc₀.currentBlock 1 []),
      ∃ r' ∈ insert Sample.prims .plain bc₀' (Sample.child bc₀'.currentBlock 1 []),
        r.1.currentBlock.header.number = 1 ∧
        ∀ m ≤ 1, getCanonicalHash r.1.db (u64 m) = getCanonicalHash r'.1.db (u64 m) ∧
          canonicalHeaderRLP r.1.db m = canonicalHeaderRLP r'.1.db m := by
  have hrun : ∃ bc₀ ∈ Sample.chain, ∃ bc₀' ∈ Sample.chainAt 6,
      ∃ r ∈ insert Sample.prims .plain bc₀ (Sample.child bc₀.currentBlock 1 []),
      ∃ r' ∈ insert Sample.prims .plain bc₀' (Sample.child bc₀'.currentBlock 1 []),
        (r.1.currentBlock.header.number = 1 ∧ r'.1.currentBlock.header.number = 1 ∧
          getCanonicalHash r.1.db (u64 1) = getCanonicalHash r'.1.db (u64 1)) ∧
        (∀ e ∈ r.1.canonicalHeaders, e.length < 2 ^ 64) ∧
        ∀ e ∈ r.1.canonicalHeaders, ∀ e' ∈ r'.1.canonicalHeaders,
          Sample.keccak e = Sample.keccak e' → e = e' := by
    decide +kernel
  obtain ⟨bc₀, h₀, bc₀', h₀', ⟨bc, evs⟩, h, ⟨bc', evs'⟩, h', ⟨hn, hn', hsame⟩, hfits, hfree⟩ := hrun
  have hg : FirstStored Sample.prims bc₀ := firstStored_genesisChain h₀
  have hg' : FirstStored Sample.prims bc₀' := firstStored_genesisChain h₀'
  have hext : ∀ bc : BlockChain, bc.currentBlock.header.number = 0 →
      Extends Sample.prims bc (Sample.child bc.currentBlock 1 []) := fun bc hzero _ _ _ _ =>
    ⟨rfl, lt_of_le_of_lt (Nat.succ_le_succ hzero.le) (by norm_num), rfl⟩
  exact ⟨bc₀, h₀, bc₀', h₀', _, h, _, h', hn,
    same_history hg (.single (.insert (hext bc₀ hg.number) h)) hg'
      (.single (.insert (hext bc₀' hg'.number) h')) hfits hfree hn.ge hn'.ge hsame⟩

/-- `CurrentState` at the roots of the head. -/
def currentState (bc : BlockChain) : Option StateDB := (stateAt bc.db bc.currentBlock).toOption

/-- What a node reads of an account at its head. -/
def readAccount (P : Prims) (bc : BlockChain) (addr : Address) : Option (Lookup AccountObject) :=
  bc.currentState.bind fun s => (s.getAccountObject P.keccak bc.db.nodes addr).map Prod.fst

/-- What it reads of a space. -/
def readSpace (P : Prims) (bc : BlockChain) (id : ℕ) : Option (Lookup SpaceObject) :=
  bc.currentState.bind fun s => (s.getSpaceObject P.keccak bc.db.nodes id).map Prod.fst

/-- What is read is what is stored. -/
theorem Holds.read (h : Holds P D bc C) :
    (∀ addr, readAccount P bc addr = some (C.storedAccount P.keccak addr)) ∧
      ∀ id, readSpace P bc id = some (C.storedSpace P.keccak id) := by
  obtain ⟨s, (hnew : stateAt _ _ = _), hg, -, ha, hs⟩ := exists_new h.space h.account fun _ => True
  have hopen : bc.currentState = some s := by rw [currentState, hnew, Except.toOption]
  refine ⟨fun addr => ?_, fun id => ?_⟩
  · obtain ⟨s', hs', -⟩ := hg.exists_getAccountObject addr
    rw [readAccount, hopen, Option.bind_some, hs', Option.map_some, StateDB.accountAt, ha]
  · obtain ⟨s', hs', -⟩ := hg.exists_getSpaceObject id fun _ _ => trivial
    rw [readSpace, hopen, Option.bind_some, hs', Option.map_some, StateDB.spaceAt, hs]

/-- **One head, one state.**  Two nodes whose heads have one hash, and whose databases have the
states of their heads, read the same of every account and every space, whatever else the databases
have.  The hash is assumed to have no collision on the two headers and on the nodes. -/
theorem same_state (hD : CollisionFree P.keccak D) (h : Holds P D bc C)
    (h' : Holds P D bc' C') (hgas : 0 ≤ bc.currentBlock.header.gasUsed)
    (hgas' : 0 ≤ bc'.currentBlock.header.gasUsed)
    (hfree : NoCollision P.keccak bc.currentBlock.header.write bc'.currentBlock.header.write)
    (hsame : bc.currentBlock.hash P.keccak = bc'.currentBlock.hash P.keccak) :
    (∀ addr, readAccount P bc addr = readAccount P bc' addr) ∧
      ∀ id, readSpace P bc id = readSpace P bc' id := by
  obtain ⟨it, hit⟩ := Header.exists_item hgas
  obtain ⟨it', hit'⟩ := Header.exists_item hgas'
  rw [Block.hash, Block.hash, Header.hash, Header.hash, hit, hit',
    rlpHash_eq_iff (Header.writes_write hit) (Header.writes_write hit') hfree,
    Header.item_eq_iff hit hit'] at hsame
  obtain rfl : C = C' :=
    h.contents_eq hD h' (congrArg Header.spaceRoot hsame) (congrArg Header.accRoot hsame)
  exact ⟨fun addr => (h.read.1 addr).trans (h'.read.1 addr).symm,
    fun id => (h.read.2 id).trans (h'.read.2 id).symm⟩

/-- A node that has received a report reads the same as one that has not. -/
theorem same_state_report : ∃ bc ∈ Sample.chain, ∀ hash data addr, readAccount Sample.prims bc addr
    = readAccount Sample.prims { bc with db := writeLiquidationHash bc.db hash data } addr := by
  have hrun : ∃ bc ∈ Sample.chain, 0 ≤ bc.currentBlock.header.gasUsed ∧
      NoCollision Sample.keccak bc.currentBlock.header.write bc.currentBlock.header.write ∧
      ∀ v ∈ bc.db.nodes bc.currentBlock.header.consensusGroupHash, v.length ≤ 31 := by
    decide +kernel
  obtain ⟨bc, hbc, hgas, hfree, hgroup⟩ := hrun
  have hC := Sample.holds_first hbc hgroup
  exact ⟨bc, hbc, fun hash data => (same_state Sample.collisionFree_firstNodes hC
    (hC.report hash data) hgas hgas hfree rfl).1⟩

/-- **A block that is built is accepted.**  Where the state of the head is stored, whatever
transactions `buildBlock` puts into a block, `validateBlock` accepts it on the same database, in
whatever orders the two walk their maps; unless the head's number is the last one or a changed
account has two attributes. -/
theorem built_accepted (h : Holds P D bc C) (hb : buildBlock P ord bc who txs = some (some b, bc'))
    (hhead : bc.currentBlock.numberU64 ≠ lastNumber)
    (hstate : ∀ s acc, stateAt bc.db bc.currentBlock = .ok s →
      validateAll P bc.db (start bc.currentBlock s) txs = some acc → acc.state.FewAttributes ∧
        CollisionFree P.keccak (hashedByCommits P.keccak bc.db C acc.state)) (ord' : IterOrder) :
    ∃ db, validateBlock P ord' bc.db bc.currentBlock b = some (true, db) := by
  have htxs := (buildBlock_eq_some P hb).1
  unfold buildBlock at hb
  split at hb
  · cases hb
  simp only [bind_eq_some, Prod.exists] at hb
  obtain ⟨acc, c, hbuild, vg, -, addrs, vg', -, txHash, -, hb⟩ := hb
  rw [Option.some.injEq, Prod.mk.injEq, Option.some.injEq] at hb
  obtain ⟨sign, hsign⟩ := Block.exists_setSigner _ _
  have hreplay : replay P ord bc.db bc.currentBlock txs = some (acc, c) := by
    rw [← hbuild]
    simp only [replay, buildTotals, buildAll_eq]
  have hok : validateBlock P ord bc.db bc.currentBlock b = some (true, c.db) := by
    rw [← hb.1, hsign]
    exact (validateBlock_eq_true_iff P).mpr
      ⟨rfl, u64_lt_u64_succ hhead, acc, c, hreplay, rfl, rfl, rfl, rfl, rfl⟩
  exact h.accepts hok (by rwa [htxs]) ord'

open Sample (prims chain firstProposer moveOut)

/-- A block that creates a space is built on the first one, and accepted by a node that walks its
maps in another order. -/
theorem built_accepted_moved :
    ∃ bc ∈ chain, ∃ r ∈ buildBlock prims .plain bc firstProposer [moveOut], ∃ b ∈ r.1,
      b.header.accRoot ≠ bc.currentBlock.header.accRoot ∧
      ∃ db, validateBlock prims .swapped bc.db bc.currentBlock b = some (true, db) := by
  obtain ⟨bc, b, bc', h⟩ := Sample.exists_movedBy
  obtain ⟨_, hbuilt⟩ := h.built
  have hC := Sample.holds_first h.first h.group
  have hhead : bc.currentBlock.numberU64 ≠ lastNumber := by
    rw [Block.numberU64, h.number]
    decide
  refine ⟨bc, h.first, _, hbuilt, b, rfl, h.changed, built_accepted hC hbuilt hhead
    (fun s acc hs hall => ?_) .swapped⟩
  have hmoved := Sample.moved_moveOut h.first hs hall
  exact ⟨hmoved.few, Sample.collisionFree_firstNodes.mono (hmoved.hashedByCommits hC)⟩

end BlockChain

end Gocoin.Space
