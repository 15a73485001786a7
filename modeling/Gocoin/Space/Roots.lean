import Gocoin.Space.Agreement
import Gocoin.Space.Overwrite
import Gocoin.Space.Recovery
import Gocoin.Space.Validation
import Gocoin.State.Order

/-!
# Space/Roots — the roots that a head names

`Insert` executes a block on the state of the head and commits the state, but it only prints the two
roots it gets: the state of the new head is opened at the roots that its header names.  A block that
names other roots is made head all the same (`forged_root_is_head`), and the next one is executed on
an unrelated state.

Only `validateBlock` compares the roots.  When every executed block has passed it, names no report
twice, and overwrites no trie node with its group, the roots of the header are those of the commit,
and the state that opens there is the committed one (`run_head_committed`).
-/

namespace Gocoin

open State Trie ValidateGroup

/-! ## Stores without nodes -/

/-- A store that changes under keys of another length only has the same nodes. -/
theorem Db.nodes_eq_of_sameOff {db db' : Db} (h : db.SameOff {k | k.length ≠ 32} db') :
    db'.nodes = db.nodes :=
  funext fun x => h x.bytes fun hx => hx x.length_eq

namespace State

variable {keccak : HashFn} {s : StateDB} {C : Contents} {ord : IterOrder}

/-- A state over a store that keeps the nodes of its two maps. -/
theorem Good.monoOn {get get' : Nodes} {K : ℕ → Prop}
    (hspace : KeepsOn keccak get (nodesOf keccak C.space) get')
    (haccount : KeepsOn keccak get (nodesOf keccak C.account) get') (h : Good keccak get C K s) :
    Good keccak get' C K s :=
  { h with space := h.space.monoOn hspace, account := h.account.monoOn haccount }

/-- A state without changes stores the nodes of its two maps. -/
theorem committedNodes_of_clean (hspace : s.spaceObjectsDirty = [])
    (haccount : s.accountObjectsDirty = []) :
    committedNodes keccak ord C s ⊆ nodesOf keccak C.space ∪ nodesOf keccak C.account := by
  rintro e (⟨es, hes, he⟩ | ⟨es, hes, he⟩)
  · rw [StateDB.spaceEntries, hspace, List.perm_nil.mp (ord.spaces_perm [])] at hes
    cases hes
    exact .inl he
  · rw [StateDB.accountEntries, haccount, List.perm_nil.mp (ord.accounts_perm [])] at hes
    cases hes
    exact .inr he

/-- What a commit has committed: the entries exist. -/
theorem exists_entries {db : Db} {c : StateDB.Committed} (h : s.commitTo keccak ord db = some c) :
    ∃ es as, s.spaceEntries ord = some es ∧ s.accountEntries ord = some as := by
  by_contra hnot
  rw [commitTo_eq_none] at h
  · cases h
  · cases hes : s.spaceEntries ord with
    | none => exact .inl rfl
    | some es =>
      cases has : s.accountEntries ord with
      | none => exact .inr rfl
      | some as => exact absurd ⟨es, as, hes, has⟩ hnot

end State

namespace Space

namespace BlockChain

section

variable (P : Prims) (D : Set Bytes)

/-! ## The state of the head -/

/-- The state of the head is stored, as these two maps, and the strings that the database has under
their hashes — the nodes of the two maps among them — are known. -/
structure Holds (bc : BlockChain) (C : Contents) : Prop where
  space : Trie.StoredAt P.keccak bc.db.nodes bc.currentBlock.header.spaceRoot C.space
  account : Trie.StoredAt P.keccak bc.db.nodes bc.currentBlock.header.accRoot C.account
  spaceNodes : nodesOf P.keccak C.space ⊆ D
  accountNodes : nodesOf P.keccak C.account ⊆ D
  stored : storedNodes P.keccak bc.db ⊆ D

/-- **The block has been checked**: `validateBlock` accepts it on the head, in whatever order it
walks its maps; it names no report twice; and no trie node lies where it writes its group. -/
structure Checked (bc : BlockChain) (b : Block) : Prop where
  accepted : ∀ ord, ∃ db, validateBlock P ord bc.db bc.currentBlock b = some (true, db)
  reports : (reportHashes P b.transactions).Nodup
  nodes : ∀ w ∈ groupWrites P bc b, ∀ buf ∈ bc.db.nodes w.1, decodeNode none buf 0 ≠ none →
    buf = w.2

/-- The strings that the insertion of a block stores under hashes are among the known ones. -/
structure Within (bc : BlockChain) (b : Block) : Prop where
  groups : ∀ w ∈ groupWrites P bc b, w.2 ∈ D
  nodes : ∀ ord C s env s' evs, Holds P D bc C → stateAt bc.db bc.currentBlock = .ok s →
    process P bc b s = some (env, s', evs) → committedNodes P.keccak ord C s' ⊆ D

/-- What an insertion made head: the roots of the header are those of the commit, and the state that
opens there reads as the committed one under every key. -/
def CommittedHead (ord : IterOrder) (bc : BlockChain) (b : Block) (bc' : BlockChain) : Prop :=
  ∃ s env s' evs c s'', stateAt bc.db bc.currentBlock = .ok s ∧
    process P bc b s = some (env, s', evs) ∧ s'.commitTo P.keccak ord env.db = some c ∧
    bc'.currentBlock = b ∧ b.header.spaceRoot = c.rootSpace ∧ b.header.accRoot = c.rootAccount ∧
    stateAt bc'.db b = .ok s'' ∧
    ∀ key,
      (s''.trieSpace.tryGet P.keccak bc'.db.nodes key).map Prod.fst
        = (c.state.trieSpace.tryGet P.keccak c.db.nodes key).map Prod.fst ∧
      (s''.trieAccount.tryGet P.keccak bc'.db.nodes key).map Prod.fst
        = (c.state.trieAccount.tryGet P.keccak c.db.nodes key).map Prod.fst

end

variable {P : Prims} {D : Set Bytes}

/-! ## What processing leaves of the nodes -/

variable {bc : BlockChain} {b : Block} {db db' : Db} {C : Contents} {s s' s₀ : StateDB}
  {ord : IterOrder} {get : Nodes} {accounts : List AccountConfig}
  {r : UInt64 × StateDB} {m : HashMap} {evs : List CreatethresholdEvent} {now : ℤ}

/-- The nodes of a stored map survive the group's writes, when no trie node lies where they go. -/
theorem keepsOn_groupWrites
    (hapart : ∀ w ∈ groupWrites P bc b, ∀ buf ∈ bc.db.nodes w.1, decodeNode none buf 0 ≠ none →
      buf = w.2) (hw : Overwrites (groupWrites P bc b) bc.db db) {root : Hash}
    (hm : Trie.StoredAt P.keccak bc.db.nodes root m) :
    KeepsOn P.keccak bc.db.nodes (nodesOf P.keccak m) db.nodes := by
  intro e he hget
  by_cases hx : ∃ w ∈ groupWrites P bc b, w.1 = P.keccak e
  · obtain ⟨w, hmem, hw₁⟩ := hx
    have he' : e = w.2 := hapart w hmem e (by rw [hw₁]; exact hget) (hm.decodeNode_ne_none he)
    rw [← hw₁, hw.mem w hmem, ← he']
  · rw [hw.off _ fun w hmem he => hx ⟨w, hmem, he⟩, hget]

theorem storedNodes_groupWrites (hgroups : ∀ w ∈ groupWrites P bc b, w.2 ∈ D)
    (hover : Overwrites (groupWrites P bc b) bc.db db) (hD : storedNodes P.keccak bc.db ⊆ D) :
    storedNodes P.keccak db ⊆ D := by
  intro e he
  by_cases hx : ∃ w ∈ groupWrites P bc b, w.1 = P.keccak e
  · obtain ⟨w, hmem, hw₁⟩ := hx
    have hget := hover.mem w hmem
    rw [hw₁, show db.nodes (P.keccak e) = some e from he, Option.some.injEq] at hget
    rw [hget]
    exact hgroups w hmem
  · refine hD ?_
    show bc.db.nodes (P.keccak e) = some e
    rw [← hover.off _ fun w hmem he => hx ⟨w, hmem, he⟩]
    exact he

/-- Transactions that are executed on the head's state leave a good one. -/
theorem Holds.healthy (h : Holds P D bc C) {txs : List Tx} {acc : Totals}
    (hs : stateAt bc.db bc.currentBlock
      = .ok s) (hall : validateAll P bc.db (start bc.currentBlock s) txs = some acc) :
    Healthy P bc.db.nodes C acc.state := by
  obtain ⟨s₀, (hs₀ : stateAt _ _ = _), hgood, -, haccounts, -⟩ :=
    exists_new h.space h.account fun _ => True
  obtain rfl : s₀ = s := Except.ok.inj (hs₀.symm.trans hs)
  have htxs : ∀ tx ∈ txs, ¬ tx.Crashes := fun tx htx hcrash => by
    rw [validateAll_of_crashes ⟨tx, htx, hcrash⟩] at hall
    cases hall
  obtain ⟨acc', hacc', hgoes, -⟩ := Healthy.exists_validateAll rfl
    (show Healthy P bc.db.nodes C (start bc.currentBlock s₀).state from hgood)
    (fun addr _ => congrFun haccounts addr) htxs
  obtain rfl : acc = acc' := Option.some.inj (hall.symm.trans hacc')
  exact Healthy.goes hgood hgoes

/-- A processed block is a list of transactions that `validateBlock` executes alike, and it leaves a
good state. -/
theorem Holds.process (h : Holds P D bc C) (hc : Checked P bc b) {env : Surroundings}
    (hs : stateAt bc.db bc.currentBlock
      = .ok s) (hp : BlockChain.process P bc b s = some (env, s', evs)) :
    Healthy P bc.db.nodes C s' ∧
      (validateAll P bc.db (start bc.currentBlock s) b.transactions).map Totals.state
        = some s' := by
  obtain ⟨env₁, acc, happly, rfl, -⟩ := process_cases P hp
  have hacc := congrArg (Option.map Prod.snd) happly
  rw [applyAll_of_nodup hc.reports rfl fun _ _ => rfl] at hacc
  exact ⟨h.healthy hs hacc, congrArg (Option.map Totals.state) hacc⟩

/-- What `validateBlock` computes on the head: its state opens, and the executed state is good. -/
theorem Holds.of_replay (h : Holds P D bc C) {txs : List Tx} {acc : Totals} {c : StateDB.Committed}
    (hreplay : replay P ord bc.db bc.currentBlock txs = some (acc, c)) :
    ∃ s, stateAt bc.db bc.currentBlock
        = .ok s ∧ validateAll P bc.db (start bc.currentBlock s) txs = some acc ∧
      acc.state.commitTo P.keccak ord bc.db = some c ∧ Healthy P bc.db.nodes C acc.state := by
  unfold replay at hreplay
  split at hreplay
  · cases hreplay
  next s hs =>
  simp only [bind_eq_some, Option.some.injEq, Prod.mk.injEq]
    at hreplay
  obtain ⟨acc₁, hall, c₁, hc, rfl, rfl⟩ := hreplay
  exact ⟨s, hs, hall, hc, h.healthy hs hall⟩

/-- **A block that one node accepts is accepted by every other** on the same database, in whatever
order it walks its maps, as long as no changed account has two attributes. -/
theorem Holds.accepts (h : Holds P D bc C)
    (hok : validateBlock P ord bc.db bc.currentBlock b = some (true, db))
    (hstate : ∀ s acc, stateAt bc.db bc.currentBlock = .ok s →
      validateAll P bc.db (start bc.currentBlock s) b.transactions = some acc →
      acc.state.FewAttributes ∧
        CollisionFree P.keccak (hashedByCommits P.keccak bc.db C acc.state)) (ord' : IterOrder) :
    ∃ db', validateBlock P ord' bc.db bc.currentBlock b = some (true, db') := by
  obtain ⟨huncle, hnumber, acc, c, hreplay, hspace, hacc, hid, hgas, -⟩ :=
    (validateBlock_eq_true_iff P).mp hok
  obtain ⟨s, hs, hall, hc, hgood⟩ := h.of_replay hreplay
  obtain ⟨hfew, hfree⟩ := hstate s acc hs hall
  have henc : ¬ acc.state.Unencodable := fun hun => by
    rw [hun.commitTo] at hc
    cases hc
  have hroots := (hgood.roots_eq_plain hfree henc hfew ord).trans
    (hgood.roots_eq_plain hfree henc hfew ord').symm
  rw [hc] at hroots
  obtain ⟨c', hc', hr⟩ := Option.map_eq_some_iff.mp hroots.symm
  obtain ⟨hspace', hacc'⟩ := Prod.mk.inj hr
  refine ⟨c'.db, (validateBlock_eq_true_iff P).mpr ⟨huncle, hnumber, acc, c', ?_,
    hspace.trans hspace'.symm, hacc.trans hacc'.symm, hid, hgas, rfl⟩⟩
  simp only [replay, hs, Option.bind_eq_bind, hall, Option.bind_some, hc']

/-- Two databases with the states of their heads, whose headers name the same roots, store the same
maps. -/
theorem Holds.contents_eq {bc' : BlockChain} {C' : Contents} (hD : CollisionFree P.keccak D)
    (h : Holds P D bc C) (h' : Holds P D bc' C')
    (hspace : bc.currentBlock.header.spaceRoot = bc'.currentBlock.header.spaceRoot)
    (hacc : bc.currentBlock.header.accRoot = bc'.currentBlock.header.accRoot) : C = C' := by
  have hs : C.space = C'.space :=
    hD.map_eq h.spaceNodes h'.spaceNodes h.space.isRoot (hspace ▸ h'.space.isRoot)
  have ha : C.account = C'.account :=
    hD.map_eq h.accountNodes h'.accountNodes h.account.isRoot (hacc ▸ h'.account.isRoot)
  cases C
  cases C'
  subst hs ha
  rfl

/-- The roots of an accepted block are those of a commit of the state its execution leaves. -/
theorem Checked.exists_commitTo (hc : Checked P bc b) (hs : stateAt bc.db bc.currentBlock = .ok s)
    (hstate : (validateAll P bc.db (start bc.currentBlock s) b.transactions).map Totals.state
      = some s') (ord : IterOrder) :
    ∃ c, s'.commitTo P.keccak ord bc.db = some c ∧ b.header.spaceRoot = c.rootSpace ∧
      b.header.accRoot = c.rootAccount := by
  obtain ⟨db, hok⟩ := hc.accepted ord
  obtain ⟨-, -, acc, c, hreplay, hspace, hacc, -⟩ := (validateBlock_eq_true_iff P).mp hok
  unfold replay at hreplay
  rw [hs] at hreplay
  simp only [bind_eq_some] at hreplay
  obtain ⟨acc', hall, c', hcommit, hpair⟩ := hreplay
  obtain ⟨rfl, rfl⟩ := Prod.mk.inj (Option.some.inj hpair)
  rw [hall, Option.map_some, Option.some.injEq] at hstate
  exact ⟨c', hstate ▸ hcommit, hspace, hacc⟩

/-! ## One insertion -/

theorem nodes_writeHead (h : writeHead P db b = some db') : db'.nodes = db.nodes := by
  obtain ⟨head, body, -, -, rfl⟩ := writeHead_eq P h
  refine Db.nodes_eq_of_sameOff ?_
  have hput : ∀ (d : Db) {k : Bytes} (v : Bytes), k.length ≠ 32 →
      d.SameOff {k | k.length ≠ 32} (d.put k v) := fun d k v hk => Db.sameOff_put hk d v
  refine (((((hput _ _ ?_).trans (hput _ _ ?_)).trans (hput _ _ ?_)).trans (hput _ _ ?_)).trans
    (hput _ _ ?_)).trans (hput _ _ ?_)
  all_goals
    simp [canonicalKey, headerPrefix, numSuffix, headBlockKey, headHeaderKey, blockBodyKey,
      bodyPrefix, numberKey, blockHashPrefix, headerKey, FixedBytes.length_eq]

/-- **An insertion of a checked block** makes a head whose roots are those of the commit, and whose
state is stored again: the maps of the old head with the entries of the executed state. -/
theorem Holds.insert {bc' : BlockChain} (hD : CollisionFree P.keccak D) (h : Holds P D bc C)
    (hc : Checked P bc b) (hw : Within P D bc b)
    (hins : BlockChain.insert P ord bc b = some (bc', evs)) :
    bc' = bc ∨ CommittedHead P ord bc b bc' ∧ ∃ s s' es as, stateAt bc.db bc.currentBlock = .ok s ∧
      (validateAll P bc.db (start bc.currentBlock s) b.transactions).map Totals.state = some s' ∧
      s'.spaceEntries ord = some es ∧ s'.accountEntries ord = some as ∧
      Holds P D bc' ⟨writeAll P.keccak C.space es, writeAll P.keccak C.account as⟩ := by
  obtain rfl | ⟨-, -, -, hhead⟩ := insert_cases P hins
  · exact .inl rfl
  obtain rfl | ⟨s, env, s', c, db, hs, hp, hcommit, hwrite, rfl⟩ := insertHead_cases P hhead
  · exact .inl rfl
  right
  have hover := overwrites_process P hp
  obtain ⟨hgood, hstate⟩ := h.process hc hs hp
  obtain ⟨es, as, hes, has⟩ := exists_entries hcommit
  have hnodes := hw.nodes ord C s env s' evs h hs hp
  have hspaceD : nodesOf P.keccak (writeAll P.keccak C.space es) ⊆ D :=
    fun e he => hnodes (.inl ⟨es, hes, he⟩)
  have haccD : nodesOf P.keccak (writeAll P.keccak C.account as) ⊆ D :=
    fun e he => hnodes (.inr ⟨as, has, he⟩)
  have hstored := storedNodes_groupWrites hw.groups hover h.stored
  obtain ⟨c₁, hc₁, hroot, hroot', hst, hst', hmod, hmod', -, -, -, -, -, hgrows⟩ :=
    (hgood.monoOn (keepsOn_groupWrites hc.nodes hover h.space)
      (keepsOn_groupWrites hc.nodes hover h.account)).exists_commitTo hD hstored hes has
        hspaceD haccD
  obtain rfl : c = c₁ := Option.some.inj (hcommit.symm.trans hc₁)
  obtain ⟨c₂, hc₂, hspaceRoot, haccRoot⟩ := hc.exists_commitTo hs hstate ord
  obtain ⟨c₃, hc₃, hroot₃, hroot₃', -⟩ := hgood.exists_commitTo hD h.stored hes has hspaceD haccD
  obtain rfl : c₂ = c₃ := Option.some.inj (hc₂.symm.trans hc₃)
  replace hspaceRoot : b.header.spaceRoot = c.rootSpace :=
    hspaceRoot.trans (root_unique hroot₃ hroot)
  replace haccRoot : b.header.accRoot = c.rootAccount := haccRoot.trans (root_unique hroot₃' hroot')
  let C' : Contents := ⟨writeAll P.keccak C.space es, writeAll P.keccak C.account as⟩
  have hdb : db.nodes = c.db.nodes := nodes_writeHead hwrite
  have hholds : Holds P D ⟨db, b, env.validateGroup⟩ C' := by
    refine ⟨?_, ?_, hspaceD, haccD, ?_⟩
    · rw [hspaceRoot]
      exact hdb ▸ hst
    · rw [haccRoot]
      exact hdb ▸ hst'
    · intro e he
      refine hgrows.storedNodes hstored ?_
      show c.db.nodes (P.keccak e) = some e
      rw [← hdb]
      exact he
  refine ⟨?_, s, s', es, as, hs, hstate, hes, has, hholds⟩
  obtain ⟨s'', (hs'' : stateAt _ _ = _), hgood'', -⟩ :=
    exists_new hholds.space hholds.account fun _ => True
  refine ⟨s, env, s', evs, c, s'', hs, hp, hcommit, rfl, hspaceRoot, haccRoot, hs'', fun key => ?_⟩
  obtain ⟨_, hget, -⟩ := SecureTrie.exists_tryGet hgood''.space key
  obtain ⟨_, hget', -⟩ := SecureTrie.exists_tryGet hgood''.account key
  obtain ⟨_, hgetc, -⟩ := SecureTrie.exists_tryGet hmod key
  obtain ⟨_, hgetc', -⟩ := SecureTrie.exists_tryGet hmod' key
  rw [hget, hget', hgetc, hgetc']
  exact ⟨rfl, rfl⟩

/-! ## The first block -/

/-- A configured account binds, and sets a balance. -/
theorem Healthy.exists_configure (h : Healthy P get C s) (ac : AccountConfig) :
    ∃ w s', configure P get s ac = some (w, s') ∧ Goes P get C .besideAttributes s s' := by
  obtain ⟨s₁, hs₁, hr₁, -⟩ := Good.exists_createSpaceAndBindAddr (T := False)
    (n := ac.spaceId) (allowsStored_true _ _) False.elim h trivial ac.walletId ac.address
  obtain ⟨s₂, hget, hl⟩ := Good.exists_getAccountObject (h.goes hr₁.moves) ac.address
  have hm := (hr₁.moves.mono (Edits.binding_le_besideAttributes ac.address)).trans hl.moves.of_none
  simp only [configure, hs₁, StateDB.setBalance, StateDB.withAccount, hget, some_bind]
  cases hfound : s₁.accountAt P.keccak C ac.address with
  | found obj =>
    exact ⟨_, _, rfl, hm.tail (.editAccount ((hl.cache obj).mpr hfound) rfl rfl trivial rfl)⟩
  | _ => exact ⟨_, _, rfl, hm⟩

theorem Healthy.goes_configureAll (h : Healthy P get C s)
    (hr : Space.configureAll P get s accounts = some r) : Goes P get C .besideAttributes s r.2 := by
  induction accounts using List.reverseRecOn generalizing r with
  | nil =>
    cases hr
    exact .refl
  | append_singleton accounts ac ih =>
    obtain ⟨r₀, hr₀, hlast⟩ := configureAll_concat hr
    obtain ⟨w, s', hconf, hm⟩ := Healthy.exists_configure (h.goes (ih hr₀)) ac
    obtain rfl : r = (w, s') := Option.some.inj (hlast.symm.trans hconf)
    exact (ih hr₀).trans hm

theorem Healthy.configureAll (h : Healthy P get C s)
    (hr : Space.configureAll P get s accounts = some r) : Healthy P get C r.2 :=
  h.goes (Healthy.goes_configureAll h hr)

/-- `Reset` at genesis changes one entry under a raw hash. -/
theorem resetInit_sameOff_hash (vg : ValidateGroup) (db : Db) (hash : Hash) :
    db.SameOff ({hash.bytes} ∪ {k | k.length ≠ 32}) (vg.resetInit P db hash).2 := by
  have hd : db.SameOff ({hash.bytes} ∪ {k | k.length ≠ 32}) (db.delete groupMembersKey) :=
    Db.sameOff_delete (.inr (by decide)) db
  unfold ValidateGroup.resetInit
  split
  · simp only
    split
    · exact hd.trans (writeMembers_sameOff (.inl rfl) _ _)
    · exact hd
  · exact .refl _ _

/-- The configured state is good, and has no attributes. -/
theorem exists_configured (hs₀ : blankState = .ok s₀)
    (hr : Space.configureAll P Db.empty.nodes s₀ accounts = some r) :
    Healthy P Db.empty.nodes Contents.nothing r.2 ∧ r.2.NoAttributes := by
  obtain ⟨s₁, hs₁, hgood, -, haccounts, -⟩ := exists_new (C := .nothing)
    (IsEmptyRoot.storedAt (.inr rfl)) (IsEmptyRoot.storedAt (.inr rfl)) fun _ => True
  obtain rfl : s₀ = s₁ := Except.ok.inj (hs₀.symm.trans hs₁)
  refine ⟨Healthy.configureAll hgood hr, noAttributes_moves (fun addr obj h => ?_)
    (Healthy.goes_configureAll hgood hr) fun addr obj hobj => ?_⟩
  · cases h
  · rw [haccounts] at hobj
    cases hobj

/-- The first block is written under keys of other lengths than those of nodes and groups. -/
theorem writeFirst_sameOff {block : Block} (h : writeBlock P.keccak db block = some db')
    (hash : Hash) :
    db.SameOff {k | k.length ≠ 16 ∧ k.length ≠ 32} (writeHeadHeaderHash
      (writeHeadBlockHash (writeCanonicalHash db' hash block.numberU64) hash) hash) := by
  simp only [writeBlock, writeBody, writeHeader, bind_eq_some, Option.map_eq_some_iff] at h
  obtain ⟨_, ⟨body, -, rfl⟩, head, -, rfl⟩ := h
  have hput : ∀ (d : Db) {k : Bytes} (v : Bytes), k.length ≠ 16 ∧ k.length ≠ 32 →
      d.SameOff {k | k.length ≠ 16 ∧ k.length ≠ 32} (d.put k v) := fun d k v hk =>
    Db.sameOff_put hk d v
  refine (((((hput _ _ ?_).trans (hput _ _ ?_)).trans (hput _ _ ?_)).trans (hput _ _ ?_)).trans
    (hput _ _ ?_)).trans (hput _ _ ?_)
  all_goals
    simp [canonicalKey, headerPrefix, numSuffix, headBlockKey, headHeaderKey, blockBodyKey,
      bodyPrefix, numberKey, blockHashPrefix, headerKey, FixedBytes.length_eq]

/-- **The nodes of a genesis chain** are those of the commit of the configured accounts, the entry
of the first group apart. -/
theorem Founded.nodes {c : StateDB.Committed} (h : Founded P ord accounts now bc s₀ r c db)
    {x : Hash} (hx : x ≠ bc.currentBlock.header.consensusGroupHash) :
    bc.db.nodes x = c.db.nodes x := by
  set hash := bc.currentBlock.header.consensusGroupHash
  have hsub : {k : Bytes | k.length ≠ 16 ∧ k.length ≠ 32} ⊆ {hash.bytes} ∪ {k | k.length ≠ 32} :=
    fun k hk => .inr hk.2
  obtain ⟨d, hwrite, hdb⟩ := h.written
  have hfirst := writeFirst_sameOff hwrite (bc.currentBlock.hash P.keccak)
  rw [← hdb] at hfirst
  obtain ⟨vg, db', hvg, hstored⟩ := h.stored
  have hadd := enters_add (newValidateGroup P db hash) db ⟨founder accounts, now⟩
  rw [hvg] at hadd
  rw [← hstored]
  refine (((hfirst.mono hsub).trans
    (hadd.mono fun k hk => .inr (length_of_mem_groupKeys hk).1)).trans
    (resetInit_sameOff_hash _ _ hash)) x.bytes ?_
  rintro (he | he)
  · exact hx (FixedBytes.ext_bytes he)
  · exact he x.length_eq

variable (P D) in
/-- The strings that the first block stores under hashes are among the known ones. -/
structure GenesisWithin (ord : IterOrder) (accounts : List AccountConfig) (bc : BlockChain) : Prop
    where
  founder : Rlp.encode (.str (founder accounts).bytes) ∈ D
  group : ∀ v ∈ bc.db.nodes bc.currentBlock.header.consensusGroupHash, v ∈ D
  nodes : ∀ s₀ r, blankState = .ok s₀ → Space.configureAll P Db.empty.nodes s₀ accounts = some r →
    committedNodes P.keccak ord Contents.nothing r.2 ⊆ D

/-- A trie node does not encode an address. -/
theorem ne_encode_address {e : Bytes} (he : e ∈ nodesOf P.keccak m) (a : Address) :
    e ≠ Rlp.encode (.str a.bytes) := by
  obtain ⟨t, -, he⟩ := he
  obtain ⟨l, rfl⟩ := exists_list_of_mem_encodings he
  intro heq
  have hsize : (Rlp.encode (.str a.bytes)).length < 2 ^ 64 :=
    lt_of_le_of_lt (Rlp.length_encodeString_le (by rw [a.length_eq]; norm_num))
      (by rw [a.length_eq]; norm_num)
  have hfirst := Rlp.first_encode (show (Rlp.encode (.list l)).length < 2 ^ 64 by
    rw [heq]
    exact hsize)
  rw [heq, Rlp.first_encode hsize] at hfirst
  cases hfirst

/-- **The state of the first block is stored**: the entries of the configured accounts. -/
theorem exists_holds_genesisChain (hD : CollisionFree P.keccak D)
    (h : genesisChain P ord accounts now = some bc) (hw : GenesisWithin P D ord accounts bc) :
    ∃ s₀ r es as, blankState = .ok s₀ ∧ Space.configureAll P Db.empty.nodes s₀ accounts = some r ∧
      r.2.spaceEntries ord = some es ∧ r.2.accountEntries ord = some as ∧
      Holds P D bc ⟨writeAll P.keccak (fun _ => none) es,
        writeAll P.keccak (fun _ => none) as⟩ := by
  obtain ⟨s₀, r, c, db, hf⟩ := exists_founded h
  have hs₀ := hf.opened
  have hr := hf.configured
  obtain ⟨hgood, -⟩ := exists_configured hs₀ hr
  obtain ⟨es, as, hes, has⟩ := exists_entries hf.committed
  have hnodes := hw.nodes s₀ r hs₀ hr
  have hspaceD : nodesOf P.keccak (writeAll P.keccak Contents.nothing.space es) ⊆ D :=
    fun e he => hnodes (.inl ⟨es, hes, he⟩)
  have haccD : nodesOf P.keccak (writeAll P.keccak Contents.nothing.account as) ⊆ D :=
    fun e he => hnodes (.inr ⟨as, has, he⟩)
  have hempty : storedNodes P.keccak Db.empty ⊆ D := by rintro e ⟨⟩
  obtain ⟨c₁, hc₁, -, -, hst, hst', -, -, -, -, -, -, -, hgrows⟩ :=
    hgood.exists_commitTo hD hempty hes has hspaceD haccD
  obtain rfl : c = c₁ := Option.some.inj (hf.committed.symm.trans hc₁)
  have hkeeps : ∀ {m : HashMap}, nodesOf P.keccak m ⊆ D →
      KeepsOn P.keccak c.db.nodes (nodesOf P.keccak m) bc.db.nodes := fun hm e he hget => by
    rw [hf.nodes fun heq => ne_encode_address he (founder accounts)
      (hD.injOn (hm he) hw.founder (heq.trans hf.groupHash)), hget]
  refine ⟨s₀, r, es, as, hs₀, hr, hes, has, ?_, ?_, hspaceD, haccD, fun e he => ?_⟩
  · rw [hf.spaceRoot]
    exact hst.monoOn (hkeeps hspaceD)
  · rw [hf.accRoot]
    exact hst'.monoOn (hkeeps haccD)
  · by_cases heq : P.keccak e = bc.currentBlock.header.consensusGroupHash
    · exact hw.group e (heq ▸ he)
    · refine hgrows.storedNodes hempty ?_
      show c.db.nodes (P.keccak e) = some e
      rw [← hf.nodes heq]
      exact he

/-! ## Runs -/

/-- A report that arrives leaves the state of the head alone. -/
theorem Holds.report (h : Holds P D bc C) (hash : Hash) (data : Bytes) :
    Holds P D { bc with db := writeLiquidationHash bc.db hash data } C := by
  have hnodes : (writeLiquidationHash bc.db hash data).nodes = bc.db.nodes :=
    Db.nodes_eq_of_sameOff (Db.sameOff_put (by
      show (liquidationKey hash).length ≠ 32
      rw [length_liquidationKey]
      decide) _ _)
  refine ⟨hnodes ▸ h.space, hnodes ▸ h.account, h.spaceNodes, h.accountNodes, fun e he => ?_⟩
  refine h.stored ?_
  show bc.db.nodes (P.keccak e) = some e
  rw [← hnodes]
  exact he

/-- **The roots of the head are those of its execution**: in every run from genesis whose executed
blocks have been checked, the state of the head opens, and every block that is made head names the
roots of the commit and opens as the committed state. -/
theorem run_head_committed {ord₀ : IterOrder} {accounts : List AccountConfig} {now : ℤ}
    {bc₀ bc : BlockChain} (hD : CollisionFree P.keccak D)
    (h₀ : genesisChain P ord₀ accounts now = some bc₀) (hw₀ : GenesisWithin P D ord₀ accounts bc₀)
    (hr : Run P (fun bc b => LeftOut P bc b ∨ Checked P bc b ∧ Within P D bc b) bc₀ bc) :
    Opens bc ∧ ∀ ord b bc' evs, Checked P bc b → Within P D bc b →
      insert P ord bc b = some (bc', evs) → bc' ≠ bc → CommittedHead P ord bc b bc' := by
  have hholds : ∃ C, Holds P D bc C := by
    refine hr.invariant (I := fun bc => ∃ C, Holds P D bc C) ?_ ?_ ?_
    · obtain ⟨_, _, _, _, -, -, -, -, hC⟩ := exists_holds_genesisChain hD h₀ hw₀
      exact ⟨_, hC⟩
    · rintro bc bc' ord b evs ⟨C, hC⟩ hcond h
      rcases hcond with hleft | ⟨hc, hw⟩
      · rw [(hleft.insert (blockSigerVerifier_ne_none h) ord).1] at h
        cases h
        exact ⟨C, hC⟩
      · obtain rfl | ⟨-, _, _, _, _, -, -, -, -, hC'⟩ := hC.insert hD hc hw h
        · exact ⟨C, hC⟩
        · exact ⟨_, hC'⟩
    · rintro bc hash data ⟨C, hC⟩
      exact ⟨C, hC.report hash data⟩
  obtain ⟨C, hC⟩ := hholds
  obtain ⟨s, (hs : stateAt _ _ = _), -⟩ := exists_new hC.space hC.account fun _ => True
  refine ⟨⟨s, hs⟩, fun ord b bc' evs hc hw h hne => ?_⟩
  exact ((hC.insert hD hc hw h).resolve_left hne).1

end BlockChain

end Space

namespace Sample

open Space

/-- The entry of the space in the first block of the small chain. -/
def firstSpaceEntry : Entry :=
  ⟨[], some (Rlp.encode (.list [.str [], .str [], .list [.str (address 1).bytes]]))⟩

/-- The entry of the account. -/
def firstAccountEntry : Entry :=
  ⟨(address 1).bytes, some (Rlp.encode (.list [.ofNat 0, .ofNat 10, .ofNat 1, .str [],
    .ofStrings [], .ofStrings []]))⟩

/-- What the first block of the small chain stores. -/
def firstContents : Contents :=
  ⟨writeAll keccak (fun _ => none) [firstSpaceEntry],
    writeAll keccak (fun _ => none) [firstAccountEntry]⟩

/-- An unsigned transaction that creates a space for the configured account. -/
def moveOut : Tx := ⟨0, some (address 1), 0, 0, [1], 0, 0, 0⟩

/-- The entry of the account in its new space. -/
def movedAccountEntry : Entry :=
  ⟨(address 1).bytes, some (Rlp.encode (.list [.ofNat 1, .ofNat 0, .ofNat 1, .str [],
    .ofStrings [], .ofStrings []]))⟩

/-- The nodes of the tries of the small chain, as they are at first and when the account has
moved. -/
def firstNodes : List Bytes :=
  [firstSpaceEntry, firstAccountEntry, sampleSpaceEntry, movedAccountEntry].map sampleNode

/-- The strings that the small chain hashes: short ones, and its nodes. -/
abbrev known : Set Bytes := {b | b.length ≤ 31} ∪ {e | e ∈ firstNodes}

theorem collisionFree_firstNodes : CollisionFree keccak known :=
  collisionFree_of_long (by decide +kernel) (by decide +kernel)

/-- The node of an entry of the small chain. -/
theorem nodesOf_first {e : Entry} {v : Bytes} (he : e.value = some v)
    (hv : v ≠ [] ∧ v.length < 2 ^ 63) (hmem : sampleNode e ∈ firstNodes) :
    nodesOf keccak (writeAll keccak (fun _ => none) [e]) ⊆ {e | e ∈ firstNodes} := fun x hx => by
  rw [nodesOf_sample he hv hx]
  exact hmem

/-- The configured state has one entry in each trie. -/
theorem entries_first : ∀ s₀ ∈ blankState.toOption,
    ∀ r ∈ configureAll prims Db.empty.nodes s₀ (oneAccount (address 1)),
      r.2.spaceEntries .plain = some [firstSpaceEntry] ∧
        r.2.accountEntries .plain = some [firstAccountEntry] ∧ r.2.FewAttributes := by
  decide +kernel

theorem committedNodes_first (ord : IterOrder) :
    ∀ s₀ r, blankState = .ok s₀ →
      configureAll prims Db.empty.nodes s₀ (oneAccount (address 1)) = some r →
      committedNodes keccak ord Contents.nothing r.2 ⊆ {e | e ∈ firstNodes} := by
  intro s₀ r hs₀ hr
  obtain ⟨hes, has, hfew⟩ := entries_first s₀ (by rw [hs₀]; rfl) r hr
  rintro e (⟨es, h, he⟩ | ⟨es, h, he⟩)
  · obtain rfl := List.perm_singleton.mp (spaceEntries_perm hes h)
    exact nodesOf_first rfl (by decide +kernel) (by decide +kernel) he
  · obtain rfl := List.perm_singleton.mp (accountEntries_perm hfew has h)
    exact nodesOf_first rfl (by decide +kernel) (by decide +kernel) he

/-- The first block of the small chain stores strings without collisions. -/
theorem genesisWithin_first {bc : BlockChain}
    (hgroup : ∀ v ∈ bc.db.nodes bc.currentBlock.header.consensusGroupHash, v.length ≤ 31) :
    BlockChain.GenesisWithin prims known .plain (oneAccount (address 1)) bc :=
  ⟨.inl (by show List.length _ ≤ 31; decide), fun v hv => .inl (hgroup v hv),
    fun s₀ r hs₀ hr => (committedNodes_first .plain s₀ r hs₀ hr).trans Set.subset_union_right⟩

/-- The state of the first block of the small chain is stored. -/
theorem holds_first {bc : BlockChain} (hbc : bc ∈ chain)
    (hgroup : ∀ v ∈ bc.db.nodes bc.currentBlock.header.consensusGroupHash, v.length ≤ 31) :
    BlockChain.Holds prims known bc firstContents := by
  obtain ⟨s₀, r, es, as, hs₀, hr, hes, has, hC⟩ :=
    BlockChain.exists_holds_genesisChain collisionFree_firstNodes hbc (genesisWithin_first hgroup)
  obtain ⟨hes', has', -⟩ := entries_first s₀ (by rw [hs₀]; rfl) r hr
  rw [Option.some.inj (hes.symm.trans hes'), Option.some.inj (has.symm.trans has')] at hC
  exact hC

/-! ## A block that moves the account -/

/-- The state in which the account has moved: its old space is gone. -/
structure Moved (s : StateDB) : Prop where
  space : s.spaceEntries .plain = some [sampleSpaceEntry, ⟨[], none⟩]
  account : s.accountEntries .plain = some [movedAccountEntry]
  few : s.FewAttributes
  ids : s.spaceObjectsDirty.all fun i =>
    decide (∀ obj ∈ s.spaceObjects i, (BigEndian.toBytes obj.id).length ≤ 31)

theorem Moved.committedNodes {s : StateDB} (h : Moved s) (ord : IterOrder) :
    State.committedNodes keccak ord firstContents s ⊆ {e | e ∈ firstNodes} := by
  rintro e (⟨es, hes, he⟩ | ⟨as, has, he⟩)
  · have hcons : ∀ e ∈ [⟨[], none⟩, sampleSpaceEntry], ∀ e' ∈ [⟨[], none⟩, sampleSpaceEntry],
        keccak e.key = keccak e'.key → e.value = e'.value := by decide +kernel
    have hgone : Function.update (Function.update (fun _ => none) (keccak []) firstSpaceEntry.value)
        (keccak []) none = fun _ => none := by
      rw [Function.update_idem]
      exact Function.update_eq_self _ _
    rw [← writeAll_perm hcons ((spaceEntries_perm h.space hes).trans (.swap _ _ _)).symm] at he
    refine nodesOf_first (e := sampleSpaceEntry) rfl (by decide +kernel) (by decide +kernel) ?_
    have hmap : writeAll keccak firstContents.space [⟨[], none⟩, sampleSpaceEntry]
        = writeAll keccak (fun _ => none) [sampleSpaceEntry] :=
      congrArg (fun m : HashMap => Function.update m (keccak [1]) sampleSpaceEntry.value) hgone
    rwa [hmap] at he
  · obtain rfl := List.perm_singleton.mp (accountEntries_perm h.few h.account has)
    refine nodesOf_first (e := movedAccountEntry) rfl (by decide +kernel) (by decide +kernel) ?_
    rwa [show writeAll keccak firstContents.account [movedAccountEntry] = _ from
      Function.update_idem _ _ _] at he

/-- The account moves when the transaction is executed on the first block. -/
theorem moved_moveOut {bc : BlockChain} {s : StateDB} {acc : Totals} (hbc : bc ∈ chain)
    (hs : stateAt bc.db bc.currentBlock = .ok s)
    (hall : validateAll prims bc.db (BlockChain.start bc.currentBlock s) [moveOut] = some acc) :
    Moved acc.state := by
  have hmoved : ∀ bc ∈ chain, ∀ s ∈ (stateAt bc.db bc.currentBlock).toOption,
      ∀ acc ∈ validateAll prims bc.db (BlockChain.start bc.currentBlock s) [moveOut],
        acc.state.spaceEntries .plain = some [sampleSpaceEntry, ⟨[], none⟩] ∧
        acc.state.accountEntries .plain = some [movedAccountEntry] ∧ acc.state.FewAttributes ∧
        acc.state.spaceObjectsDirty.all fun i =>
          decide (∀ obj ∈ acc.state.spaceObjects i, (BigEndian.toBytes obj.id).length ≤ 31) := by
    decide +kernel
  obtain ⟨hspace, haccount, hfew, hids⟩ := hmoved bc hbc s (by rw [hs]; rfl) acc hall
  exact ⟨hspace, haccount, hfew, hids⟩

theorem Moved.hashedByCommits {s : StateDB} (h : Moved s) {bc : BlockChain}
    (hC : BlockChain.Holds prims known bc firstContents) :
    State.hashedByCommits keccak bc.db firstContents s ⊆ known := by
  rintro e (((he | ⟨a, rfl⟩) | ⟨i, hi, obj, hobj, rfl⟩) | ⟨ord, he⟩)
  · exact hC.stored he
  · exact .inl (by simp [a.length_eq])
  · exact .inl (of_decide_eq_true (List.all_eq_true.mp h.ids i hi) obj hobj)
  · exact .inr (h.committedNodes ord he)

/-- The proposer of the small chain. -/
def firstProposer : Proposer := ⟨address 1, [], [], fun _ => (address 1).bytes, address 1, 9⟩

/-- The small chain before and after a block that moves its account. -/
structure MovedBy (bc : BlockChain) (b : Block) (bc' : BlockChain) : Prop where
  first : bc ∈ chain
  group : ∀ v ∈ bc.db.nodes bc.currentBlock.header.consensusGroupHash, v.length ≤ 31
  built : ∃ bc'', buildBlock prims .plain bc firstProposer [moveOut] = some (some b, bc'')
  accepted : ∃ db, validateBlock prims .plain bc.db bc.currentBlock b = some (true, db)
  inserted : ∃ evs, BlockChain.insert prims .plain bc b = some (bc', evs)
  writes : groupWrites prims bc b = []
  head : bc'.currentBlock = b
  number : bc.currentBlock.header.number = 0
  changed : b.header.accRoot ≠ bc.currentBlock.header.accRoot
  counters : bc.currentBlock.header.idIndex = 1 ∧ bc.currentBlock.header.walletID = 2 ∧
    b.header.idIndex = 2

theorem exists_movedBy : ∃ bc b bc', MovedBy bc b bc' := by
  have hrun : ∃ bc ∈ chain, ∃ r ∈ buildBlock prims .plain bc firstProposer [moveOut], ∃ b ∈ r.1,
      (∃ v ∈ validateBlock prims .plain bc.db bc.currentBlock b, v.1 = true) ∧
      (∀ v ∈ bc.db.nodes bc.currentBlock.header.consensusGroupHash, v.length ≤ 31) ∧
      (∃ q ∈ BlockChain.insert prims .plain bc b, q.1.currentBlock = b) ∧
      groupWrites prims bc b = [] ∧ bc.currentBlock.header.number = 0 ∧
      b.header.accRoot ≠ bc.currentBlock.header.accRoot ∧ bc.currentBlock.header.idIndex = 1 ∧
      bc.currentBlock.header.walletID = 2 ∧ b.header.idIndex = 2 := by
    decide +kernel
  obtain ⟨bc, hbc, ⟨_, bc''⟩, hbuilt, b, rfl, ⟨⟨_, db⟩, hok, rfl⟩, hgroup,
    ⟨⟨bc', evs⟩, hins, hhead⟩, hwrites, hnumber, hchanged, hcounters⟩ := hrun
  exact ⟨bc, b, bc', hbc, hgroup, ⟨_, hbuilt⟩, ⟨_, hok⟩, ⟨_, hins⟩, hwrites, hhead, hnumber,
    hchanged, hcounters⟩

namespace MovedBy

variable {bc bc' : BlockChain} {b : Block} (h : MovedBy bc b bc')
include h

theorem transactions : b.transactions = [moveOut] := by
  obtain ⟨_, hbuilt⟩ := h.built
  exact (buildBlock_eq_some prims hbuilt).1

/-- The block is accepted in every order. -/
theorem checked : BlockChain.Checked prims bc b := by
  have hC := holds_first h.first h.group
  obtain ⟨_, hok⟩ := h.accepted
  refine ⟨hC.accepts hok fun s acc hs hall => ?_, ?_, ?_⟩
  · rw [h.transactions] at hall
    have hmoved := moved_moveOut h.first hs hall
    exact ⟨hmoved.few, collisionFree_firstNodes.mono (hmoved.hashedByCommits hC)⟩
  · rw [h.transactions]
    exact List.nodup_nil
  · rw [h.writes]
    exact fun _ hw => absurd hw List.not_mem_nil

theorem within : BlockChain.Within prims known bc b := by
  have hC := holds_first h.first h.group
  refine ⟨by rw [h.writes]; exact fun _ hw => absurd hw List.not_mem_nil, ?_⟩
  intro ord C s env s' evs hC' hs hp
  obtain rfl := hC'.contents_eq collisionFree_firstNodes hC rfl rfl
  obtain ⟨-, hstate⟩ := hC.process h.checked hs hp
  obtain ⟨acc, hall, rfl⟩ := Option.map_eq_some_iff.mp hstate
  rw [h.transactions] at hall
  exact ((moved_moveOut h.first hs hall).committedNodes ord).trans Set.subset_union_right

end MovedBy

/-- A child that names the empty trie as the trie of its accounts. -/
def forged (head : Block) : Block :=
  { child head 1 [] with header := { (child head 1 []).header with accRoot := emptyRoot } }

/-- The account of an address, as the head's state and as the committed state have it, when a block
is inserted; and the root of the commit. -/
def accountAfter (bc : BlockChain) (b : Block) (addr : Address) :
    Option (Bytes × Bytes × Hash) := do
  let s ← (stateAt bc.db bc.currentBlock).toOption
  let (env, s, _) ← BlockChain.process prims bc b s
  let c ← s.commitTo keccak .plain env.db
  let (bc, _) ← BlockChain.insert prims .plain bc b
  let s ← (stateAt bc.db bc.currentBlock).toOption
  let (opened, _) ← (s.trieAccount.tryGet keccak bc.db.nodes addr.bytes).toOption
  let (committed, _) ← (c.state.trieAccount.tryGet keccak c.db.nodes addr.bytes).toOption
  some (opened, committed, c.rootAccount)

end Sample

namespace Space

namespace BlockChain

open Sample (prims chain forged accountAfter firstProposer moveOut)

/-- The law applies to a block that gives the configured account a space of its own: it becomes the
head with the roots of its commit, and the state of the new head opens. -/
theorem run_head_committed_moved :
    ∃ bc ∈ chain, ∃ r ∈ buildBlock prims .plain bc firstProposer [moveOut], ∃ b ∈ r.1,
      ∃ q ∈ insert prims .plain bc b, b.header.accRoot ≠ bc.currentBlock.header.accRoot ∧
        CommittedHead prims .plain bc b q.1 ∧ Opens q.1 := by
  obtain ⟨bc, b, bc', h⟩ := Sample.exists_movedBy
  obtain ⟨_, hbuilt⟩ := h.built
  obtain ⟨evs, hins⟩ := h.inserted
  have hgenesis := Sample.genesisWithin_first h.group
  have hne : bc' ≠ bc := fun he => h.changed (by rw [← h.head, he])
  obtain ⟨-, hall⟩ := run_head_committed Sample.collisionFree_firstNodes h.first hgenesis .refl
  obtain ⟨hopens, -⟩ := run_head_committed Sample.collisionFree_firstNodes h.first hgenesis
    (.single (.insert (.inr ⟨h.checked, h.within⟩) hins))
  exact ⟨bc, h.first, _, hbuilt, b, rfl, _, hins, h.changed,
    hall .plain b bc' evs h.checked h.within hins hne, hopens⟩

/-- A block that names the root of the empty trie becomes the head, and its state opens without the
account that was committed. -/
theorem forged_root_is_head :
    ∃ bc ∈ chain, ∃ r ∈ insert prims .plain bc (forged bc.currentBlock),
      r.1.currentBlock = forged bc.currentBlock ∧
      ∃ x ∈ accountAfter bc (forged bc.currentBlock) (Sample.address 1),
        r.1.currentBlock.header.accRoot ≠ x.2.2 ∧ x.1 = [] ∧ x.2.1 ≠ [] := by
  decide +kernel

end BlockChain

end Space

end Gocoin
