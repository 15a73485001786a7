import Gocoin.Space.BlockChain
import Gocoin.ValidateGroup.Tables

/-!
# Space/Frame — which keys the execution of a block touches

Executing transactions writes to the group tables and deletes reports, an epoch also writes members
under raw hashes, and a commit writes nodes and preimages.  None of them touches the canonical
hashes, the headers or the bodies, and executing transactions leaves the nodes of the tries alone.
-/

namespace Gocoin.Space

open State Trie ValidateGroup

/-! ## The sets of keys -/

/-- The fixed keys of the group tables. -/
def groupKeys : Set Bytes :=
  {groupMembersKey, thresholdMembersKey, coinMembersKey, coingroupMembersKey,
    thresholdCoinMembersKey, transactionMembersKey, newTxMembersKey, thresholdTxMembersKey,
    stellMembersKey}

/-- The keys of liquidation reports. -/
def reportKeys : Set Bytes := Set.range liquidationKey

/-- The keys of 32 bytes: trie nodes, and the members under a hash. -/
def nodeKeys : Set Bytes := {k | k.length = 32}

/-- The keys of preimages. -/
def preimageKeys : Set Bytes := Set.range SecureTrie.secKey

/-- The keys that the execution of a block may write. -/
abbrev executedKeys : Set Bytes := groupKeys ∪ reportKeys ∪ nodeKeys ∪ preimageKeys

theorem length_of_mem_groupKeys {k : Bytes} (h : k ∈ groupKeys) :
    k.length ≠ 32 ∧ k.length ≠ 34 := by
  rcases h with rfl | rfl | rfl | rfl | rfl | rfl | rfl | rfl | rfl <;> decide

theorem length_liquidationKey (h : Hash) : (liquidationKey h).length = 34 := by
  rw [liquidationKey, List.length_append, h.length_eq]
  rfl

theorem liquidationKey_notMem_groupKeys (h : Hash) : liquidationKey h ∉ groupKeys := fun hmem =>
  (length_of_mem_groupKeys hmem).2 (length_liquidationKey h)

theorem liquidationKey_injective : Function.Injective liquidationKey := fun _ _ h =>
  FixedBytes.ext_bytes (List.append_cancel_left h)

/-- The nodes of the tries are neither in the group tables nor among the reports. -/
theorem notMem_of_hash (h : Hash) : h.bytes ∉ groupKeys ∪ reportKeys := by
  rintro (hmem | ⟨x, hx⟩)
  · exact (length_of_mem_groupKeys hmem).1 h.length_eq
  · have hlen := length_liquidationKey x
    rw [hx, h.length_eq] at hlen
    norm_num at hlen

/-! ## The groups -/

/-- Entering an applicant touches only the group tables. -/
def Enters (enter : ValidateGroup → Db → GroupMember → ValidateGroup × Db) : Prop :=
  ∀ (vg : ValidateGroup) (db : Db) (m : GroupMember), db.SameOff groupKeys (enter vg db m).2

theorem enters_add : Enters ValidateGroup.add := fun _ db m =>
  addMember_sameOff groupMembersKey (by simp [groupKeys]) db _ _ m

theorem enters_addStell : Enters ValidateGroup.addStell := fun _ db m =>
  addMember_sameOff stellMembersKey (by simp [groupKeys]) db _ _ m

theorem enters_addCoin : Enters ValidateGroup.addCoin := fun _ db m =>
  addMember_sameOff coingroupMembersKey (by simp [groupKeys]) db _ _ m

theorem enters_addTransaction : Enters ValidateGroup.addTransaction := fun _ db m =>
  addMember_sameOff newTxMembersKey (by simp [groupKeys]) db _ _ m

theorem reset_sameOff (P : Prims) (vg : ValidateGroup) (db : Db) (hash : Hash) :
    db.SameOff (groupKeys ∪ nodeKeys) (vg.reset P db hash).2 := by
  have hg := MemberGroup.reset_sameOff (T := groupKeys ∪ nodeKeys) thresholdMembersKey
    groupMembersKey
    (.inl (by simp [groupKeys])) (.inl (by simp [groupKeys])) P.sortByTime vg.space db
  have hw : ∀ (h : Hash) (db : Db) (ms : List GroupMember),
      db.SameOff (groupKeys ∪ nodeKeys) (writeGroupConst db h ms) :=
    fun h db ms => writeMembers_sameOff (.inr h.length_eq) db ms
  unfold ValidateGroup.reset
  simp only
  split
  · split
    · exact hg.trans (hw hash _ _)
    · exact (hg.trans (hw hash _ _)).trans (hw _ _ _)
  · exact hg

theorem resetCoinGroup_sameOff (P : Prims) (vg : ValidateGroup) (db : Db) :
    db.SameOff groupKeys (vg.resetCoinGroup P db).2 := by
  have hg := MemberGroup.reset_sameOff (T := groupKeys) thresholdCoinMembersKey coingroupMembersKey
    (by simp [groupKeys]) (by simp [groupKeys]) P.sortByTime vg.coin db
  unfold ValidateGroup.resetCoinGroup
  simp only
  split
  · exact hg.trans (writeMembers_sameOff (by simp [groupKeys]) _ _)
  · exact hg

theorem resetTxGroup_sameOff (P : Prims) (vg : ValidateGroup) (db : Db) :
    db.SameOff groupKeys (vg.resetTxGroup P db).2 := by
  have hg := MemberGroup.reset_sameOff (T := groupKeys) thresholdTxMembersKey newTxMembersKey
    (by simp [groupKeys]) (by simp [groupKeys]) P.sortByTime vg.transaction db
  unfold ValidateGroup.resetTxGroup
  simp only
  split
  · exact hg.trans (writeMembers_sameOff (by simp [groupKeys]) _ _)
  · exact hg

/-! ## Executing a block -/

variable (P : Prims)

theorem enter_sameOff {f : ValidateGroup → Db → GroupMember → ValidateGroup × Db} (hf : Enters f)
    (env : Surroundings) (tx : Tx) :
    env.db.SameOff groupKeys (env.enter P tx f).db := by
  unfold Surroundings.enter
  split
  · exact .refl _ _
  · exact hf _ _ _

/-- The side effect of a transaction touches the group tables and the reports. -/
theorem sideEffect_sameOff (env : Surroundings) (tx : Tx) :
    env.db.SameOff (groupKeys ∪ reportKeys) (sideEffect P env tx).db := by
  unfold sideEffect
  split
  · exact (enter_sameOff P enters_add env tx).mono Set.subset_union_left
  · exact (enter_sameOff P enters_addStell env tx).mono Set.subset_union_left
  · exact (enter_sameOff P enters_addCoin env tx).mono Set.subset_union_left
  · exact (enter_sameOff P enters_addTransaction env tx).mono Set.subset_union_left
  · split
    · exact Db.sameOff_delete (.inr ⟨_, rfl⟩) _
    · exact .refl _ _
  · exact .refl _ _

theorem nodes_sideEffect (env : Surroundings) (tx : Tx) :
    (sideEffect P env tx).db.nodes = env.db.nodes :=
  funext fun h => sideEffect_sameOff P env tx h.bytes (notMem_of_hash h)

variable {h : Hash} {env' : Surroundings} {bc : BlockChain} {b : Block} {s' : StateDB}
  {keccak : HashFn}

/-- The only report it may touch is the one the transaction names. -/
theorem getLiquidation_sideEffect (env : Surroundings) {tx : Tx}
    (hne : tx.ptype = some .stellReport → h ≠ tx.hash P) :
    getLiquidation (sideEffect P env tx).db h = getLiquidation env.db h := by
  have henter : ∀ {f}, Enters f →
      getLiquidation (env.enter P tx f).db h = getLiquidation env.db h := fun hf => by
    rw [getLiquidation, enter_sameOff P hf env tx _ (liquidationKey_notMem_groupKeys h)]
    rfl
  unfold sideEffect
  split
  · exact henter enters_add
  · exact henter enters_addStell
  · exact henter enters_addCoin
  · exact henter enters_addTransaction
  · next hp =>
    split
    · show (Function.update env.db.get (liquidationKey (tx.hash P)) none
        (liquidationKey h)).getD [] = _
      rw [Function.update_of_ne fun he => hne hp (liquidationKey_injective he)]
      rfl
    · rfl
  · rfl

variable {env : Surroundings} {evs : List CreatethresholdEvent} {s : StateDB}

section

variable {acc acc' : Totals} {txs : List Tx} (ha : applyAll P env acc txs = some (env', acc'))
include ha

/-- The loop of `Process` is the effects of the transactions one after the other. -/
theorem applyAll_env : env' = txs.foldl (sideEffect P) env := by
  induction txs generalizing env acc with
  | nil =>
    rw [applyAll_nil, Option.some.injEq, Prod.mk.injEq] at ha
    exact ha.1.symm
  | cons tx txs ih =>
    rw [applyAll_cons, Option.bind_eq_some_iff] at ha
    obtain ⟨acc₁, -, ha⟩ := ha
    exact ih ha

/-- What every side effect keeps, the loop keeps. -/
theorem applyAll_keeps {I : Surroundings → Prop} (hI : ∀ env tx, I env → I (sideEffect P env tx))
    (henv : I env) : I env' := by
  rw [applyAll_env P ha]
  exact List.foldlRecOn txs _ henv fun env henv tx _ => hI env tx henv

theorem applyAll_sameOff : env.db.SameOff (groupKeys ∪ reportKeys) env'.db :=
  applyAll_keeps P ha (I := fun e => env.db.SameOff (groupKeys ∪ reportKeys) e.db)
    (fun e tx he => he.trans (sideEffect_sameOff P e tx)) (.refl _ _)

end

theorem resetGroups_sameOff {hash : Hash} {number : UInt64}
    (h : BlockChain.resetGroups P env hash number = some (env', evs)) :
    env.db.SameOff (groupKeys ∪ nodeKeys) env'.db := by
  unfold BlockChain.resetGroups at h
  split at h
  · rw [Option.some.injEq, Prod.mk.injEq] at h
    rw [h.1]
    exact .refl _ _
  · next vg _ =>
    simp only [bind_eq_some, Option.some.injEq, Prod.mk.injEq] at h
    obtain ⟨_, -, _, -, _, -, rfl, -⟩ := h
    exact ((reset_sameOff P vg env.db hash).trans ((resetCoinGroup_sameOff P _ _).mono
      Set.subset_union_left)).trans ((resetTxGroup_sameOff P _ _).mono Set.subset_union_left)

/-- What `Process` does: the transactions, and behind them at an epoch the groups. -/
theorem process_cases (h : BlockChain.process P bc b s = some (env, s', evs)) :
    ∃ env₁ acc, applyAll P ⟨bc.db, bc.validateGroup⟩ (BlockChain.start bc.currentBlock s)
        b.transactions = some (env₁, acc) ∧ acc.state = s' ∧
      (¬ (b.numberU64 % BlockChain.epoch = 0 ∧ b.numberU64 ≠ 0) ∧ env = env₁ ∧ evs = [] ∨
        (b.numberU64 % BlockChain.epoch = 0 ∧ b.numberU64 ≠ 0) ∧
          BlockChain.resetGroups P env₁ b.header.consensusGroupHash b.numberU64
            = some (env, evs)) := by
  simp only [BlockChain.process, Option.bind_eq_bind, Option.bind_eq_some_iff] at h
  obtain ⟨⟨env₁, acc⟩, happly, h⟩ := h
  refine ⟨env₁, acc, happly, ?_⟩
  split at h
  · next hepoch =>
    simp only [Option.bind_eq_some_iff] at h
    obtain ⟨⟨env₂, evs₂⟩, hreset, h⟩ := h
    cases h
    exact ⟨rfl, .inr ⟨hepoch, hreset⟩⟩
  · next hepoch =>
    cases h
    exact ⟨rfl, .inl ⟨hepoch, rfl, rfl⟩⟩

theorem process_sameOff (h : BlockChain.process P bc b s = some (env, s', evs)) :
    bc.db.SameOff (groupKeys ∪ reportKeys ∪ nodeKeys) env.db := by
  obtain ⟨env₁, acc, happly, -, h⟩ := process_cases P h
  have h₁ : bc.db.SameOff (groupKeys ∪ reportKeys ∪ nodeKeys) env₁.db :=
    (applyAll_sameOff P happly).mono Set.subset_union_left
  obtain ⟨-, rfl, -⟩ | ⟨-, hreset⟩ := h
  · exact h₁
  · refine h₁.trans ((resetGroups_sameOff P hreset).mono ?_)
    exact Set.union_subset_union_left _ Set.subset_union_left

/-! ## Committing -/

theorem secureTrie_commitTo_keys {t t' : SecureTrie} {ws : List (Bytes × Bytes)}
    (hc : t.commitTo keccak = .ok (h, t', ws)) :
    ∀ w ∈ ws, w.1 ∈ nodeKeys ∪ preimageKeys := by
  unfold SecureTrie.commitTo at hc
  cases htrie : t.trie.commitTo keccak with
  | error e =>
    rw [htrie] at hc
    cases hc
  | ok r =>
    rw [htrie] at hc
    obtain ⟨h', trie, ws'⟩ := r
    cases hc
    intro w hw
    rw [List.mem_append, List.mem_map, List.mem_map] at hw
    obtain ⟨e, -, rfl⟩ | ⟨w', -, rfl⟩ := hw
    · exact .inr ⟨e.1, rfl⟩
    · exact .inl w'.1.length_eq

/-- A commit touches only nodes and preimages. -/
theorem commitTo_sameOff {ord : IterOrder} {db : Db} {c : StateDB.Committed}
    (h : s.commitTo keccak ord db = some c) :
    db.SameOff (nodeKeys ∪ preimageKeys) c.db := by
  simp only [StateDB.commitTo, bind_eq_some] at h
  obtain ⟨s₁, -, ⟨h₁, t₁, ws₁⟩, hc₁, s₂, -, ⟨h₂, t₂, ws₂⟩, hc₂, h⟩ := h
  rw [Option.some.injEq] at h
  subst h
  have ok : ∀ {x : Except TrieErr (Hash × SecureTrie × List (Bytes × Bytes))} {r},
      StateDB.orPanic x = some r → x = .ok r := by
    intro x r hx
    cases x with
    | error e => cases hx
    | ok a => rw [Option.some.inj hx]
  exact (Db.sameOff_putAll (secureTrie_commitTo_keys (ok hc₁)) db).trans
    (Db.sameOff_putAll (secureTrie_commitTo_keys (ok hc₂)) _)

end Gocoin.Space
