import Gocoin.ValidateGroup.Selection
import Gocoin.ValidateGroup.Tables

/-!
# ValidateGroup/Moves — the life of the groups

The groups live by applications, resets, selections and restarts, in any order, over one database.
The three groups of the same making have their own keys there, so each step is, for each of them,
one of a few moves of that group alone (`Step.move`): nothing, an application, a reset, the reset at
genesis, or being read back.  What a step keeps is then proved once, for a move.
-/

namespace Gocoin.ValidateGroup

/-! ## An application -/

/-- **What an application can do**: nothing, when the address has been seen; be remembered only,
when its time is not later than the last one; or be appended and written. -/
theorem addMember_cases (db : Db) (key : Bytes) (ms : List GroupMember) (seen : List Address)
    (m : GroupMember) :
    (m.address ∈ seen ∧ addMember db key ms seen m = (ms, seen, db)) ∨
    (m.address ∉ seen ∧ (∃ last ∈ ms.getLast?, m.time ≤ last.time) ∧
      addMember db key ms seen m = (ms, m.address :: seen, db)) ∨
    (m.address ∉ seen ∧ (∀ last ∈ ms.getLast?, last.time < m.time) ∧
      addMember db key ms seen m
        = (ms ++ [m], m.address :: seen, writeMembers db key (ms ++ [m]))) := by
  unfold addMember
  split
  · next h => exact .inl ⟨h, rfl⟩
  · next h =>
    split
    · next last hlast =>
      split
      · next hlt =>
        refine .inr (.inr ⟨h, fun last' hl => ?_, rfl⟩)
        rw [hlast, Option.mem_some_iff] at hl
        rwa [← hl]
      · next hlt =>
        exact .inr (.inl ⟨h, ⟨last, hlast, not_lt.mp hlt⟩, rfl⟩)
    · next hnone =>
      refine .inr (.inr ⟨h, fun last' hl => ?_, rfl⟩)
      rw [hnone] at hl
      cases hl

/-! ## Operations -/

/-- The operations of a `ValidateGroup` outside genesis. -/
inductive Op where
  | add (m : GroupMember)
  | addStell (m : GroupMember)
  | addCoin (m : GroupMember)
  | addTransaction (m : GroupMember)
  | reset (hash : Hash)
  | resetCoinGroup
  | resetTxGroup

/-- Everything that happens to the groups: the operations, `Reset` at genesis, a restart from a
hash, and the selections. -/
inductive Act where
  | op (o : Op)
  | resetInit (hash : Hash)
  | restart (hash : Hash)
  | selectConsensus (number : UInt64)
  | selectValidate (number : UInt64)
  | selectTxConsensus (number : UInt64)

section

variable (P : Prims)

/-- An operation on the groups and their database. -/
def Op.apply : Op → ValidateGroup × Db → ValidateGroup × Db
  | .add m, (vg, db) => vg.add db m
  | .addStell m, (vg, db) => vg.addStell db m
  | .addCoin m, (vg, db) => vg.addCoin db m
  | .addTransaction m, (vg, db) => vg.addTransaction db m
  | .reset hash, (vg, db) => vg.reset P db hash
  | .resetCoinGroup, (vg, db) => vg.resetCoinGroup P db
  | .resetTxGroup, (vg, db) => vg.resetTxGroup P db

/-- Operations one after the other. -/
def runOps (ops : List Op) (s : ValidateGroup × Db) : ValidateGroup × Db :=
  ops.foldl (fun s o => o.apply P s) s

/-- The steps of the groups. -/
inductive Step : ValidateGroup × Db → Act → ValidateGroup × Db → Prop
  | op (s : ValidateGroup × Db) (o : Op) : Step s (.op o) (o.apply P s)
  | resetInit (vg : ValidateGroup) (db : Db) (hash : Hash) :
      Step (vg, db) (.resetInit hash) (vg.resetInit P db hash)
  | restart (vg : ValidateGroup) (db : Db) (hash : Hash) :
      Step (vg, db) (.restart hash) (newValidateGroup P db hash, db)
  | selectConsensus {vg vg' : ValidateGroup} {number : UInt64} {addrs : List Address} (db : Db)
      (h : vg.selectConsensus P number = some (addrs, vg')) :
      Step (vg, db) (.selectConsensus number) (vg', db)
  | selectValidate {vg vg' : ValidateGroup} {number : UInt64} {addrs : List Address} (db : Db)
      (h : vg.selectValidate P number = some (addrs, vg')) :
      Step (vg, db) (.selectValidate number) (vg', db)
  | selectTxConsensus {vg vg' : ValidateGroup} {number : UInt64} {addrs : List Address} (db : Db)
      (h : vg.selectTxConsensus P number = some (addrs, vg')) :
      Step (vg, db) (.selectTxConsensus number) (vg', db)

end

/-! ## The three groups and their keys -/

/-- The groups of the same making. -/
inductive Which where
  | space
  | coin
  | transaction
  deriving DecidableEq

/-- The group of a kind. -/
def group (vg : ValidateGroup) : Which → MemberGroup
  | .space => vg.space
  | .coin => vg.coin
  | .transaction => vg.transaction

/-- The three `Select…` functions. -/
def selectOf (P : Prims) (vg : ValidateGroup) (number : UInt64) :
    Which → Option (List Address × ValidateGroup)
  | .space => vg.selectConsensus P number
  | .coin => vg.selectValidate P number
  | .transaction => vg.selectTxConsensus P number

/-- The groups, one of them with another selection. -/
def withSelected (vg : ValidateGroup) (addrs : List Address) : Which → ValidateGroup
  | .space => { vg with space := { vg.space with selected := addrs } }
  | .coin => { vg with coin := { vg.coin with selected := addrs } }
  | .transaction => { vg with transaction := { vg.transaction with selected := addrs } }

theorem group_withSelected (vg : ValidateGroup) (addrs : List Address) (w w' : Which) :
    (vg.withSelected addrs w).group w'
      = if w = w' then { vg.group w' with selected := addrs } else vg.group w' := by
  cases w <;> cases w' <;> rfl

namespace Which

/-- The key of the new members. -/
def newKey : Which → Bytes
  | .space => groupMembersKey
  | .coin => coingroupMembersKey
  | .transaction => newTxMembersKey

/-- The key of the threshold members. -/
def thresholdKey : Which → Bytes
  | .space => thresholdMembersKey
  | .coin => thresholdCoinMembersKey
  | .transaction => thresholdTxMembersKey

/-- The keys under which the group itself is written: raw hashes for the consensus group. -/
def isMembersKey : Which → Bytes → Bool
  | .space, k => decide (k.length = 32)
  | .coin, k => decide (k = coinMembersKey)
  | .transaction, k => decide (k = transactionMembersKey)

/-- All keys of a group. -/
def keys (w : Which) : Set Bytes := {w.newKey, w.thresholdKey} ∪ {k | w.isMembersKey k = true}

theorem newKey_ne_thresholdKey (w : Which) : w.newKey ≠ w.thresholdKey := by
  cases w <;> decide

theorem isMembersKey_newKey (w : Which) : w.isMembersKey w.newKey = false := by
  cases w <;> decide

theorem isMembersKey_thresholdKey (w : Which) : w.isMembersKey w.thresholdKey = false := by
  cases w <;> decide

/-- The group of a key: by its length, or by the key itself. -/
def ofKey (k : Bytes) : Option Which :=
  if k.length = 32 ∨ k = groupMembersKey ∨ k = thresholdMembersKey then some .space
  else if k = coingroupMembersKey ∨ k = thresholdCoinMembersKey ∨ k = coinMembersKey then some .coin
  else if k = newTxMembersKey ∨ k = thresholdTxMembersKey ∨ k = transactionMembersKey then
    some .transaction
  else none

variable {w : Which} {k : Bytes}

theorem ofKey_of_mem (h : k ∈ w.keys) : ofKey k = some w := by
  rcases h with (rfl | rfl) | h
  · cases w <;> decide
  · cases w <;> decide
  · cases w with
    | space => exact if_pos (.inl (of_decide_eq_true h))
    | coin =>
      obtain rfl : k = coinMembersKey := of_decide_eq_true h
      decide
    | transaction =>
      obtain rfl : k = transactionMembersKey := of_decide_eq_true h
      decide

/-- **The groups have different keys.** -/
theorem notMem_keys {w' : Which} (hne : w ≠ w') (h : k ∈ w.keys) : k ∉ w'.keys :=
  fun h' => hne (Option.some.inj ((ofKey_of_mem h).symm.trans (ofKey_of_mem h')))

theorem newKey_mem (w : Which) : w.newKey ∈ w.keys := .inl (.inl rfl)

theorem thresholdKey_mem (w : Which) : w.thresholdKey ∈ w.keys := .inl (.inr rfl)

theorem stellMembersKey_notMem (w : Which) : stellMembersKey ∉ w.keys := fun h => by
  have hof := ofKey_of_mem h
  revert hof
  cases w <;> decide

end Which

/-! ## Moves of one group -/

/-- A list of members is written under none or some of the group's own keys. -/
def Shelves (w : Which) (ms : List GroupMember) (db db' : Db) : Prop :=
  ∀ k, w.isMembersKey k = true → db'.get k = db.get k ∨ db'.get k = (writeMembers db k ms).get k

variable {w : Which} {ms : List GroupMember} {db db' : Db} {k : Bytes} {vg vg' : ValidateGroup}
  {number : UInt64} {addrs : List Address}

theorem shelves_of_eq (h : ∀ k, w.isMembersKey k = true → db'.get k = db.get k) :
    Shelves w ms db db' :=
  fun k hk => .inl (h k hk)

/-- A write under one of the group's own keys. -/
theorem Shelves.write (h : Shelves w ms db db') (k : Bytes) :
    Shelves w ms db (writeMembers db' k ms) := by
  intro k' hk'
  by_cases he : k' = k
  · rw [he] at hk' ⊢
    refine .inr ?_
    unfold writeMembers
    split
    · rw [Db.get_put_self, Db.get_put_self]
    · next hit =>
      have := h k hk'
      rwa [writeMembers, hit, or_self] at this
  · rw [writeMembers_sameOff (T := {k}) rfl db' ms k' he]
    exact h k' hk'

/-- What a reset leaves in the database: its own writes, and the group under some of its keys. -/
structure Resets (P : Prims) (w : Which) (g : MemberGroup) (db db' : Db) : Prop where
  off : db.SameOff w.keys db'
  new : db'.get w.newKey = (g.reset P.sortByTime db w.thresholdKey w.newKey).2.2.get w.newKey
  threshold : db'.get w.thresholdKey
    = (g.reset P.sortByTime db w.thresholdKey w.newKey).2.2.get w.thresholdKey
  members : Shelves w (g.reset P.sortByTime db w.thresholdKey w.newKey).1.groupmembers db db'

/-- What is remembered afterwards: the same, nothing, or a new selection. -/
def Recalls (P : Prims) (g : MemberGroup) (selected : List Address) : Prop :=
  selected = g.selected ∨ selected = [] ∨
    ∃ number g', g.select P.keccak number = some (selected, g')

/-- What a step does to one group. -/
inductive Move (P : Prims) (w : Which) (a : Act) : MemberGroup × Db → MemberGroup × Db → Prop
  | rest {g : MemberGroup} {db db' : Db} {selected : List Address} (hsel : Recalls P g selected)
      (hdb : ∀ k ∈ w.keys, db'.get k = db.get k) : Move P w a (g, db) ({ g with selected }, db')
  | add (g : MemberGroup) (db : Db) (m : GroupMember) :
      Move P w a (g, db) ((g.add db w.newKey m).1, (g.add db w.newKey m).2)
  | reset {g : MemberGroup} {db db' : Db} (h : Resets P w g db db') :
      Move P w a (g, db) ((g.reset P.sortByTime db w.thresholdKey w.newKey).1, db')
  | init {g : MemberGroup} {db db' : Db} (hw : w = .space) {hash : Hash} (ha : a = .resetInit hash)
      (hnew : db'.get w.newKey = none)
      (hthreshold : db'.get w.thresholdKey = db.get w.thresholdKey)
      (hmembers : Shelves w (P.sortByTime (g.groupmembers ++ g.newgroupmembers)) db db') :
      Move P w a (g, db)
        ({ g with
           groupmembers := P.sortByTime (g.groupmembers ++ g.newgroupmembers)
           newgroupmembers := []
           selected := [] }, db')
  | restart (g : MemberGroup) {db : Db} {members : List GroupMember} {k : Bytes} {hash : Hash}
      (ha : a = .restart hash) (hk : w.isMembersKey k = true)
      (hmembers : members = getMembers db k ∨ members = P.sortByTime (getMembers db k)) :
      Move P w a (g, db)
        (newMemberGroup members (getMembers db w.newKey) (getMembers db w.thresholdKey), db)

variable {P : Prims} {w : Which} {a : Act}

theorem Move.refl (g : MemberGroup) (db : Db) : Move P w a (g, db) (g, db) :=
  .rest (.inl rfl) fun _ _ => rfl

/-- A step of another group. -/
theorem Move.of_sameOff {w' : Which} (hne : w ≠ w') (g : MemberGroup) {T : Set Bytes}
    (h : db.SameOff T db') (hT : T ⊆ w'.keys) : Move P w a (g, db) (g, db') :=
  .rest (.inl rfl) fun k hk => h k fun hk' => Which.notMem_keys hne hk (hT hk')

/-- Writing under a group's own keys leaves its other two keys alone. -/
theorem get_writeMembers_of_isMembersKey (hk : w.isMembersKey k = true) (db : Db)
    (ms : List GroupMember) :
    (writeMembers db k ms).get w.newKey = db.get w.newKey ∧
      (writeMembers db k ms).get w.thresholdKey = db.get w.thresholdKey := by
  have hne : ∀ k', w.isMembersKey k' = false → k' ∉ ({k} : Set Bytes) := by
    rintro k' hk' rfl
    rw [hk] at hk'
    cases hk'
  have hoff := writeMembers_sameOff (Set.mem_singleton k) db ms
  exact ⟨hoff _ (hne _ w.isMembersKey_newKey), hoff _ (hne _ w.isMembersKey_thresholdKey)⟩

/-! ## Every step is a move of every group -/

/-- The reset of a group, before the group itself is written. -/
theorem resets_reset (g : MemberGroup) (db : Db) :
    Resets P w g db (g.reset P.sortByTime db w.thresholdKey w.newKey).2.2 := by
  refine ⟨MemberGroup.reset_sameOff _ _ w.thresholdKey_mem w.newKey_mem _ g db, rfl, rfl,
    shelves_of_eq fun k hk => ?_⟩
  refine MemberGroup.reset_sameOff (T := {w.thresholdKey, w.newKey}) _ _
    (.inl rfl) (.inr rfl) _ g db
    k ?_
  rintro (rfl | rfl)
  · rw [w.isMembersKey_thresholdKey] at hk
    cases hk
  · rw [w.isMembersKey_newKey] at hk
    cases hk

theorem Resets.write {g : MemberGroup} (h : Resets P w g db db') (hk : w.isMembersKey k = true) :
    Resets P w g db (writeMembers db' k
      (g.reset P.sortByTime db w.thresholdKey w.newKey).1.groupmembers) := by
  obtain ⟨hnew, hthreshold⟩ := get_writeMembers_of_isMembersKey hk db'
    (g.reset P.sortByTime db w.thresholdKey w.newKey).1.groupmembers
  exact ⟨h.off.trans (writeMembers_sameOff (.inr hk) db' _), hnew.trans h.new,
    hthreshold.trans h.threshold, h.members.write k⟩

theorem isMembersKey_hash (h : Hash) : Which.space.isMembersKey h.bytes = true :=
  decide_eq_true h.length_eq

theorem resets_space (vg : ValidateGroup) (db : Db) (hash : Hash) :
    Resets P .space vg.space db (vg.reset P db hash).2 := by
  have hbase : Resets P .space vg.space db _ := resets_reset vg.space db
  unfold ValidateGroup.reset
  simp only
  split
  · split
    · exact hbase.write (isMembersKey_hash hash)
    · exact (hbase.write (isMembersKey_hash hash)).write (isMembersKey_hash _)
  · exact hbase

theorem resets_coin (vg : ValidateGroup) (db : Db) :
    Resets P .coin vg.coin db (vg.resetCoinGroup P db).2 := by
  have hbase : Resets P .coin vg.coin db _ := resets_reset vg.coin db
  unfold ValidateGroup.resetCoinGroup
  simp only
  split
  · exact hbase.write (by decide)
  · exact hbase

theorem resets_transaction (vg : ValidateGroup) (db : Db) :
    Resets P .transaction vg.transaction db (vg.resetTxGroup P db).2 := by
  have hbase : Resets P .transaction vg.transaction db _ := resets_reset vg.transaction db
  unfold ValidateGroup.resetTxGroup
  simp only
  split
  · exact hbase.write (by decide)
  · exact hbase

theorem move_resetInit (vg : ValidateGroup) (db : Db) (hash : Hash) :
    db.SameOff Which.space.keys (vg.resetInit P db hash).2 ∧
      Move P .space (.resetInit hash) (vg.space, db)
        ((vg.resetInit P db hash).1.space, (vg.resetInit P db hash).2) := by
  have hdel : ∀ k, Which.space.isMembersKey k = true →
      (db.delete groupMembersKey).get k = db.get k := fun k hk =>
    Db.get_delete_of_ne db fun he => by
      rw [he] at hk
      revert hk
      decide
  have hoff : db.SameOff Which.space.keys (db.delete groupMembersKey) :=
    Db.sameOff_delete Which.space.newKey_mem db
  have hthreshold :
      (db.delete groupMembersKey).get thresholdMembersKey = db.get thresholdMembersKey :=
    Db.get_delete_of_ne db (by decide)
  unfold ValidateGroup.resetInit
  split
  · simp only
    split
    · have hkey := isMembersKey_hash hash
      obtain ⟨hn, ht⟩ := get_writeMembers_of_isMembersKey hkey (db.delete groupMembersKey)
        (P.sortByTime (vg.space.groupmembers ++ vg.space.newgroupmembers))
      exact ⟨hoff.trans (writeMembers_sameOff (.inr hkey) _ _),
        .init rfl rfl (hn.trans (Db.get_delete_self db groupMembersKey)) (ht.trans hthreshold)
          ((shelves_of_eq hdel).write hash.bytes)⟩
    · exact ⟨hoff, .init rfl rfl (Db.get_delete_self db groupMembersKey) hthreshold
        (shelves_of_eq hdel)⟩
  · exact ⟨.refl _ _, .rest (.inr (.inl rfl)) fun _ _ => rfl⟩

/-- The reset at genesis is for one group. -/
theorem group_resetInit (hw : w ≠ .space) (vg : ValidateGroup) (db : Db) (hash : Hash) :
    (vg.resetInit P db hash).1.group w = vg.group w := by
  unfold ValidateGroup.resetInit
  cases w with
  | space => exact absurd rfl hw
  | coin => split <;> rfl
  | transaction => split <;> rfl

/-- A selection changes what its group remembers and nothing else. -/
theorem selectOf_eq_some (h : vg.selectOf P number w = some (addrs, vg')) :
    (∃ g, (vg.group w).select P.keccak number = some (addrs, g)) ∧
      vg' = vg.withSelected addrs w := by
  cases w <;>
  · simp only [selectOf, ValidateGroup.selectConsensus, ValidateGroup.selectValidate,
      ValidateGroup.selectTxConsensus, bind_eq_some, Prod.exists,
      Option.some.injEq, Prod.mk.injEq] at h
    obtain ⟨addrs', g, hg, rfl, rfl⟩ := h
    exact ⟨⟨g, hg⟩, by rw [MemberGroup.select_eq_some P.keccak hg]; rfl⟩

/-- A selection is a move of its group, and none of the others. -/
theorem move_selectOf (db : Db) (w' : Which) (h : vg.selectOf P number w' = some (addrs, vg')) :
    Move P w a (vg.group w, db) (vg'.group w, db) := by
  obtain ⟨⟨g, hg⟩, rfl⟩ := selectOf_eq_some h
  rw [group_withSelected]
  split
  · next heq =>
    subst heq
    exact .rest (.inr (.inr ⟨number, g, hg⟩)) fun _ _ => rfl
  · exact .refl _ db

/-- **Every step is a move of every group.** -/
theorem Step.move {s s' : ValidateGroup × Db} {a : Act} (h : Step P s a s') (w : Which) :
    Move P w a (s.1.group w, s.2) (s'.1.group w, s'.2) := by
  have hadd : ∀ (w₀ : Which) (g : MemberGroup) (db : Db) (m : GroupMember),
      db.SameOff w₀.keys (g.add db w₀.newKey m).2 := fun w₀ g db m =>
    addMember_sameOff w₀.newKey w₀.newKey_mem db _ _ m
  cases h with
  | op s o =>
    obtain ⟨vg, db⟩ := s
    cases o with
    | add m =>
      cases w with
      | space => exact .add vg.space db m
      | coin => exact .of_sameOff (by decide) vg.coin (hadd .space vg.space db m) subset_rfl
      | transaction =>
        exact .of_sameOff (by decide) vg.transaction (hadd .space vg.space db m) subset_rfl
    | addStell m =>
      have hoff := addMember_sameOff stellMembersKey (Set.mem_singleton _) db vg.stellgroupmembers
        vg.stellAddresses m
      have hrest : ∀ g : MemberGroup, Move P w (.op (.addStell m)) (g, db)
          (g, (vg.addStell db m).2) := fun g =>
        .rest (.inl rfl) fun k hk => hoff k fun he => w.stellMembersKey_notMem (he ▸ hk)
      cases w <;> exact hrest _
    | addCoin m =>
      cases w with
      | space => exact .of_sameOff (by decide) vg.space (hadd .coin vg.coin db m) subset_rfl
      | coin => exact .add vg.coin db m
      | transaction =>
        exact .of_sameOff (by decide) vg.transaction (hadd .coin vg.coin db m) subset_rfl
    | addTransaction m =>
      cases w with
      | space =>
        exact .of_sameOff (by decide) vg.space (hadd .transaction vg.transaction db m) subset_rfl
      | coin =>
        exact .of_sameOff (by decide) vg.coin (hadd .transaction vg.transaction db m) subset_rfl
      | transaction => exact .add vg.transaction db m
    | reset hash =>
      have hr := resets_space (P := P) vg db hash
      cases w with
      | space => exact .reset hr
      | coin => exact .of_sameOff (by decide) vg.coin hr.off subset_rfl
      | transaction => exact .of_sameOff (by decide) vg.transaction hr.off subset_rfl
    | resetCoinGroup =>
      have hr := resets_coin (P := P) vg db
      cases w with
      | space => exact .of_sameOff (by decide) vg.space hr.off subset_rfl
      | coin => exact .reset hr
      | transaction => exact .of_sameOff (by decide) vg.transaction hr.off subset_rfl
    | resetTxGroup =>
      have hr := resets_transaction (P := P) vg db
      cases w with
      | space => exact .of_sameOff (by decide) vg.space hr.off subset_rfl
      | coin => exact .of_sameOff (by decide) vg.coin hr.off subset_rfl
      | transaction => exact .reset hr
  | resetInit vg db hash =>
    obtain ⟨hoff, hmove⟩ := move_resetInit (P := P) vg db hash
    by_cases hw : w = .space
    · subst hw
      exact hmove
    · show Move P w _ (vg.group w, db) ((vg.resetInit P db hash).1.group w, _)
      rw [group_resetInit hw]
      exact .of_sameOff hw (vg.group w) hoff subset_rfl
  | restart vg db hash =>
    cases w with
    | space => exact .restart vg.space rfl (isMembersKey_hash hash) (.inr rfl)
    | coin => exact .restart vg.coin rfl (k := coinMembersKey) (by decide) (.inl rfl)
    | transaction =>
      exact .restart vg.transaction rfl (k := transactionMembersKey) (by decide) (.inl rfl)
  | selectConsensus db h => exact move_selectOf db .space h
  | selectValidate db h => exact move_selectOf db .coin h
  | selectTxConsensus db h => exact move_selectOf db .transaction h

end Gocoin.ValidateGroup
