import Gocoin.Common.Edits
import Gocoin.ValidateGroup.Restart

/-!
# ValidateGroup/Crash — a reset that is cut off

A reset writes the longer threshold list, deletes the new members and writes the group, each with
its own `Put` or `Delete`.  A crash in between leaves some of the edits, and a restarted node goes
on from there.  What it can still lose, and whether it can enter anybody twice, depends only on the
threshold and the new members it reads: nothing removes these, while the group is replaced sooner or
later (`crashSafe_iff`).  So the one dangerous moment is between the write and the delete, when the
new members are in both lists, and the one dangerous list is a threshold list that cannot be
written, when the delete loses the new members (`reset_crash_safe_iff`).
-/

namespace Gocoin

namespace ValidateGroup

/-! ## The edits of a reset -/

/-- The edit of a `Write…` function, if there is an encoding. -/
def membersEdits (key : Bytes) (ms : List GroupMember) : List Edit :=
  match membersItem ms with
  | some it => [.put key (Rlp.encode it)]
  | none => []

theorem edits_membersEdits (db : Db) (key : Bytes) (ms : List GroupMember) :
    db.edits (membersEdits key ms) = writeMembers db key ms := by
  cases h : membersItem ms <;> simp [membersEdits, writeMembers, h, Db.edit]

variable {e : Edit} {hash : Hash} {g : MemberGroup} {addr : Address} {db : Db} {l : List Address}

theorem key_of_mem_membersEdits {key : Bytes} {ms : List GroupMember}
    (h : e ∈ membersEdits key ms) :
    e.key = key := by
  unfold membersEdits at h
  split at h
  · rw [List.mem_singleton.mp h]
    rfl
  · cases h

/-- The edits of the common part of the resets. -/
def MemberGroup.resetEdits (g : MemberGroup) (thresholdKey newKey : Bytes) : List Edit :=
  if g.newgroupmembers ≠ [] then
    membersEdits thresholdKey (g.thresholdgroupmembers ++ g.newgroupmembers) ++ [.delete newKey]
  else []

theorem MemberGroup.edits_resetEdits (sort : List GroupMember → List GroupMember) (g : MemberGroup)
    (db : Db) (thresholdKey newKey : Bytes) :
    db.edits (g.resetEdits thresholdKey newKey) = (g.reset sort db thresholdKey newKey).2.2 := by
  rw [MemberGroup.db_reset, MemberGroup.resetEdits]
  split
  · rw [Db.edits_append, edits_membersEdits]
    rfl
  · rfl

namespace Which

/-- The keys under which a reset writes the group. -/
def membersKeys (keccak : HashFn) (hash : Hash) (ms : List GroupMember) : Which → List Bytes
  | .space =>
    let tmphash := rlpHash keccak (membersItem ms)
    if tmphash = hash then [hash.bytes] else [hash.bytes, tmphash.bytes]
  | .coin => [coinMembersKey]
  | .transaction => [transactionMembersKey]

/-- The edits with which a reset writes the group. -/
def membersEdits (P : Prims) (w : Which) (hash : Hash) (g : MemberGroup) : List Edit :=
  if 3 ≤ g.thresholdgroupmembers.length then
    (w.membersKeys P.keccak hash (P.sortByTime g.thresholdgroupmembers)).flatMap fun key =>
      ValidateGroup.membersEdits key (P.sortByTime g.thresholdgroupmembers)
  else []

/-- All edits of the reset of a group: of `Reset`, `ResetCoinGroup` or `ResetTxGroup`. -/
def resetEdits (P : Prims) (w : Which) (hash : Hash) (g : MemberGroup) : List Edit :=
  g.resetEdits w.thresholdKey w.newKey ++ w.membersEdits P hash g

/-- The reset of a group. -/
def resetOp : Which → Hash → Op
  | .space, hash => .reset hash
  | .coin, _ => .resetCoinGroup
  | .transaction, _ => .resetTxGroup

/-- The key from which the group is read. -/
def readKey (hash : Hash) : Which → Bytes
  | .space => hash.bytes
  | .coin => coinMembersKey
  | .transaction => transactionMembersKey

end Which

variable {P : Prims} {w : Which}

theorem group_resetOp (w : Which) (hash : Hash) (vg : ValidateGroup) (db : Db) :
    ((w.resetOp hash).apply P (vg, db)).1.group w
      = ((vg.group w).reset P.sortByTime db w.thresholdKey w.newKey).1 := by
  cases w <;> rfl

theorem isMembersKey_readKey (w : Which) (hash : Hash) :
    w.isMembersKey (w.readKey hash) = true := by
  cases w with
  | space => exact isMembersKey_hash hash
  | coin => exact decide_eq_true (p := coinMembersKey = coinMembersKey) rfl
  | transaction => exact decide_eq_true (p := transactionMembersKey = transactionMembersKey) rfl

/-- **The edits are those of the reset.** -/
theorem edits_resetEdits (w : Which) (hash : Hash) (vg : ValidateGroup) (db : Db) :
    db.edits (w.resetEdits P hash (vg.group w)) = ((w.resetOp hash).apply P (vg, db)).2 := by
  rw [Which.resetEdits, Db.edits_append, MemberGroup.edits_resetEdits P.sortByTime,
    Which.membersEdits]
  by_cases hthree : 3 ≤ (vg.group w).thresholdgroupmembers.length
  · rw [if_pos hthree]
    cases w with
    | space =>
      simp only [group] at hthree ⊢
      simp only [Which.resetOp, Op.apply, reset, MemberGroup.updateValidate_reset, writeGroupConst,
        MemberGroup.groupmembers_reset, Which.membersKeys, hthree, decide_true, if_true]
      split
      · rw [List.flatMap_singleton, edits_membersEdits]
        rfl
      · rw [List.flatMap_cons, List.flatMap_singleton, Db.edits_append, edits_membersEdits,
          edits_membersEdits]
        rfl
    | coin =>
      simp only [group] at hthree ⊢
      simp only [Which.resetOp, Op.apply, resetCoinGroup, MemberGroup.updateValidate_reset,
        MemberGroup.groupmembers_reset, Which.membersKeys, hthree, decide_true, if_true]
      rw [List.flatMap_singleton, edits_membersEdits]
      rfl
    | transaction =>
      simp only [group] at hthree ⊢
      simp only [Which.resetOp, Op.apply, resetTxGroup, MemberGroup.updateValidate_reset,
        MemberGroup.groupmembers_reset, Which.membersKeys, hthree, decide_true, if_true]
      rw [List.flatMap_singleton, edits_membersEdits]
      rfl
  · rw [if_neg hthree, Db.edits_nil]
    cases w with
    | space =>
      simp only [group] at hthree ⊢
      simp only [Which.resetOp, Op.apply, reset, MemberGroup.updateValidate_reset, hthree,
        decide_false, Bool.false_eq_true, if_false]
      rfl
    | coin =>
      simp only [group] at hthree ⊢
      simp only [Which.resetOp, Op.apply, resetCoinGroup, MemberGroup.updateValidate_reset, hthree,
        decide_false, Bool.false_eq_true, if_false]
      rfl
    | transaction =>
      simp only [group] at hthree ⊢
      simp only [Which.resetOp, Op.apply, resetTxGroup, MemberGroup.updateValidate_reset, hthree,
        decide_false, Bool.false_eq_true, if_false]
      rfl

/-- The group is written under its own keys. -/
theorem mem_membersEdits (h : e ∈ w.membersEdits P hash g) :
    3 ≤ g.thresholdgroupmembers.length ∧
      ∃ key, w.isMembersKey key = true ∧
        e ∈ membersEdits key (P.sortByTime g.thresholdgroupmembers) := by
  unfold Which.membersEdits at h
  split at h
  · next hthree =>
    obtain ⟨key, hkey, he⟩ := List.mem_flatMap.mp h
    refine ⟨hthree, key, ?_, he⟩
    cases w with
    | space =>
      simp only [Which.membersKeys] at hkey
      split at hkey
      · rw [List.mem_singleton.mp hkey]
        exact isMembersKey_hash _
      · rcases List.mem_pair.mp hkey with rfl | rfl
        · exact isMembersKey_hash _
        · exact isMembersKey_hash _
    | coin | transaction =>
      rw [List.mem_singleton.mp hkey]
      decide
  · cases h

theorem key_of_mem_resetEdits (h : e ∈ g.resetEdits w.thresholdKey w.newKey) :
    e.key = w.thresholdKey ∨ e.key = w.newKey := by
  unfold MemberGroup.resetEdits at h
  split at h
  · rcases List.mem_append.mp h with h | h
    · exact .inl (key_of_mem_membersEdits h)
    · rw [List.mem_singleton.mp h]
      exact .inr rfl
  · cases h

theorem key_mem_of_mem_resetEdits (h : e ∈ w.resetEdits P hash g) : e.key ∈ w.keys := by
  rcases List.mem_append.mp h with h | h
  · rcases key_of_mem_resetEdits h with h | h
    · exact h ▸ w.thresholdKey_mem
    · exact h ▸ w.newKey_mem
  · obtain ⟨-, key, hkey, he⟩ := mem_membersEdits h
    exact .inr (key_of_mem_membersEdits he ▸ hkey)

/-! ## Crashes -/

/-- Whoever the database lists is still listed. -/
structure StillLists (P : Prims) (db : Db) (hash : Hash) (vg : ValidateGroup) : Prop where
  group : ∀ w addr, ((newValidateGroup P db hash).group w).Lists addr → (vg.group w).Lists addr
  stell : ∀ m ∈ getMembers db stellMembersKey,
    m.address ∈ vg.stellgroupmembers.map GroupMember.address

/-- **Crash safety** of edits at a cut: in every continuation of the restarted node no threshold
list has an address twice, and whoever was stored at some time before the crash is still listed. -/
def CrashSafe (P : Prims) (db : Db) (es : List Edit) (hash : Hash) (j : ℕ) : Prop :=
  ∀ ops,
    (∀ w, (((runOps P ops (newValidateGroup P (db.crashed es j) hash, db.crashed es j)).1.group
        w).thresholdgroupmembers.map GroupMember.address).Nodup) ∧
    ∀ i ≤ j, StillLists P (db.crashed es i) hash
      (runOps P ops (newValidateGroup P (db.crashed es j) hash, db.crashed es j)).1

/-- The addresses no operation removes: those of the threshold and the new members. -/
def MemberGroup.lasting (g : MemberGroup) : List Address :=
  (g.thresholdgroupmembers ++ g.newgroupmembers).map GroupMember.address

/-- …and those in the database. -/
def lasting (db : Db) (w : Which) : List Address :=
  (getMembers db w.thresholdKey ++ getMembers db w.newKey).map GroupMember.address

theorem MemberGroup.lists_of_lasting (h : addr ∈ g.lasting) : g.Lists addr := by
  rw [MemberGroup.lasting, List.map_append, List.mem_append] at h
  exact lists_iff.mpr (.inr h)

theorem lasting_newValidateGroup (db : Db) (hash : Hash) (w : Which) :
    ((newValidateGroup P db hash).group w).lasting = lasting db w := by
  cases w <;> rfl

/-- Who is listed in what is read. -/
theorem lists_newValidateGroup (hsort : P.Sorts) :
    ((newValidateGroup P db hash).group w).Lists addr ↔
      addr ∈ (getMembers db (w.readKey hash)).map GroupMember.address ∨ addr ∈ lasting db w := by
  have hread : addr ∈ ((newValidateGroup P db hash).group w).groupmembers.map GroupMember.address ↔
      addr ∈ (getMembers db (w.readKey hash)).map GroupMember.address := by
    cases w with
    | space => exact ((hsort _).map GroupMember.address).mem_iff
    | coin => rfl
    | transaction => rfl
  rw [lists_iff, hread, ← lasting_newValidateGroup (P := P) db hash, MemberGroup.lasting,
    List.map_append, List.mem_append]

theorem Move.lasting_subset {o : Op} {g' : MemberGroup} {db' : Db}
    (h : Move P w (.op o) (g, db) (g', db')) : g.lasting ⊆ g'.lasting := by
  cases h with
  | rest => exact List.Subset.refl _
  | add _ _ m =>
    refine List.map_subset _ fun x hx => ?_
    unfold MemberGroup.add
    obtain ⟨-, he⟩ | ⟨-, -, he⟩ | ⟨-, -, he⟩ :=
      addMember_cases db w.newKey g.newgroupmembers g.membersAddress m
    · rwa [he]
    · rwa [he]
    · rw [he, ← List.append_assoc]
      exact List.mem_append_left _ hx
  | reset =>
    rw [MemberGroup.lasting, MemberGroup.lasting, MemberGroup.thresholdgroupmembers_reset,
      MemberGroup.newgroupmembers_reset, List.append_nil]
    exact List.Subset.refl _
  | init _ ha => cases ha
  | restart _ ha => cases ha

variable {s : ValidateGroup × Db}

/-- What every operation keeps, a run of operations keeps. -/
theorem runOps_of_apply {I : ValidateGroup × Db → Prop} (h : ∀ s (o : Op), I s → I (o.apply P s))
    (ops : List Op) (hs : I s) : I (runOps P ops s) := by
  induction ops generalizing s with
  | nil => exact hs
  | cons o ops ih => exact ih (h s o hs)

theorem lasting_runOps_subset (ops : List Op) (s : ValidateGroup × Db) (w : Which) :
    (s.1.group w).lasting ⊆ ((runOps P ops s).1.group w).lasting :=
  runOps_of_apply (I := fun s' => (s.1.group w).lasting ⊆ (s'.1.group w).lasting)
    (fun s' o h => List.Subset.trans h ((Step.op s' o).move w).lasting_subset) ops
    (List.Subset.refl _)

theorem unrepeated_runOps (hsort : P.Sorts) (ops : List Op)
    (hk : (s.1.group w).Known) (hu : (s.1.group w).Unrepeated) :
    ((runOps P ops s).1.group w).Unrepeated := by
  refine (runOps_of_apply (I := fun s' => (s'.1.group w).Known ∧ (s'.1.group w).Unrepeated)
    (fun s' o h => ?_) ops ⟨hk, hu⟩).2
  have hmove := (Step.op (P := P) s' o).move w
  exact ⟨hmove.known hsort h.1, hmove.unrepeated h.1 h.2 nofun⟩

/-- The settlement members stay. -/
theorem stell_runOps_subset (ops : List Op) (s : ValidateGroup × Db) :
    s.1.stellgroupmembers ⊆ (runOps P ops s).1.stellgroupmembers := by
  refine runOps_of_apply (I := fun s' => s.1.stellgroupmembers ⊆ s'.1.stellgroupmembers)
    (fun s' o h => List.Subset.trans h ?_) ops (List.Subset.refl _)
  obtain ⟨vg, db⟩ := s'
  cases o with
  | addStell m =>
    show vg.stellgroupmembers
      ⊆ (addMember db stellMembersKey vg.stellgroupmembers vg.stellAddresses m).1
    obtain ⟨-, he⟩ | ⟨-, -, he⟩ | ⟨-, -, he⟩ :=
      addMember_cases db stellMembersKey vg.stellgroupmembers vg.stellAddresses m
    · rw [he]
      exact List.Subset.refl _
    · rw [he]
      exact List.Subset.refl _
    · rw [he]
      exact List.subset_append_left _ _
  | _ => exact List.Subset.refl _

/-! ## Who does not last can be lost -/

/-- There are more addresses than any list has. -/
theorem exists_address_notMem (h : l.length < 256 ^ 20) : ∃ addr, addr ∉ l := by
  let f : ℕ → Address := fun n => FixedBytes.ofBytes 20 (BigEndian.toBytes n)
  have hread : ∀ n < 256 ^ 20, BigEndian.ofBytes (f n).bytes = n := by
    intro n hn
    rw [FixedBytes.bytes_ofBytes_of_le (BigEndian.length_toBytes_le hn),
      BigEndian.ofBytes_replicate_append, BigEndian.ofBytes_toBytes]
  have hinj : Set.InjOn f (Finset.range (l.length + 1)) := by
    intro m hm n hn he
    have hm' := Finset.mem_range.mp (Finset.mem_coe.mp hm)
    have hn' := Finset.mem_range.mp (Finset.mem_coe.mp hn)
    rw [← hread m (by omega), he, hread n (by omega)]
  by_contra hall
  have hsub : (Finset.range (l.length + 1)).image f ⊆ l.toFinset := fun addr _ =>
    List.mem_toFinset.mpr (not_not.mp fun hne => hall ⟨addr, hne⟩)
  have hcard := Finset.card_le_card hsub
  rw [Finset.card_image_of_injOn hinj, Finset.card_range] at hcard
  have := l.toFinset_card_le
  omega

/-- A crowd of applicants, none of whom has been seen. -/
theorem exists_crowd (w : Which) (n : ℕ) (s : ValidateGroup × Db)
    (hl : (s.1.group w).membersAddress ⊆ l) (hroom : l.length + n < 256 ^ 20) :
    ∃ ops ms, ms.length = n ∧ (∀ m ∈ ms, m.address ∉ (s.1.group w).membersAddress) ∧
      ((runOps P ops s).1.group w).thresholdgroupmembers = (s.1.group w).thresholdgroupmembers ∧
      ((runOps P ops s).1.group w).newgroupmembers = (s.1.group w).newgroupmembers ++ ms := by
  induction n generalizing s l with
  | zero => exact ⟨[], [], rfl, nofun, rfl, (List.append_nil _).symm⟩
  | succ n ih =>
    obtain ⟨vg, db⟩ := s
    obtain ⟨addr, hfresh⟩ := exists_address_notMem (l := l) (by omega)
    have haddr : addr ∉ (vg.group w).membersAddress := fun h => hfresh (hl h)
    let m := late (vg.group w).newgroupmembers addr
    have hadd : addMember db w.newKey (vg.group w).newgroupmembers (vg.group w).membersAddress m
        = ((vg.group w).newgroupmembers ++ [m], addr :: (vg.group w).membersAddress,
          writeMembers db w.newKey ((vg.group w).newgroupmembers ++ [m])) := by
      have hlate := addMember_late db w.newKey (vg.group w).newgroupmembers
        (vg.group w).membersAddress addr
      rw [if_neg haddr] at hlate
      obtain ⟨h, -⟩ | ⟨-, -, he⟩ | ⟨-, -, he⟩ := addMember_cases db w.newKey
        (vg.group w).newgroupmembers (vg.group w).membersAddress m
      · exact absurd h haddr
      · rw [he] at hlate
        exact absurd hlate (by simp)
      · exact he
    have hgroup : ((w.addOp m).apply P (vg, db)).1.group w
        = { vg.group w with
            newgroupmembers := (vg.group w).newgroupmembers ++ [m]
            membersAddress := addr :: (vg.group w).membersAddress } := by
      rw [group_addOp, MemberGroup.add, hadd]
    obtain ⟨ops, ms, hlen, hms, hthr, hnew⟩ := ih ((w.addOp m).apply P (vg, db)) (l := addr :: l)
      (by rw [hgroup]; exact List.cons_subset_cons addr hl) (by rw [List.length_cons]; omega)
    rw [hgroup] at hms hthr hnew
    refine ⟨w.addOp m :: ops, m :: ms, by rw [List.length_cons, hlen], ?_, hthr, ?_⟩
    · intro m' hm'
      rcases List.mem_cons.mp hm' with rfl | hm'
      · exact haddr
      · exact fun hc => hms m' hm' (List.mem_cons_of_mem _ hc)
    · exact hnew.trans (by rw [List.append_assoc]; rfl)

/-- **Who does not last can be lost**: three applicants and two resets replace the group. -/
theorem exists_lost (hsort : P.Sorts) (s : ValidateGroup × Db)
    (hknown : (s.1.group w).Known) (hl : (s.1.group w).membersAddress ⊆ l)
    (hroom : l.length + 3 < 256 ^ 20) (haddr : addr ∉ (s.1.group w).lasting) :
    ∃ ops, ¬ ((runOps P ops s).1.group w).Lists addr := by
  by_cases hlists : (s.1.group w).Lists addr
  swap
  · exact ⟨[], hlists⟩
  obtain ⟨ops, ms, hlen, hms, hthr, hnew⟩ := exists_crowd (P := P) w 3 s hl hroom
  refine ⟨ops ++ [w.resetOp (.zero 32), w.resetOp (.zero 32)], fun hc => ?_⟩
  have hrun : runOps P (ops ++ [w.resetOp (.zero 32), w.resetOp (.zero 32)]) s
      = (w.resetOp (.zero 32)).apply P ((w.resetOp (.zero 32)).apply P (runOps P ops s)) :=
    List.foldl_append
  rw [hrun] at hc
  generalize runOps P ops s = s' at hc hthr hnew
  obtain ⟨vg, db⟩ := s'
  generalize hs'' : (w.resetOp (.zero 32)).apply P (vg, db) = s'' at hc
  obtain ⟨vg', db'⟩ := s''
  have hgroup' : vg'.group w = ((vg.group w).reset P.sortByTime db w.thresholdKey w.newKey).1 := by
    rw [← group_resetOp w (.zero 32), hs'']
  have hthree :
      3 ≤ ((vg.group w).thresholdgroupmembers ++ (vg.group w).newgroupmembers).length := by
    rw [hnew, List.length_append, List.length_append, hlen]
    omega
  rw [group_resetOp, hgroup', lists_iff] at hc
  simp only [MemberGroup.groupmembers_reset, MemberGroup.thresholdgroupmembers_reset,
    MemberGroup.newgroupmembers_reset, List.append_nil, List.map_nil, List.not_mem_nil, or_false,
    if_pos hthree, ((hsort _).map GroupMember.address).mem_iff, or_self] at hc
  rw [hthr, hnew, ← List.append_assoc, List.map_append, List.mem_append] at hc
  rcases hc with hc | hc
  · exact haddr hc
  · obtain ⟨m, hm, rfl⟩ := List.mem_map.mp hc
    exact hms m hm (hknown _ hlists)

/-- A cut keeps a group: its lasting members are different addresses, and everybody stored before
is among them. -/
def KeptAt (P : Prims) (db : Db) (es : List Edit) (hash : Hash) (w : Which) (j : ℕ) : Prop :=
  (lasting (db.crashed es j) w).Nodup ∧
    ∀ i ≤ j, ∀ addr, ((newValidateGroup P (db.crashed es i) hash).group w).Lists addr →
      addr ∈ lasting (db.crashed es j) w

/-- **Crash safety, read off the database**: the cut keeps every group. -/
theorem crashSafe_iff (hsort : P.Sorts) {es : List Edit} {j : ℕ}
    (hes : ∀ e ∈ es, e.key ≠ stellMembersKey)
    (hroom : ∀ w, ∃ l, ((newValidateGroup P (db.crashed es j) hash).group w).membersAddress ⊆ l ∧
      l.length + 3 < 256 ^ 20) :
    CrashSafe P db es hash j ↔ ∀ w, KeptAt P db es hash w j := by
  have hknown : ∀ w, ((newValidateGroup P (db.crashed es j) hash).group w).Known := fun w =>
    (tracked_newValidateGroup _ hash w).known
  constructor
  · intro h w
    constructor
    · have hdup := (h [w.resetOp hash]).1 w
      simp only [runOps, List.foldl_cons, List.foldl_nil, group_resetOp,
        MemberGroup.thresholdgroupmembers_reset] at hdup
      rw [← lasting_newValidateGroup (P := P) _ hash]
      exact hdup
    · intro i hi addr haddr
      by_contra hlast
      rw [← lasting_newValidateGroup (P := P) _ hash] at hlast
      obtain ⟨l, hl, hroom⟩ := hroom w
      obtain ⟨ops, hlost⟩ := exists_lost hsort (newValidateGroup P (db.crashed es j) hash, _)
        (hknown w) hl hroom hlast
      exact hlost (((h ops).2 i hi).group w addr haddr)
  · intro h ops
    refine ⟨fun w => ?_, fun i hi => ⟨fun w addr haddr => ?_, fun m hm => ?_⟩⟩
    · have hnodup := (h w).1
      rw [← lasting_newValidateGroup (P := P) _ hash w] at hnodup
      have hu := unrepeated_runOps hsort ops
        (s := (newValidateGroup P (db.crashed es j) hash, db.crashed es j)) (hknown w) hnodup
      rw [MemberGroup.Unrepeated, List.map_append] at hu
      exact (List.nodup_append.mp hu).1
    · refine MemberGroup.lists_of_lasting (lasting_runOps_subset ops _ w ?_)
      rw [lasting_newValidateGroup]
      exact (h w).2 i hi addr haddr
    · have hsame : ∀ i,
          getMembers (db.crashed es i) stellMembersKey = getMembers db stellMembersKey :=
        fun i => getMembers_congr
          (Db.sameOff_crashed (T := {k | k ≠ stellMembersKey}) hes db i _ (· rfl))
      refine List.mem_map_of_mem (stell_runOps_subset ops _ ?_)
      show m ∈ getMembers (db.crashed es j) stellMembersKey
      rwa [hsame, ← hsame i]

/-! ## A reset that is cut off -/

section Reset

variable {g : MemberGroup} {db : Db} (hash : Hash)

/-- The write of the group, cut off or not, leaves the other two lists. -/
theorem getMembers_crashed_membersEdits (db : Db) (j : ℕ) :
    getMembers (db.crashed (w.membersEdits P hash g) j) w.thresholdKey
        = getMembers db w.thresholdKey ∧
      getMembers (db.crashed (w.membersEdits P hash g) j) w.newKey = getMembers db w.newKey := by
  have hoff : db.SameOff {k | w.isMembersKey k = true} (db.crashed (w.membersEdits P hash g) j) :=
    Db.sameOff_crashed (fun e he => by
      obtain ⟨-, key, hkey, he⟩ := mem_membersEdits he
      exact key_of_mem_membersEdits he ▸ hkey) db j
  refine ⟨getMembers_congr (hoff _ ?_), getMembers_congr (hoff _ ?_)⟩
  · rw [Set.mem_ofPred_eq, w.isMembersKey_thresholdKey]
    exact Bool.false_ne_true
  · rw [Set.mem_ofPred_eq, w.isMembersKey_newKey]
    exact Bool.false_ne_true

/-- **What a cut leaves of the two lists**, when both can be written. -/
theorem getMembers_crashed_of_timely (db : Db) (hnew : g.newgroupmembers ≠ [])
    (htimely : Timely (g.thresholdgroupmembers ++ g.newgroupmembers))
    (hfits : Fits (g.thresholdgroupmembers ++ g.newgroupmembers)) (j : ℕ) :
    getMembers (db.crashed (w.resetEdits P hash g) j) w.thresholdKey
        = (if j = 0 then getMembers db w.thresholdKey
          else g.thresholdgroupmembers ++ g.newgroupmembers) ∧
      getMembers (db.crashed (w.resetEdits P hash g) j) w.newKey
        = if j ≤ 1 then getMembers db w.newKey else [] := by
  obtain ⟨it, hit⟩ : ∃ it, membersItem (g.thresholdgroupmembers ++ g.newgroupmembers) = some it :=
    ⟨_, membersItem_of_timely htimely⟩
  have hedits : g.resetEdits w.thresholdKey w.newKey
      = [.put w.thresholdKey (Rlp.encode it), .delete w.newKey] := by
    rw [MemberGroup.resetEdits, if_pos hnew, membersEdits, hit]
    rfl
  have hput : getMembers (db.put w.thresholdKey (Rlp.encode it)) w.thresholdKey
      = g.thresholdgroupmembers ++ g.newgroupmembers :=
    getMembers_put hit (hfits it hit) (Db.get_put_self ..)
  rw [Which.resetEdits, Db.crashed_append, (getMembers_crashed_membersEdits hash _ _).1,
    (getMembers_crashed_membersEdits hash _ _).2, hedits]
  match j with
  | 0 => exact ⟨rfl, rfl⟩
  | 1 => exact ⟨hput, getMembers_congr (Db.get_put_of_ne _ w.newKey_ne_thresholdKey _)⟩
  | j + 2 =>
    rw [Db.crashed_of_length_le (Nat.le_add_left 2 j), if_neg (by omega), if_neg (by omega)]
    exact ⟨(getMembers_congr (Db.get_delete_of_ne _ w.newKey_ne_thresholdKey.symm)).trans hput,
      getMembers_delete _ _⟩

theorem getMembers_crashed_of_not_timely (db : Db) (hnew : g.newgroupmembers ≠ [])
    (htimely : ¬ Timely (g.thresholdgroupmembers ++ g.newgroupmembers)) (j : ℕ) :
    getMembers (db.crashed (w.resetEdits P hash g) j) w.thresholdKey
        = getMembers db w.thresholdKey ∧
      getMembers (db.crashed (w.resetEdits P hash g) j) w.newKey
        = if j = 0 then getMembers db w.newKey else [] := by
  have hedits : g.resetEdits w.thresholdKey w.newKey = [.delete w.newKey] := by
    rw [MemberGroup.resetEdits, if_pos hnew, membersEdits, membersItem_eq_none htimely]
    rfl
  rw [Which.resetEdits, Db.crashed_append, (getMembers_crashed_membersEdits hash _ _).1,
    (getMembers_crashed_membersEdits hash _ _).2, hedits]
  match j with
  | 0 => exact ⟨rfl, rfl⟩
  | j + 1 =>
    rw [Db.crashed_of_length_le (Nat.le_add_left 1 j), if_neg (by omega)]
    exact ⟨getMembers_congr (Db.get_delete_of_ne _ w.newKey_ne_thresholdKey.symm),
      getMembers_delete _ _⟩

theorem lasting_crashed_of_nil (hnew : g.newgroupmembers = []) (j : ℕ) :
    lasting (db.crashed (w.resetEdits P hash g) j) w = lasting db w := by
  have hedits : g.resetEdits w.thresholdKey w.newKey = [] := by
    rw [MemberGroup.resetEdits, if_neg (not_not.mpr hnew)]
  rw [Which.resetEdits, hedits, List.nil_append, lasting, lasting,
    (getMembers_crashed_membersEdits hash _ _).1, (getMembers_crashed_membersEdits hash _ _).2]

/-- **The cuts that do no harm**: there is nothing to promote, nothing has been done, the new
members were never stored, or the threshold list can be written and the delete is done. -/
def MemberGroup.Whole (g : MemberGroup) (j : ℕ) : Prop :=
  g.newgroupmembers = [] ∨ j = 0 ∨ ¬ Timely g.newgroupmembers ∨
    Timely g.thresholdgroupmembers ∧ 2 ≤ j

/-- When both lists can be written, the database has them. -/
theorem Tracked.lasting_eq (h : Tracked w g db)
    (htimely : Timely (g.thresholdgroupmembers ++ g.newgroupmembers)) :
    getMembers db w.thresholdKey = g.thresholdgroupmembers ∧
      getMembers db w.newKey = g.newgroupmembers := by
  rw [timely_append] at htimely
  refine ⟨h.threshold_eq htimely.1, ?_⟩
  rw [h.new, if_pos htimely.2]

/-- A cut adds nobody. -/
theorem lasting_crashed_subset (h : Tracked w g db)
    (hfits : Fits (g.thresholdgroupmembers ++ g.newgroupmembers)) (j : ℕ) :
    lasting (db.crashed (w.resetEdits P hash g) j) w ⊆ lasting db w := by
  by_cases hnew : g.newgroupmembers = []
  · rw [lasting_crashed_of_nil hash hnew]
    exact List.Subset.refl _
  refine List.map_subset _ fun m hm => ?_
  by_cases htimely : Timely (g.thresholdgroupmembers ++ g.newgroupmembers)
  · obtain ⟨ht, hn⟩ := getMembers_crashed_of_timely (P := P) (w := w) hash db hnew htimely hfits j
    obtain ⟨ht₀, hn₀⟩ := h.lasting_eq htimely
    rw [ht, hn, ht₀, hn₀] at hm
    rw [ht₀, hn₀]
    split at hm <;> split at hm <;> simp only [List.mem_append, List.not_mem_nil] at hm ⊢ <;> tauto
  · obtain ⟨ht, hn⟩ := getMembers_crashed_of_not_timely (P := P) (w := w) hash db hnew htimely j
    rw [ht, hn] at hm
    split at hm <;> simp only [List.mem_append, List.not_mem_nil] at hm ⊢ <;> tauto

theorem lasting_crashed_iff (h : Tracked w g db) (hu : g.Unrepeated)
    (hfits : Fits (g.thresholdgroupmembers ++ g.newgroupmembers)) (j : ℕ) :
    ((lasting (db.crashed (w.resetEdits P hash g) j) w).Nodup ∧
        lasting db w ⊆ lasting (db.crashed (w.resetEdits P hash g) j) w) ↔ g.Whole j := by
  have hstored : (lasting db w).Nodup := hu.sublist (h.stored_sublist.map _)
  by_cases hnew : g.newgroupmembers = []
  · rw [lasting_crashed_of_nil hash hnew]
    exact ⟨fun _ => .inl hnew, fun _ => ⟨hstored, List.Subset.refl _⟩⟩
  obtain ⟨m, hm⟩ := List.exists_mem_of_ne_nil _ hnew
  by_cases htimely : Timely (g.thresholdgroupmembers ++ g.newgroupmembers)
  · obtain ⟨ht, hn⟩ := getMembers_crashed_of_timely (P := P) (w := w) hash db hnew htimely hfits j
    obtain ⟨ht₀, hn₀⟩ := h.lasting_eq htimely
    rw [lasting, ht₀, hn₀] at hstored
    rw [lasting, ht, hn, lasting, ht₀, hn₀]
    rw [timely_append] at htimely
    match j with
    | 0 => exact ⟨fun _ => .inr (.inl rfl), fun _ => ⟨hstored, List.Subset.refl _⟩⟩
    | 1 =>
      refine ⟨fun hc => ?_, fun hc => ?_⟩
      · have hdup := hc.1
        rw [if_neg one_ne_zero, if_pos le_rfl, List.map_append, List.nodup_append] at hdup
        refine absurd rfl (hdup.2.2 m.address ?_ m.address (List.mem_map_of_mem hm))
        exact List.mem_map_of_mem (List.mem_append_right _ hm)
      · rcases hc with hc | hc | hc | hc
        · exact absurd hc hnew
        · exact absurd hc one_ne_zero
        · exact absurd htimely.2 hc
        · exact absurd hc.2 (by decide)
    | j + 2 =>
      rw [if_neg (by omega), if_neg (by omega), List.append_nil]
      exact ⟨fun _ => .inr (.inr (.inr ⟨htimely.1, by omega⟩)),
        fun _ => ⟨hstored, List.Subset.refl _⟩⟩
  · obtain ⟨ht, hn⟩ := getMembers_crashed_of_not_timely (P := P) (w := w) hash db hnew htimely j
    rw [timely_append, not_and_or] at htimely
    match j with
    | 0 => exact ⟨fun _ => .inr (.inl rfl), fun _ => ⟨hstored, List.Subset.refl _⟩⟩
    | j + 1 =>
      rw [if_neg (by omega)] at hn
      by_cases hlate : Timely g.newgroupmembers
      · have hn₀ : getMembers db w.newKey = g.newgroupmembers := by rw [h.new, if_pos hlate]
        refine ⟨fun hc => absurd (hc.2 (List.mem_map_of_mem
          (List.mem_append_right _ (hn₀.symm ▸ hm)))) fun hmem => ?_, fun hc => ?_⟩
        · rw [lasting, ht, hn, List.append_nil] at hmem
          rw [lasting, hn₀, List.map_append, List.nodup_append] at hstored
          exact hstored.2.2 m.address hmem m.address (List.mem_map_of_mem hm) rfl
        · rcases hc with hc | hc | hc | hc
          · exact absurd hc hnew
          · exact absurd hc (by omega)
          · exact absurd hlate hc
          · exact absurd hc.1 (htimely.resolve_right (not_not.mpr hlate))
      · have hn₀ : getMembers db w.newKey = [] := by rw [h.new, if_neg hlate]
        rw [lasting, ht, hn, lasting, hn₀]
        rw [lasting, hn₀] at hstored
        exact ⟨fun _ => .inr (.inr (.inl hlate)), fun _ => ⟨hstored, List.Subset.refl _⟩⟩

variable {j : ℕ} {w' : Which}

/-- The group that is read after a cut: the one before, or the threshold members. -/
theorem mem_of_mem_crashed (hsort : P.Sorts) (h : Tracked w g db)
    (hfits : 3 ≤ g.thresholdgroupmembers.length → Fits (P.sortByTime g.thresholdgroupmembers))
    {key : Bytes} (hkey : w.isMembersKey key = true) {m : GroupMember}
    (hm : m ∈ getMembers (db.crashed (w.resetEdits P hash g) j) key) :
    m ∈ getMembers db key ∨ m ∈ getMembers db w.thresholdKey := by
  rcases Db.get_edits db ((w.resetEdits P hash g).take j) key with hget | ⟨e, he, hk, hget⟩
  · exact .inl (getMembers_congr hget ▸ hm)
  rcases List.mem_append.mp (List.mem_of_mem_take he) with he | he
  · rcases key_of_mem_resetEdits he with hk' | hk'
    · rw [← hk, hk', w.isMembersKey_thresholdKey] at hkey
      cases hkey
    · rw [← hk, hk', w.isMembersKey_newKey] at hkey
      cases hkey
  · obtain ⟨hthree, key', -, he⟩ := mem_membersEdits he
    unfold membersEdits at he
    split at he
    · next it hit =>
      rw [List.mem_singleton.mp he] at hget
      have hmembers : getMembers (db.crashed (w.resetEdits P hash g) j) key
          = P.sortByTime g.thresholdgroupmembers := getMembers_put hit (hfits hthree it hit) hget
      have htimely : Timely g.thresholdgroupmembers := by
        rw [← timely_perm (hsort _), ← hmembers]
        exact timely_getMembers _ _
      rw [hmembers, (hsort _).mem_iff, ← h.threshold_eq htimely] at hm
      exact .inr hm
    · cases he

variable {hash' : Hash}

/-- A cut lists nobody new: in the group that is reset. -/
theorem crashed_lists (hsort : P.Sorts) (h : Tracked w g db)
    (hfits : Fits (g.thresholdgroupmembers ++ g.newgroupmembers))
    (hfits' : 3 ≤ g.thresholdgroupmembers.length → Fits (P.sortByTime g.thresholdgroupmembers))
    {addr : Address}
    (haddr : ((newValidateGroup P (db.crashed (w.resetEdits P hash g) j) hash').group w).Lists
      addr) : ((newValidateGroup P db hash').group w).Lists addr := by
  rw [lists_newValidateGroup hsort] at haddr ⊢
  rcases haddr with haddr | haddr
  · obtain ⟨m, hm, rfl⟩ := List.mem_map.mp haddr
    rcases mem_of_mem_crashed hash hsort h hfits' (isMembersKey_readKey w hash') hm with hm | hm
    · exact .inl (List.mem_map_of_mem hm)
    · exact .inr (List.mem_map_of_mem (List.mem_append_left _ hm))
  · exact .inr (lasting_crashed_subset hash h hfits j haddr)

theorem crashed_lists_of_ne (hsort : P.Sorts) (hne : w' ≠ w) (j : ℕ) :
    lasting (db.crashed (w.resetEdits P hash g) j) w' = lasting db w' ∧ ∀ addr,
      ((newValidateGroup P (db.crashed (w.resetEdits P hash g) j) hash').group w').Lists addr ↔
        ((newValidateGroup P db hash').group w').Lists addr := by
  have hkey : ∀ k ∈ w'.keys,
      getMembers (db.crashed (w.resetEdits P hash g) j) k = getMembers db k := fun k hk =>
    getMembers_congr (Db.sameOff_crashed (fun _ => key_mem_of_mem_resetEdits) db j k
      (Which.notMem_keys hne hk))
  have hlasting : lasting (db.crashed (w.resetEdits P hash g) j) w' = lasting db w' := by
    rw [lasting, hkey _ w'.thresholdKey_mem, hkey _ w'.newKey_mem, lasting]
  refine ⟨hlasting, fun addr => ?_⟩
  rw [lists_newValidateGroup hsort, lists_newValidateGroup hsort, hlasting,
    hkey _ (.inr (isMembersKey_readKey w' hash'))]

/-- The group in the database has only threshold and new members. -/
def Covered (db : Db) (hash : Hash) (w : Which) : Prop :=
  ∀ m ∈ getMembers db (w.readKey hash), m.address ∈ lasting db w

section

variable (hsort : P.Sorts)
include hsort

theorem covered_iff :
    Covered db hash' w ↔
      ∀ addr, ((newValidateGroup P db hash').group w).Lists addr → addr ∈ lasting db w := by
  simp only [lists_newValidateGroup hsort, Covered, or_imp, imp_self, and_true, List.forall_mem_map]

/-- **The group that is reset** is safe at a cut that does no harm, if it was covered. -/
theorem crashed_listed_iff (h : Tracked w g db)
    (hu : g.Unrepeated) (hfits : Fits (g.thresholdgroupmembers ++ g.newgroupmembers))
    (hfits' : 3 ≤ g.thresholdgroupmembers.length → Fits (P.sortByTime g.thresholdgroupmembers))
    (hash' : Hash) (j : ℕ) :
    KeptAt P db (w.resetEdits P hash g) hash' w j ↔ Covered db hash' w ∧ g.Whole j := by
  rw [← lasting_crashed_iff (P := P) hash h hu hfits j, covered_iff hsort]
  constructor
  · rintro ⟨hnodup, hlisted⟩
    have h₀ := hlisted 0 (Nat.zero_le j)
    rw [Db.crashed_zero] at h₀
    exact ⟨fun addr haddr => lasting_crashed_subset hash h hfits j (h₀ addr haddr), hnodup,
      fun addr haddr => h₀ addr ((lists_newValidateGroup hsort).mpr (.inr haddr))⟩
  · rintro ⟨hcovered, hnodup, hsub⟩
    exact ⟨hnodup, fun i _ addr haddr =>
      hsub (hcovered addr (crashed_lists hash hsort h hfits hfits' haddr))⟩

/-- **The other groups** are safe if they were covered. -/
theorem crashed_listed_of_ne (hne : w' ≠ w)
    (hnodup : (lasting db w').Nodup) (hash' : Hash) (j : ℕ) :
    KeptAt P db (w.resetEdits P hash g) hash' w' j ↔ Covered db hash' w' := by
  have hcut := fun i => (crashed_lists_of_ne hash hsort hne i :
    lasting (db.crashed (w.resetEdits P hash g) i) w' = lasting db w' ∧ ∀ addr,
      ((newValidateGroup P (db.crashed (w.resetEdits P hash g) i) hash').group w').Lists addr ↔
        ((newValidateGroup P db hash').group w').Lists addr)
  rw [covered_iff hsort, KeptAt, (hcut j).1]
  constructor
  · exact fun h addr haddr => h.2 0 (Nat.zero_le j) addr haddr
  · exact fun h => ⟨hnodup, fun i _ addr haddr => h addr (((hcut i).2 addr).mp haddr)⟩

end

end Reset

/-- **A reset that is cut off is harmless exactly when** everybody in the stored groups is a
threshold or a new member, and the cut is not one that leaves the new members in both lists or in
none. -/
theorem reset_crash_safe_iff (hsort : P.Sorts) {db₀ : Db} {hash₀ : Hash}
    (h₀ : ∀ w, (lasting db₀ w).Nodup) {s : ValidateGroup × Db}
    (hrun : Reach P (fun _ _ => True) (newValidateGroup P db₀ hash₀, db₀) s) (w : Which)
    (hash : Hash) (hfit : AllFit ((w.resetOp hash).apply P s).1) (hash' : Hash)
    (hroom : ∀ w, ((newValidateGroup P s.2 hash').group w).membersAddress.length < 2 ^ 64) (j : ℕ) :
    CrashSafe P s.2 (w.resetEdits P hash (s.1.group w)) hash' j ↔
      (∀ w, Covered s.2 hash' w) ∧ (s.1.group w).Whole j := by
  obtain ⟨vg, db⟩ := s
  have ht : ∀ w, Tracked w (vg.group w) db :=
    hrun.tracked hsort (tracked_newValidateGroup db₀ hash₀)
  have hu : ∀ w, (vg.group w).Unrepeated :=
    hrun.unrepeated hsort (tracked_newValidateGroup db₀ hash₀) fun w => by
      have hn := h₀ w
      rwa [← lasting_newValidateGroup (P := P) db₀ hash₀ w] at hn
  have hgroup := hfit.group w
  rw [group_resetOp, MemberGroup.AllFit, MemberGroup.groupmembers_reset,
    MemberGroup.thresholdgroupmembers_reset] at hgroup
  have hfits' : 3 ≤ (vg.group w).thresholdgroupmembers.length →
      Fits (P.sortByTime (vg.group w).thresholdgroupmembers) := fun hthree => by
    have hmembers := hgroup.1
    rwa [if_pos hthree] at hmembers
  have hlisted : ∀ w' addr,
      ((newValidateGroup P (db.crashed (w.resetEdits P hash (vg.group w)) j) hash').group w').Lists
        addr → ((newValidateGroup P db hash').group w').Lists addr := by
    intro w' addr haddr
    by_cases hne : w' = w
    · subst hne
      exact crashed_lists hash hsort (ht w') hgroup.2.2 hfits' haddr
    · exact ((crashed_lists_of_ne hash hsort hne j).2 addr).mp haddr
  rw [crashSafe_iff hsort
    (fun e he heq => w.stellMembersKey_notMem (heq ▸ key_mem_of_mem_resetEdits he))
    fun w' => ⟨((newValidateGroup P db hash').group w').membersAddress, fun addr haddr => ?_, ?_⟩]
  · have hw := crashed_listed_iff hash hsort (ht w) (hu w) hgroup.2.2 hfits' hash' j
    have hne := fun w' (hne : w' ≠ w) => crashed_listed_of_ne (P := P) (g := vg.group w)
      hash hsort hne ((hu w').sublist ((ht w').stored_sublist.map _)) hash' j
    constructor
    · intro h
      refine ⟨fun w' => ?_, (hw.mp (h w)).2⟩
      by_cases he : w' = w
      · subst he
        exact (hw.mp (h w')).1
      · exact (hne w' he).mp (h w')
    · rintro ⟨hcovered, hwhole⟩ w'
      by_cases he : w' = w
      · subst he
        exact hw.mpr ⟨hcovered w', hwhole⟩
      · exact (hne w' he).mpr (hcovered w')
  · have hread : ∀ (db : Db) (w : Which),
        addr ∈ ((newValidateGroup P db hash').group w).membersAddress ↔
          ((newValidateGroup P db hash').group w).Lists addr := fun db w => by cases w <;> rfl
    exact (hread _ _).mpr (hlisted w' addr ((hread _ _).mp haddr))
  · have := hroom w'
    simp only at this ⊢
    omega

end ValidateGroup

namespace Sample

open ValidateGroup

/-- Three applications. -/
def applying : List Op := [.add ⟨address 2, 2⟩, .add ⟨address 3, 3⟩, .add ⟨address 4, 4⟩]

end Sample

namespace ValidateGroup

open Gocoin.Sample (prims memberHash noMembers applying sorts_prims)

/-- The law applies after three applications. -/
theorem reset_crash_safe_iff_applying :
    CrashSafe prims (runOps prims applying noMembers).2
        (Which.space.resetEdits prims memberHash ((runOps prims applying noMembers).1.group .space))
        memberHash 1 ↔
      (∀ w, Covered (runOps prims applying noMembers).2 memberHash w) ∧
        ((runOps prims applying noMembers).1.group .space).Whole 1 :=
  reset_crash_safe_iff sorts_prims (fun w => by cases w <;> exact List.nodup_nil)
    (Reach.refl.runOps (fun _ _ => trivial) applying (by decide +kernel)) .space memberHash
    (by decide +kernel) memberHash (fun w => by cases w <;> decide +kernel) 1

/-- A crash between the write and the delete promotes everybody twice. -/
theorem cut_promotes_twice :
    Reach prims (fun _ _ => True) noMembers (runOps prims applying noMembers) ∧
      ¬ CrashSafe prims (runOps prims applying noMembers).2
        (Which.space.resetEdits prims memberHash ((runOps prims applying noMembers).1.group .space))
        memberHash 1 := by
  refine ⟨Reach.refl.runOps (fun _ _ => trivial) applying (by decide +kernel), fun h => ?_⟩
  have htwice : ¬ (((runOps prims [.reset memberHash] (newValidateGroup prims
      ((runOps prims applying noMembers).2.crashed (Which.space.resetEdits prims memberHash
        ((runOps prims applying noMembers).1.group .space)) 1) memberHash,
      (runOps prims applying noMembers).2.crashed (Which.space.resetEdits prims memberHash
        ((runOps prims applying noMembers).1.group .space)) 1)).1.group
        .space).thresholdgroupmembers.map GroupMember.address).Nodup := by
    decide +kernel
  exact htwice ((h [.reset memberHash]).1 .space)

end ValidateGroup

end Gocoin
