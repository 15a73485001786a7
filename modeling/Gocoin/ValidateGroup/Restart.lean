import Gocoin.ValidateGroup.Loss

/-!
# ValidateGroup/Restart — groups that are read back

A restarted node reads its lists from the database and takes exactly the listed addresses as seen.
It goes on like one that did not restart as long as the lists it reads are those that were in memory
and nobody was seen who is not listed: the operations depend on nothing else (`Alike.runOps`).  Both
can fail — an applicant with a negative time makes a list that cannot be written, and an applicant
that comes too early, or a member the group has dropped, is seen and not listed — and when one does,
some continuation shows the difference (`restart_invisible_iff`).
-/

namespace Gocoin

namespace ValidateGroup

/-! ## Continuations -/

/-- The two groups have the same members in every list. -/
structure MemberGroup.SameLists (g g' : MemberGroup) : Prop where
  members : g.groupmembers = g'.groupmembers
  new : g.newgroupmembers = g'.newgroupmembers
  threshold : g.thresholdgroupmembers = g'.thresholdgroupmembers

/-- …and so in all groups. -/
structure SameLists (vg vg' : ValidateGroup) : Prop where
  group : ∀ w, (vg.group w).SameLists (vg'.group w)
  stell : vg.stellgroupmembers = vg'.stellgroupmembers

/-- Nothing an operation depends on differs. -/
structure MemberGroup.Alike (g g' : MemberGroup) : Prop extends g.SameLists g' where
  seen : ∀ addr, addr ∈ g.membersAddress ↔ addr ∈ g'.membersAddress

/-- …in any group. -/
structure Alike (vg vg' : ValidateGroup) : Prop where
  space : vg.space.Alike vg'.space
  coin : vg.coin.Alike vg'.coin
  transaction : vg.transaction.Alike vg'.transaction
  stell : vg.stellgroupmembers = vg'.stellgroupmembers
  stellSeen : ∀ addr, addr ∈ vg.stellAddresses ↔ addr ∈ vg'.stellAddresses

variable {vg vg' : ValidateGroup} {g : MemberGroup} {s : ValidateGroup × Db} {db : Db}

theorem Alike.sameLists (h : Alike vg vg') : SameLists vg vg' :=
  ⟨fun w => by
    cases w
    · exact h.space.toSameLists
    · exact h.coin.toSameLists
    · exact h.transaction.toSameLists, h.stell⟩

variable {P : Prims} {seen seen' : List Address} {g' : MemberGroup} {w : Which}

/-- An application depends on the list and on who has been seen. -/
theorem addMember_congr (h : ∀ addr, addr ∈ seen ↔ addr ∈ seen') (db : Db) (key : Bytes)
    (ms : List GroupMember) (m : GroupMember) :
    (addMember db key ms seen m).1 = (addMember db key ms seen' m).1 ∧
    (∀ addr, addr ∈ (addMember db key ms seen m).2.1 ↔ addr ∈ (addMember db key ms seen' m).2.1) ∧
    (addMember db key ms seen m).2.2 = (addMember db key ms seen' m).2.2 := by
  have hcons : ∀ addr, addr ∈ m.address :: seen ↔ addr ∈ m.address :: seen' := fun addr => by
    rw [List.mem_cons, List.mem_cons, h addr]
  unfold addMember
  by_cases hm : m.address ∈ seen
  · rw [if_pos hm, if_pos ((h _).mp hm)]
    exact ⟨rfl, h, rfl⟩
  · rw [if_neg hm, if_neg fun hm' => hm ((h _).mpr hm')]
    cases ms.getLast? with
    | none => exact ⟨rfl, hcons, rfl⟩
    | some last =>
      simp only
      split
      · exact ⟨rfl, hcons, rfl⟩
      · exact ⟨rfl, hcons, rfl⟩

theorem MemberGroup.Alike.add (h : g.Alike g') (db : Db) (key : Bytes) (m : GroupMember) :
    (g.add db key m).1.Alike (g'.add db key m).1 ∧ (g.add db key m).2 = (g'.add db key m).2 := by
  obtain ⟨hms, hseen, hdb⟩ := addMember_congr h.seen db key g.newgroupmembers m
  rw [h.new] at hms hseen hdb
  unfold MemberGroup.add
  rw [h.new]
  exact ⟨⟨⟨h.members, hms, h.threshold⟩, hseen⟩, hdb⟩

theorem MemberGroup.Alike.reset (h : g.Alike g') (sort : List GroupMember → List GroupMember)
    (db : Db) (thresholdKey newKey : Bytes) :
    (g.reset sort db thresholdKey newKey).1.Alike (g'.reset sort db thresholdKey newKey).1 := by
  refine ⟨⟨?_, ?_, ?_⟩, ?_⟩
  · simp only [groupmembers_reset, h.members, h.threshold]
  · simp only [newgroupmembers_reset]
  · simp only [thresholdgroupmembers_reset, h.new, h.threshold]
  · simpa only [membersAddress_reset] using h.seen

/-- **An operation cannot tell two alike groups apart.** -/
theorem Alike.apply (h : Alike vg vg') (db : Db) (o : Op) :
    Alike (o.apply P (vg, db)).1 (o.apply P (vg', db)).1 ∧
      (o.apply P (vg, db)).2 = (o.apply P (vg', db)).2 := by
  cases o with
  | add m =>
    obtain ⟨hg, hdb⟩ := h.space.add db groupMembersKey m
    exact ⟨⟨hg, h.coin, h.transaction, h.stell, h.stellSeen⟩, hdb⟩
  | addStell m =>
    obtain ⟨hms, hseen, hdb⟩ :=
      addMember_congr h.stellSeen db stellMembersKey vg.stellgroupmembers m
    rw [h.stell] at hms hseen hdb
    simp only [Op.apply, ValidateGroup.addStell]
    rw [h.stell]
    exact ⟨⟨h.space, h.coin, h.transaction, hms, hseen⟩, hdb⟩
  | addCoin m =>
    obtain ⟨hg, hdb⟩ := h.coin.add db coingroupMembersKey m
    exact ⟨⟨h.space, hg, h.transaction, h.stell, h.stellSeen⟩, hdb⟩
  | addTransaction m =>
    obtain ⟨hg, hdb⟩ := h.transaction.add db newTxMembersKey m
    exact ⟨⟨h.space, h.coin, hg, h.stell, h.stellSeen⟩, hdb⟩
  | reset hash =>
    refine ⟨⟨h.space.reset .., h.coin, h.transaction, h.stell, h.stellSeen⟩, ?_⟩
    simp only [Op.apply, ValidateGroup.reset, MemberGroup.groupmembers_reset,
      MemberGroup.updateValidate_reset, MemberGroup.db_reset, h.space.members, h.space.new,
      h.space.threshold]
  | resetCoinGroup =>
    refine ⟨⟨h.space, h.coin.reset .., h.transaction, h.stell, h.stellSeen⟩, ?_⟩
    simp only [Op.apply, ValidateGroup.resetCoinGroup, MemberGroup.groupmembers_reset,
      MemberGroup.updateValidate_reset, MemberGroup.db_reset, h.coin.members, h.coin.new,
      h.coin.threshold]
  | resetTxGroup =>
    refine ⟨⟨h.space, h.coin, h.transaction.reset .., h.stell, h.stellSeen⟩, ?_⟩
    simp only [Op.apply, ValidateGroup.resetTxGroup, MemberGroup.groupmembers_reset,
      MemberGroup.updateValidate_reset, MemberGroup.db_reset, h.transaction.members,
      h.transaction.new, h.transaction.threshold]

theorem Alike.runOps (h : Alike vg vg') (db : Db) (ops : List Op) :
    Alike (runOps P ops (vg, db)).1 (runOps P ops (vg', db)).1 := by
  induction ops generalizing vg vg' db with
  | nil => exact h
  | cons o ops ih =>
    obtain ⟨hvg, hdb⟩ := h.apply (P := P) db o
    have := ih hvg (o.apply P (vg, db)).2
    simp only [ValidateGroup.runOps, List.foldl_cons] at this ⊢
    rwa [show (o.apply P (vg', db)) = ((o.apply P (vg', db)).1, (o.apply P (vg, db)).2) from
      Prod.ext rfl hdb.symm]

/-! ## The settlement group -/

/-- What holds of the settlement group and its key in every run. -/
structure StellTracked (s : ValidateGroup × Db) : Prop where
  filed : Filed s.2 stellMembersKey s.1.stellgroupmembers
  seen : ∀ m ∈ s.1.stellgroupmembers, m.address ∈ s.1.stellAddresses

theorem stellTracked_newValidateGroup (db : Db) (hash : Hash) :
    StellTracked (newValidateGroup P db hash, db) :=
  ⟨(if_pos (timely_getMembers db stellMembersKey)).symm, fun _ hm => List.mem_map_of_mem hm⟩

/-- Only an application to the settlement group touches it. -/
theorem StellTracked.congr {s' : ValidateGroup × Db} (h : StellTracked s)
    (hoff : s.2.SameOff w.keys s'.2) (hms : s'.1.stellgroupmembers = s.1.stellgroupmembers)
    (hseen : s'.1.stellAddresses = s.1.stellAddresses) : StellTracked s' := by
  refine ⟨?_, by rw [hms, hseen]; exact h.seen⟩
  rw [hms, Filed, getMembers_congr (hoff _ w.stellMembersKey_notMem)]
  exact h.filed

theorem StellTracked.apply (h : StellTracked s) (o : Op)
    (hfits : Fits (o.apply P s).1.stellgroupmembers) : StellTracked (o.apply P s) := by
  obtain ⟨vg, db⟩ := s
  cases o with
  | add m =>
    exact h.congr (w := .space) (addMember_sameOff _ Which.space.newKey_mem db _ _ m) rfl rfl
  | addStell m =>
    refine ⟨h.filed.addMember vg.stellAddresses m hfits, ?_⟩
    show ∀ m' ∈ (addMember db stellMembersKey vg.stellgroupmembers vg.stellAddresses m).1,
      m'.address ∈ (addMember db stellMembersKey vg.stellgroupmembers vg.stellAddresses m).2.1
    obtain ⟨-, he⟩ | ⟨-, -, he⟩ | ⟨-, -, he⟩ :=
      addMember_cases db stellMembersKey vg.stellgroupmembers vg.stellAddresses m
    · rw [he]
      exact h.seen
    · rw [he]
      exact fun m' hm' => List.mem_cons_of_mem _ (h.seen m' hm')
    · rw [he]
      intro m' hm'
      rcases List.mem_append.mp hm' with hm' | hm'
      · exact List.mem_cons_of_mem _ (h.seen m' hm')
      · rw [List.mem_singleton.mp hm']
        exact List.mem_cons_self
  | addCoin m =>
    exact h.congr (w := .coin) (addMember_sameOff _ Which.coin.newKey_mem db _ _ m) rfl rfl
  | addTransaction m =>
    exact h.congr (w := .transaction)
      (addMember_sameOff _ Which.transaction.newKey_mem db _ _ m) rfl rfl
  | reset hash => exact h.congr (resets_space (P := P) vg db hash).off rfl rfl
  | resetCoinGroup => exact h.congr (resets_coin (P := P) vg db).off rfl rfl
  | resetTxGroup => exact h.congr (resets_transaction (P := P) vg db).off rfl rfl

/-! ## Restarts -/

/-- The runs of operations. -/
def Running (_ : ValidateGroup × Db) (a : Act) : Prop := ∃ o, a = .op o

theorem Reach.stellTracked {s₀ : ValidateGroup × Db} (h₀ : StellTracked s₀)
    (h : Reach P Running s₀ s) : StellTracked s := by
  induction h with
  | refl => exact h₀
  | step _ ha hs hfit ih =>
    obtain ⟨o, rfl⟩ := ha
    cases hs
    exact ih.apply o hfit.stell

/-- The members are stored under the hash. -/
def StoredUnder (db : Db) (hash : Hash) (ms : List GroupMember) : Prop :=
  ∃ it, membersItem ms = some it ∧ db.get hash.bytes = some (Rlp.encode it)

/-- **What makes a restart invisible**: no listed member has a negative time, the coin and the
transaction group are the stored ones, sorting by time leaves the consensus group as it is, and only
listed addresses have been seen. -/
structure Recoverable (P : Prims) (vg : ValidateGroup) (db : Db) : Prop where
  new : ∀ w, Timely (vg.group w).newgroupmembers
  threshold : ∀ w, Timely (vg.group w).thresholdgroupmembers
  stell : Timely vg.stellgroupmembers
  sorted : P.sortByTime vg.space.groupmembers = vg.space.groupmembers
  coin : getMembers db coinMembersKey = vg.coin.groupmembers
  transaction : getMembers db transactionMembersKey = vg.transaction.groupmembers
  seen : ∀ w, ∀ addr ∈ (vg.group w).membersAddress, (vg.group w).Lists addr
  stellSeen : ∀ addr ∈ vg.stellAddresses, addr ∈ vg.stellgroupmembers.map GroupMember.address

/-- A group whose lists are read back as they were, and who has seen only listed addresses. -/
theorem alike_newMemberGroup (h : Tracked w g db) (hnew : Timely g.newgroupmembers)
    (hthreshold : Timely g.thresholdgroupmembers) (hseen : ∀ addr ∈ g.membersAddress, g.Lists addr)
    {members : List GroupMember} (hmembers : members = g.groupmembers) :
    (newMemberGroup members (getMembers db w.newKey) (getMembers db w.thresholdKey)).Alike g := by
  have hn : getMembers db w.newKey = g.newgroupmembers := by rw [h.new, if_pos hnew]
  have ht := h.threshold_eq hthreshold
  refine ⟨⟨hmembers, hn, ht⟩, fun addr => ?_⟩
  rw [newMemberGroup, hn, ht, hmembers]
  exact ⟨h.known addr, hseen addr⟩

/-- **A recoverable group and the one that is read back are alike.** -/
theorem Recoverable.alike (h : Recoverable P vg db) (ht : ∀ w, Tracked w (vg.group w) db)
    (hs : StellTracked (vg, db)) (hfit : AllFit vg) {hash : Hash}
    (hkey : StoredUnder db hash vg.space.groupmembers) :
    Alike (newValidateGroup P db hash) vg := by
  obtain ⟨it, hit, hget⟩ := hkey
  have hmembers := getMembers_put hit ((hfit.group .space).1 it hit) hget
  have hstell : getMembers db stellMembersKey = vg.stellgroupmembers := by
    rw [hs.filed, if_pos h.stell]
  refine ⟨?_, ?_, ?_, hstell, fun addr => ?_⟩
  · exact alike_newMemberGroup (ht .space) (h.new .space) (h.threshold .space) (h.seen .space)
      (by rw [hmembers]; exact h.sorted)
  · exact alike_newMemberGroup (ht .coin) (h.new .coin) (h.threshold .coin) (h.seen .coin) h.coin
  · exact alike_newMemberGroup (ht .transaction) (h.new .transaction) (h.threshold .transaction)
      (h.seen .transaction) h.transaction
  · rw [newValidateGroup, hstell]
    refine ⟨fun haddr => ?_, h.stellSeen addr⟩
    obtain ⟨m, hm, rfl⟩ := List.mem_map.mp haddr
    exact hs.seen m hm

/-- The application to a group. -/
def Which.addOp : Which → GroupMember → Op
  | .space => .add
  | .coin => .addCoin
  | .transaction => .addTransaction

theorem group_addOp (w : Which) (vg : ValidateGroup) (db : Db) (m : GroupMember) :
    ((w.addOp m).apply P (vg, db)).1.group w = ((vg.group w).add db w.newKey m).1 := by
  cases w <;> rfl

/-- An applicant later than everybody. -/
def late (ms : List GroupMember) (addr : Address) : GroupMember :=
  ⟨addr, (ms.getLast?.map GroupMember.time).getD 0 + 1⟩

/-- A late applicant is appended, unless it has been seen. -/
theorem addMember_late (db : Db) (key : Bytes) (ms : List GroupMember) (seen : List Address)
    (addr : Address) :
    (addMember db key ms seen (late ms addr)).1
      = if addr ∈ seen then ms else ms ++ [late ms addr] := by
  obtain ⟨h, he⟩ | ⟨-, ⟨last, hlast, hle⟩, -⟩ | ⟨h, -, he⟩ :=
    addMember_cases db key ms seen (late ms addr)
  · rw [he]
    exact (if_pos h).symm
  · simp only [late, Option.mem_def.mp hlast, Option.map_some, Option.getD_some] at hle
    omega
  · rw [he]
    exact (if_neg h).symm

/-- Two lists with different seen addresses come apart when one of these applies late. -/
theorem mem_of_addMember_late {key : Bytes} {ms : List GroupMember} {addr : Address}
    (h : (addMember db key ms seen (late ms addr)).1 = (addMember db key ms seen' (late ms addr)).1)
    (haddr : addr ∈ seen') : addr ∈ seen := by
  by_contra hne
  rw [addMember_late, addMember_late, if_pos haddr, if_neg hne] at h
  simp at h

/-- **A restart is invisible exactly when the groups are recoverable**: a node that reads its groups
back, from a hash under which the current consensus group is stored, has the same member lists in
every continuation as one that did not restart. -/
theorem restart_invisible_iff (hsort : P.Sorts) {db₀ : Db} {hash₀ hash : Hash}
    {s : ValidateGroup × Db} (hrun : Reach P Running (newValidateGroup P db₀ hash₀, db₀) s)
    (hfit : AllFit s.1) (hkey : StoredUnder s.2 hash s.1.space.groupmembers) :
    (∀ ops, SameLists (runOps P ops (newValidateGroup P s.2 hash, s.2)).1 (runOps P ops s).1) ↔
      Recoverable P s.1 s.2 := by
  obtain ⟨vg, db⟩ := s
  have ht : ∀ w, Tracked w (vg.group w) db :=
    hrun.tracked hsort (tracked_newValidateGroup db₀ hash₀)
  have hs : StellTracked (vg, db) := hrun.stellTracked (stellTracked_newValidateGroup db₀ hash₀)
  constructor
  · intro h
    have hnow : SameLists (newValidateGroup P db hash) vg := h []
    obtain ⟨it, hit, hget⟩ := hkey
    have hmembers := getMembers_put hit ((hfit.group .space).1 it hit) hget
    refine ⟨fun w => ?_, fun w => ?_, ?_, ?_, (hnow.group .coin).members,
      (hnow.group .transaction).members, fun w addr haddr => ?_, fun addr haddr => ?_⟩
    · rw [← (hnow.group w).new]
      cases w <;> exact timely_getMembers db _
    · rw [← (hnow.group w).threshold]
      cases w <;> exact timely_getMembers db _
    · rw [← hnow.stell]
      exact timely_getMembers db _
    · have hspace := (hnow.group .space).members
      simp only [group, newValidateGroup, newMemberGroup, hmembers] at hspace
      exact hspace
    · have hlate := ((h [w.addOp (late (vg.group w).newgroupmembers addr)]).group w).new
      simp only [runOps, List.foldl_cons, List.foldl_nil, group_addOp, MemberGroup.add,
        (hnow.group w).new] at hlate
      have hmem := mem_of_addMember_late hlate haddr
      have hlisted : ((newValidateGroup P db hash).group w).Lists addr := by
        cases w <;> exact hmem
      rwa [MemberGroup.Lists, (hnow.group w).members, (hnow.group w).new,
        (hnow.group w).threshold] at hlisted
    · have hlate := (h [.addStell (late vg.stellgroupmembers addr)]).stell
      simp only [runOps, List.foldl_cons, List.foldl_nil, Op.apply, addStell, hnow.stell] at hlate
      have hmem := mem_of_addMember_late hlate haddr
      rw [← hnow.stell]
      exact hmem
  · intro h ops
    exact ((h.alike ht hs hfit hkey).runOps db ops).sameLists

end ValidateGroup

namespace Sample

open ValidateGroup

/-- Three applications and two resets; the second writes the three as the group. -/
def settling : List Op :=
  [.add ⟨address 2, 2⟩, .add ⟨address 3, 3⟩, .add ⟨address 4, 4⟩, .reset memberHash,
    .reset memberHash]

/-- …and two more applications, of which the second comes too early. -/
def overtaking : List Op := settling ++ [.add ⟨address 5, 9⟩, .add ⟨address 6, 7⟩]

end Sample

namespace ValidateGroup

open Gocoin.Sample (prims address memberHash noMembers settling overtaking sorts_prims)

/-- The law applies after the group has been written. -/
theorem restart_invisible_iff_settling :
    (∀ ops, SameLists (runOps prims ops (newValidateGroup prims (runOps prims settling noMembers).2
        memberHash, (runOps prims settling noMembers).2)).1
      (runOps prims ops (runOps prims settling noMembers)).1) ↔
    Recoverable prims (runOps prims settling noMembers).1 (runOps prims settling noMembers).2 :=
  restart_invisible_iff sorts_prims
    (Reach.refl.runOps (fun _ o => ⟨o, rfl⟩) settling (by decide +kernel))
    (by decide +kernel)
    (show ∃ it ∈ membersItem _, (runOps prims settling noMembers).2.get memberHash.bytes
      = some (Rlp.encode it) by decide +kernel)

/-- An applicant that came too early is admitted after a restart, and is not without one. -/
theorem restart_admits_overtaken :
    Reach prims Running noMembers (runOps prims overtaking noMembers) ∧
    StoredUnder (runOps prims overtaking noMembers).2 memberHash
      (runOps prims overtaking noMembers).1.space.groupmembers ∧
    ¬ SameLists
      (runOps prims [.add ⟨address 6, 10⟩]
        (newValidateGroup prims (runOps prims overtaking noMembers).2 memberHash,
          (runOps prims overtaking noMembers).2)).1
      (runOps prims [.add ⟨address 6, 10⟩] (runOps prims overtaking noMembers)).1 := by
  refine ⟨Reach.refl.runOps (fun _ o => ⟨o, rfl⟩) overtaking (by decide +kernel), ?_, fun h => ?_⟩
  · show ∃ it ∈ membersItem _, (runOps prims overtaking noMembers).2.get memberHash.bytes
      = some (Rlp.encode it)
    decide +kernel
  · have hne : (runOps prims [.add ⟨address 6, 10⟩]
        (newValidateGroup prims (runOps prims overtaking noMembers).2 memberHash,
          (runOps prims overtaking noMembers).2)).1.space.newgroupmembers
        ≠ (runOps prims [.add ⟨address 6, 10⟩]
          (runOps prims overtaking noMembers)).1.space.newgroupmembers := by
      decide +kernel
    have hnew := (h.group .space).new
    simp only [group] at hnew
    exact hne hnew

end ValidateGroup

end Gocoin
