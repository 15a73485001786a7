import Gocoin.ValidateGroup.Distinct

/-!
# ValidateGroup/Loss — members that get lost

A member of the consensus group applies, waits among the new members, becomes a threshold member and
joins the group; at genesis it joins the group at once.  The group is replaced by the threshold
members as soon as there are three of them, so a member that came in at genesis is lost then, and an
applicant whose time is not later than the last one is remembered as seen and listed nowhere.
Nothing else loses an address: `nothing_lost_iff` says that a run keeps every address it has seen in
one of the three lists exactly when none of its steps is one of these two.
-/

namespace Gocoin.ValidateGroup

/-- The operations on the consensus group. -/
inductive SpaceOp where
  | add (m : GroupMember)
  | resetInit (hash : Hash)
  | reset (hash : Hash)

section

variable (P : Prims)

/-- An operation on the groups and their database. -/
def SpaceOp.apply : SpaceOp → ValidateGroup × Db → ValidateGroup × Db
  | .add m, (vg, db) => vg.add db m
  | .resetInit hash, (vg, db) => vg.resetInit P db hash
  | .reset hash, (vg, db) => vg.reset P db hash

/-- The state after the first operations of a run. -/
def stateAt (s₀ : ValidateGroup × Db) (ops : List SpaceOp) (i : ℕ) : ValidateGroup × Db :=
  (ops.take i).foldl (fun s o => o.apply P s) s₀

/-- **The law**: who was a new member once is listed ever after, and so is every address that an
application is refused for. -/
def NothingLost (s₀ : ValidateGroup × Db) (ops : List SpaceOp) : Prop :=
  ∀ j ≤ ops.length,
    (∀ i ≤ j, ∀ m ∈ (stateAt P s₀ ops i).1.space.newgroupmembers,
      (stateAt P s₀ ops j).1.space.Lists m.address) ∧
    ∀ addr ∈ (stateAt P s₀ ops j).1.space.membersAddress, (stateAt P s₀ ops j).1.space.Lists addr

/-- **What loses nobody**: an application that is refused or later than the last one, and a reset
that either keeps the group or finds all of it among the threshold and the new members. -/
def MemberGroup.Spares (g : MemberGroup) : SpaceOp → Prop
  | .add m => m.address ∈ g.membersAddress ∨ ∀ last ∈ g.newgroupmembers.getLast?, last.time < m.time
  | .resetInit _ => True
  | .reset _ => 3 ≤ g.thresholdgroupmembers.length → ∀ m ∈ g.groupmembers,
      m.address ∈ (g.thresholdgroupmembers ++ g.newgroupmembers).map GroupMember.address

end

variable {P : Prims}

/-! ## One operation -/

/-- The lists after the reset at genesis. -/
theorem resetInit_space (vg : ValidateGroup) (db : Db) (hash : Hash) (hsort : P.Sorts) :
    (∀ addr, (vg.resetInit P db hash).1.space.Lists addr ↔ vg.space.Lists addr) ∧
      (vg.resetInit P db hash).1.space.membersAddress = vg.space.membersAddress := by
  unfold ValidateGroup.resetInit
  split
  · refine ⟨fun addr => ?_, rfl⟩
    simp only [lists_iff, ((hsort _).map GroupMember.address).mem_iff, List.map_append,
      List.mem_append, List.map_nil, List.not_mem_nil, or_false]
    tauto
  · exact ⟨fun addr => .rfl, rfl⟩

/-- The lists after a reset: the threshold members replace the group when there are three. -/
theorem lists_reset (vg : ValidateGroup) (db : Db) (hash : Hash)
    (hsort : P.Sorts) (addr : Address) :
    (vg.reset P db hash).1.space.Lists addr ↔
      (¬ 3 ≤ vg.space.thresholdgroupmembers.length ∧
        addr ∈ vg.space.groupmembers.map GroupMember.address) ∨
      addr ∈ (vg.space.thresholdgroupmembers ++ vg.space.newgroupmembers).map
        GroupMember.address := by
  have hspace : (vg.reset P db hash).1.space
      = (vg.space.reset P.sortByTime db thresholdMembersKey groupMembersKey).1 := rfl
  simp only [lists_iff, hspace, MemberGroup.groupmembers_reset,
    MemberGroup.thresholdgroupmembers_reset, MemberGroup.newgroupmembers_reset,
    ((hsort _).map GroupMember.address).mem_iff, List.map_nil, List.not_mem_nil, or_false]
  split
  · next h =>
    simp only [h, not_true_eq_false, false_and, false_or, List.map_append, List.mem_append]
    tauto
  · next h => simp only [h, not_false_eq_true, true_and]

theorem membersAddress_reset_space (vg : ValidateGroup) (db : Db) (hash : Hash) :
    (vg.reset P db hash).1.space.membersAddress = vg.space.membersAddress :=
  MemberGroup.membersAddress_reset ..

/-- Nothing that has been seen is unseen later. -/
theorem membersAddress_apply (hsort : P.Sorts) (s : ValidateGroup × Db)
    (o : SpaceOp) : s.1.space.membersAddress ⊆ (o.apply P s).1.space.membersAddress := by
  obtain ⟨vg, db⟩ := s
  cases o with
  | add m =>
    show vg.space.membersAddress
      ⊆ (addMember db groupMembersKey vg.space.newgroupmembers vg.space.membersAddress m).2.1
    obtain ⟨-, he⟩ | ⟨-, -, he⟩ | ⟨-, -, he⟩ :=
      addMember_cases db groupMembersKey vg.space.newgroupmembers vg.space.membersAddress m
    · rw [he]
      exact List.Subset.refl _
    · rw [he]
      exact List.subset_cons_self _ _
    · rw [he]
      exact List.subset_cons_self _ _
  | resetInit hash =>
    show vg.space.membersAddress ⊆ (vg.resetInit P db hash).1.space.membersAddress
    rw [(resetInit_space vg db hash hsort).2]
    exact List.Subset.refl _
  | reset hash =>
    show vg.space.membersAddress ⊆ (vg.reset P db hash).1.space.membersAddress
    rw [membersAddress_reset_space]
    exact List.Subset.refl _

/-- **An operation leaves all listed who have been seen, exactly when it spares them.** -/
theorem all_listed_apply_iff (hsort : P.Sorts) {s : ValidateGroup × Db} (hknown : s.1.space.Known)
    (hall : ∀ addr ∈ s.1.space.membersAddress, s.1.space.Lists addr) (o : SpaceOp) :
    (∀ addr ∈ (o.apply P s).1.space.membersAddress, (o.apply P s).1.space.Lists addr) ↔
      s.1.space.Spares o := by
  obtain ⟨vg, db⟩ := s
  cases o with
  | add m =>
    have hspace : ((SpaceOp.add m).apply P (vg, db)).1.space
        = { vg.space with
            newgroupmembers :=
              (addMember db groupMembersKey vg.space.newgroupmembers vg.space.membersAddress m).1
            membersAddress :=
              (addMember db groupMembersKey vg.space.newgroupmembers
                vg.space.membersAddress m).2.1 } := rfl
    rw [hspace]
    obtain ⟨hseen, he⟩ | ⟨hseen, ⟨last, hlast, hle⟩, he⟩ | ⟨hseen, hlate, he⟩ :=
      addMember_cases db groupMembersKey vg.space.newgroupmembers vg.space.membersAddress m
    · rw [he]
      exact ⟨fun _ => .inl hseen, fun _ => hall⟩
    · rw [he]
      constructor
      · intro h
        exact absurd (hknown _ (h m.address List.mem_cons_self)) hseen
      · rintro (h | h)
        · exact absurd h hseen
        · exact absurd (h last hlast) (not_lt.mpr hle)
    · rw [he]
      refine ⟨fun _ => .inr hlate, fun _ addr haddr => ?_⟩
      simp only [lists_iff, List.map_append, List.mem_append, List.map_singleton,
        List.mem_singleton]
      rcases List.mem_cons.mp haddr with rfl | haddr
      · tauto
      · have := lists_iff.mp (hall addr haddr)
        tauto
  | resetInit hash =>
    obtain ⟨hlists, hseen⟩ := resetInit_space vg db hash hsort
    refine ⟨fun _ => trivial, fun _ addr haddr => ?_⟩
    exact (hlists addr).mpr (hall addr (hseen ▸ haddr))
  | reset hash =>
    constructor
    · intro h hthree m hm
      have hmem : m.address ∈ vg.space.membersAddress :=
        hknown m.address (lists_iff.mpr (.inl (List.mem_map_of_mem hm)))
      have hl := (lists_reset vg db hash hsort m.address).mp
        (h m.address (by rwa [SpaceOp.apply, membersAddress_reset_space]))
      exact hl.resolve_left fun hc => hc.1 hthree
    · intro h addr haddr
      rw [SpaceOp.apply, membersAddress_reset_space] at haddr
      refine (lists_reset vg db hash hsort addr).mpr ?_
      rcases lists_iff.mp (hall addr haddr) with hl | hl | hl
      · by_cases hthree : 3 ≤ vg.space.thresholdgroupmembers.length
        · obtain ⟨m, hm, rfl⟩ := List.mem_map.mp hl
          exact .inr (h hthree m hm)
        · exact .inl ⟨hthree, hl⟩
      · exact .inr (by rw [List.map_append, List.mem_append]; exact .inl hl)
      · exact .inr (by rw [List.map_append, List.mem_append]; exact .inr hl)

/-! ## Every run -/

theorem stateAt_succ (s₀ : ValidateGroup × Db) {ops : List SpaceOp} {i : ℕ} (hi : i < ops.length) :
    stateAt P s₀ ops (i + 1) = (ops[i]).apply P (stateAt P s₀ ops i) := by
  rw [stateAt, List.take_succ_eq_append_getElem hi, List.foldl_append]
  rfl

/-- An operation on the consensus group is a step. -/
theorem step_apply (s : ValidateGroup × Db) (o : SpaceOp) : ∃ a, Step P s a (o.apply P s) := by
  obtain ⟨vg, db⟩ := s
  cases o with
  | add m => exact ⟨_, .op (vg, db) (.add m)⟩
  | resetInit hash => exact ⟨_, .resetInit vg db hash⟩
  | reset hash => exact ⟨_, .op (vg, db) (.reset hash)⟩

section Run

variable {s₀ : ValidateGroup × Db} {ops : List SpaceOp}

section

variable (hsort : P.Sorts)
include hsort

theorem known_stateAt (h₀ : s₀.1.space.Known) {i : ℕ}
    (hi : i ≤ ops.length) : (stateAt P s₀ ops i).1.space.Known := by
  induction i with
  | zero => exact h₀
  | succ i ih =>
    rw [stateAt_succ s₀ hi]
    obtain ⟨a, hstep⟩ := step_apply (P := P) (stateAt P s₀ ops i) ops[i]
    exact (hstep.move .space).known hsort (ih (Nat.le_of_succ_le hi))

theorem membersAddress_stateAt {i j : ℕ} (hij : i ≤ j) (hj : j ≤ ops.length) :
    (stateAt P s₀ ops i).1.space.membersAddress ⊆ (stateAt P s₀ ops j).1.space.membersAddress := by
  induction j, hij using Nat.le_induction with
  | base => exact List.Subset.refl _
  | succ j _ ih =>
    rw [stateAt_succ s₀ hj]
    exact List.Subset.trans (ih (Nat.le_of_succ_le hj)) (membersAddress_apply hsort _ _)

/-- A run of sparing operations keeps every seen address listed. -/
theorem all_listed_stateAt (h₀ : s₀.1.space.Known)
    (hall : ∀ addr ∈ s₀.1.space.membersAddress, s₀.1.space.Lists addr)
    (hspares : ∀ i (hi : i < ops.length), (stateAt P s₀ ops i).1.space.Spares ops[i]) {j : ℕ}
    (hj : j ≤ ops.length) :
    ∀ addr ∈ (stateAt P s₀ ops j).1.space.membersAddress,
      (stateAt P s₀ ops j).1.space.Lists addr := by
  induction j with
  | zero => exact hall
  | succ j ih =>
    have hle := Nat.le_of_succ_le hj
    rw [stateAt_succ s₀ hj]
    exact (all_listed_apply_iff hsort (known_stateAt hsort h₀ hle) (ih hle) _).mpr (hspares j hj)

end

end Run

/-- **No validator is lost** in a run from any database, exactly when every operation of it spares
the members. -/
theorem nothing_lost_iff (hsort : P.Sorts) (db : Db) (hash : Hash) (ops : List SpaceOp) :
    NothingLost P (newValidateGroup P db hash, db) ops ↔
      ∀ i (hi : i < ops.length),
        (stateAt P (newValidateGroup P db hash, db) ops i).1.space.Spares ops[i] := by
  have h₀ : (newValidateGroup P db hash).space.Known :=
    (tracked_newValidateGroup db hash .space).known
  have hall : ∀ addr ∈ (newValidateGroup P db hash).space.membersAddress,
      (newValidateGroup P db hash).space.Lists addr := fun _ h => h
  constructor
  · intro h i hi
    refine (all_listed_apply_iff hsort (known_stateAt hsort h₀ hi.le) (h i hi.le).2 _).mp ?_
    rw [← stateAt_succ _ hi]
    exact (h (i + 1) hi).2
  · intro h j hj
    have hlisted := all_listed_stateAt hsort h₀ hall h hj
    refine ⟨fun i hij m hm => hlisted _ (membersAddress_stateAt hsort hij hj ?_), hlisted⟩
    refine known_stateAt hsort h₀ (hij.trans hj) _ (lists_iff.mpr (.inr (.inr ?_)))
    exact List.mem_map_of_mem hm

open Gocoin.Sample (prims address member memberHash sorts_prims)

/-- The law applies to genesis. -/
theorem nothing_lost_iff_founded :
    NothingLost prims (newValidateGroup prims Db.empty memberHash, Db.empty)
        [.add member, .resetInit memberHash] ↔
      ∀ i (hi : i < [SpaceOp.add member, .resetInit memberHash].length),
        (stateAt prims (newValidateGroup prims Db.empty memberHash, Db.empty)
            [.add member, .resetInit memberHash] i).1.space.Spares
          [SpaceOp.add member, .resetInit memberHash][i] :=
  nothing_lost_iff sorts_prims Db.empty memberHash _

/-- Genesis, three applications and two resets. -/
def threeApplicants : List SpaceOp :=
  [.add member, .resetInit memberHash, .add ⟨address 2, 2⟩, .add ⟨address 3, 3⟩,
    .add ⟨address 4, 4⟩, .reset memberHash, .reset memberHash]

/-- The second reset loses the member that genesis entered, and it can never apply again. -/
theorem founder_lost :
    ¬ NothingLost prims (newValidateGroup prims Db.empty memberHash, Db.empty) threeApplicants := by
  intro h
  have hnew : member ∈ (stateAt prims (newValidateGroup prims Db.empty memberHash, Db.empty)
      threeApplicants 1).1.space.newgroupmembers := by
    decide +kernel
  have hlost : ¬ (stateAt prims (newValidateGroup prims Db.empty memberHash, Db.empty)
      threeApplicants 7).1.space.Lists member.address := by
    decide +kernel
  exact hlost ((h 7 le_rfl).1 1 (by decide) member hnew)

end Gocoin.ValidateGroup
