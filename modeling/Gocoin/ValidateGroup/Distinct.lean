import Gocoin.Common.Sample
import Gocoin.ValidateGroup.Tracking

/-!
# ValidateGroup/Distinct — nobody is selected twice

The threshold members and the new members of a group are different addresses in every run, restarts
from any hash included, because an application is compared with all of them.  The group itself is a
copy of the threshold members, with one exception: the reset at genesis appends the new members to
the group that is there, and after a restart from another hash the two may overlap.  Where they do
not (`Careful`), every selection consists of different addresses (`selections_apart`).
-/

namespace Gocoin

namespace ValidateGroup

/-! ## The law -/

/-- A selection yields different members of the list, all of them up to ten and ten of more. -/
def SelectsApart (ms : List GroupMember)
    (select : UInt64 → Option (List Address × ValidateGroup)) : Prop :=
  ∀ number, ∃ addrs vg', select number = some (addrs, vg') ∧ addrs.Nodup ∧
    addrs ⊆ ms.map GroupMember.address ∧ addrs.length = min ms.length 10

/-- **The law**: the threshold and the new members of each group are different addresses, and so is
what each group selects for any block number. -/
structure Apart (P : Prims) (vg : ValidateGroup) : Prop where
  lists : ∀ w, (vg.group w).Unrepeated
  consensus : SelectsApart vg.space.groupmembers (vg.selectConsensus P)
  validate : SelectsApart vg.coin.groupmembers (vg.selectValidate P)
  txConsensus : SelectsApart vg.transaction.groupmembers (vg.selectTxConsensus P)

/-- **What has to be avoided**: the reset at genesis while a new member is in the group. -/
def Careful (s : ValidateGroup × Db) : Act → Prop
  | .resetInit _ =>
    ∀ m ∈ s.1.space.newgroupmembers, m.address ∉ s.1.space.groupmembers.map GroupMember.address
  | _ => True

/-! ## The invariant -/

/-- A group whose lists have no address twice, in memory or in the database. -/
structure Distinct (w : Which) (g : MemberGroup) (db : Db) : Prop extends Tracked w g db where
  lists : g.Unrepeated
  members : (g.groupmembers.map GroupMember.address).Nodup
  shelves : ∀ k, w.isMembersKey k = true → ((getMembers db k).map GroupMember.address).Nodup
  cached : g.Cached

variable {P : Prims} {w : Which} {a : Act} {db db' : Db} {g : MemberGroup}

/-- What is written under a group's own keys has no address twice. -/
theorem Shelves.nodup {ms : List GroupMember} (h : Shelves w ms db db') (hfits : Fits ms)
    (hms : (ms.map GroupMember.address).Nodup)
    (hdb : ∀ k, w.isMembersKey k = true → ((getMembers db k).map GroupMember.address).Nodup) :
    ∀ k, w.isMembersKey k = true → ((getMembers db' k).map GroupMember.address).Nodup := by
  intro k hk
  rcases h k hk with he | he
  · rw [getMembers_congr he]
    exact hdb k hk
  · rw [getMembers_congr he, getMembers_writeMembers hfits]
    split
    · exact hms
    · exact hdb k hk

/-- **A careful move keeps the lists distinct.** -/
theorem Move.distinct (hsort : P.Sorts) {g' : MemberGroup}
    (h : Move P w a (g, db) (g', db')) (hg : Distinct w g db)
    (hc : ∀ hash, a = .resetInit hash → w = .space →
      ∀ m ∈ g.newgroupmembers, m.address ∉ g.groupmembers.map GroupMember.address)
    (hmembers : Fits g'.groupmembers) (hnew : Fits g'.newgroupmembers)
    (hthreshold : Fits g'.thresholdgroupmembers) : Distinct w g' db' := by
  have ht := h.tracked hsort hg.toTracked hnew hthreshold
  have hlists := h.unrepeated hg.known hg.lists fun _ _ =>
    hg.lists.sublist (hg.stored_sublist.map GroupMember.address)
  have hboth := hg.lists
  rw [MemberGroup.Unrepeated, List.map_append, List.nodup_append] at hboth
  cases h with
  | rest hsel hdb =>
    refine ⟨ht, hlists, hg.members, fun k hk => ?_, ?_⟩
    · rw [getMembers_congr (hdb k (.inr hk))]
      exact hg.shelves k hk
    · rcases hsel with rfl | rfl | ⟨number, g₁, hsel⟩
      · exact hg.cached
      · exact .inl rfl
      · obtain ⟨addrs, he, hdraws⟩ := MemberGroup.exists_select P.keccak hg.cached number
        rw [he, Option.some.injEq, Prod.mk.injEq] at hsel
        rw [← hsel.1]
        exact .inr hdraws
  | add _ _ m =>
    refine ⟨ht, hlists, hg.members, fun k hk => ?_, hg.cached⟩
    have hoff := addMember_sameOff w.newKey (Set.mem_singleton _) db g.newgroupmembers
      g.membersAddress m
    have hne : k ∉ ({w.newKey} : Set Bytes) := by
      rintro rfl
      rw [w.isMembersKey_newKey] at hk
      cases hk
    rw [show getMembers (g.add db w.newKey m).2 k = getMembers db k from
      getMembers_congr (hoff k hne)]
    exact hg.shelves k hk
  | reset hr =>
    have hnodup : ((g.reset P.sortByTime db w.thresholdKey w.newKey).1.groupmembers.map
        GroupMember.address).Nodup := by
      rw [MemberGroup.groupmembers_reset, ((hsort _).map _).nodup_iff]
      split
      · exact hboth.1
      · exact hg.members
    exact ⟨ht, hlists, hnodup, hr.members.nodup hmembers hnodup hg.shelves,
      .inl (MemberGroup.selected_reset ..)⟩
  | init hw ha _ _ hshelves =>
    have hdisj := hc _ ha hw
    have hnodup : ((P.sortByTime (g.groupmembers ++ g.newgroupmembers)).map
        GroupMember.address).Nodup := by
      rw [((hsort _).map _).nodup_iff, List.map_append, List.nodup_append]
      refine ⟨hg.members, hboth.2.1, ?_⟩
      rintro x hx y hy rfl
      obtain ⟨m, hm, rfl⟩ := List.mem_map.mp hy
      exact hdisj m hm hx
    exact ⟨ht, hlists, hnodup, hshelves.nodup hmembers hnodup hg.shelves, .inl rfl⟩
  | restart _ _ hk hm =>
    refine ⟨ht, hlists, ?_, hg.shelves, .inl rfl⟩
    rcases hm with rfl | rfl
    · exact hg.shelves _ hk
    · exact ((hsort _).map _).nodup_iff.mpr (hg.shelves _ hk)

/-! ## Every run -/

theorem getMembers_empty (k : Bytes) : getMembers Db.empty k = [] := rfl

theorem distinct_start (hsort : P.Sorts) (hash : Hash) (w : Which) :
    Distinct w ((newValidateGroup P Db.empty hash).group w) Db.empty := by
  have hnil : P.sortByTime [] = [] := (hsort []).eq_nil
  have hgroup : ((newValidateGroup P Db.empty hash).group w).groupmembers = [] := by
    cases w
    · simp only [group, newValidateGroup, newMemberGroup, getMembers_empty, hnil]
    · rfl
    · rfl
  refine ⟨tracked_newValidateGroup _ hash w, ?_, ?_, fun k _ => ?_, .inl ?_⟩
  · cases w <;> exact List.nodup_nil
  · rw [hgroup]
    exact List.nodup_nil
  · exact List.nodup_nil
  · cases w <;> rfl

theorem Reach.distinct (hsort : P.Sorts) {hash : Hash} {s : ValidateGroup × Db}
    (h : Reach P Careful (newValidateGroup P Db.empty hash, Db.empty) s) (w : Which) :
    Distinct w (s.1.group w) s.2 := by
  induction h with
  | refl => exact distinct_start hsort hash w
  | step _ hc hs hfit ih =>
    obtain ⟨hmembers, hnew, hthreshold⟩ := hfit.group w
    refine (hs.move w).distinct hsort ih ?_ hmembers hnew hthreshold
    rintro hash' rfl rfl
    exact hc

/-- A group with distinct members selects apart. -/
theorem Distinct.exists_select (h : Distinct w g db) (number : UInt64) :
    ∃ addrs, g.select P.keccak number = some (addrs, { g with selected := addrs }) ∧ addrs.Nodup ∧
      addrs ⊆ g.groupmembers.map GroupMember.address ∧
      addrs.length = min g.groupmembers.length 10 := by
  obtain ⟨addrs, he, hdraws⟩ := MemberGroup.exists_select P.keccak h.cached number
  exact ⟨addrs, he, hdraws.nodup h.members, hdraws.subperm.subset, hdraws.length_eq⟩

/-- **Selections are duplicate free and complete** in every careful run from an empty database,
whatever order the sort leaves members of equal time in. -/
theorem selections_apart (hsort : P.Sorts) {hash : Hash} {s : ValidateGroup × Db}
    (h : Reach P Careful (newValidateGroup P Db.empty hash, Db.empty) s) : Apart P s.1 := by
  have hd := h.distinct hsort
  obtain ⟨vg, db⟩ := s
  refine ⟨fun w => (hd w).lists, fun number => ?_, fun number => ?_, fun number => ?_⟩
  · obtain ⟨addrs, he, hrest⟩ := (hd .space).exists_select (P := P) number
    refine ⟨addrs, { vg with space := { vg.space with selected := addrs } }, ?_, hrest⟩
    rw [selectConsensus, show vg.space.select P.keccak number = _ from he]
    rfl
  · obtain ⟨addrs, he, hrest⟩ := (hd .coin).exists_select (P := P) number
    refine ⟨addrs, { vg with coin := { vg.coin with selected := addrs } }, ?_, hrest⟩
    rw [selectValidate, show vg.coin.select P.keccak number = _ from he]
    rfl
  · obtain ⟨addrs, he, hrest⟩ := (hd .transaction).exists_select (P := P) number
    refine ⟨addrs, { vg with transaction := { vg.transaction with selected := addrs } }, ?_, hrest⟩
    rw [selectTxConsensus, show vg.transaction.select P.keccak number = _ from he]
    rfl

end ValidateGroup

/-! ## Runs -/

namespace Sample

open ValidateGroup

theorem sorts_prims : prims.Sorts := List.perm_insertionSort _

/-- A member. -/
def member : GroupMember := ⟨address 1, 1⟩

/-- The hash under which the reset at genesis writes the group of this member. -/
def memberHash : Hash := rlpHash prims.keccak (some (.str member.address.bytes))

/-- The groups on an empty database. -/
def noMembers : ValidateGroup × Db := (newValidateGroup prims Db.empty (.zero 32), Db.empty)

/-- The member applies, and the reset at genesis makes it the group. -/
def founded : ValidateGroup × Db :=
  let s := (Op.add member).apply prims noMembers
  s.1.resetInit prims s.2 memberHash

/-- The groups are read back from another hash, the member applies again, and the groups are read
back from the hash of the first group. -/
def forgotten : ValidateGroup × Db :=
  let db := founded.2
  let s := (Op.add member).apply prims (newValidateGroup prims db (.zero 32), db)
  (newValidateGroup prims s.2 memberHash, s.2)

/-- The reset at genesis appends the member to the group it is in. -/
def doubled : ValidateGroup × Db := forgotten.1.resetInit prims forgotten.2 memberHash

theorem reach_founded {C : ValidateGroup × Db → Act → Prop} (hadd : C noMembers (.op (.add member)))
    (hinit : C ((Op.add member).apply prims noMembers) (.resetInit memberHash)) :
    Reach prims C noMembers founded :=
  (Reach.refl.step hadd (.op noMembers (.add member)) (by decide +kernel)).step hinit
    (.resetInit _ _ memberHash) (by decide +kernel)

/-- Operations one after the other. -/
theorem reach_runOps {C : ValidateGroup × Db → Act → Prop} {s₀ s : ValidateGroup × Db}
    (h : Reach prims C s₀ s) (ops : List Op) (hC : ∀ s o, C s (.op o))
    (hfit : ∀ ops' ∈ ops.inits, AllFit (runOps prims ops' s).1) :
    Reach prims C s₀ (runOps prims ops s) := by
  induction ops generalizing s with
  | nil => exact h
  | cons o ops ih =>
    have hinits : ∀ ops' ∈ ops.inits, o :: ops' ∈ (o :: ops).inits := fun ops' h' => by simp [h']
    exact ih (h.step (hC s o) (.op s o) (hfit _ (hinits [] (by simp))))
      fun ops' h' => hfit _ (hinits ops' h')

/-- Eleven members apply… -/
def elevenApply : List Op := (List.range 11).map fun i => .add ⟨address (UInt8.ofNat (i + 1)), i⟩

/-- …and the reset at genesis makes them the group. -/
def eleven : ValidateGroup × Db :=
  let s := runOps prims elevenApply noMembers
  s.1.resetInit prims s.2 (.zero 32)

theorem reach_doubled : Reach prims (fun _ _ => True) noMembers doubled := by
  have hread := (reach_founded (C := fun _ _ => True) trivial trivial).step trivial
    (.restart founded.1 founded.2 (.zero 32)) (by decide +kernel)
  have hadd := hread.step trivial (.op _ (.add member)) (by decide +kernel)
  have hforgotten : Reach prims (fun _ _ => True) noMembers forgotten :=
    hadd.step trivial (.restart _ _ memberHash) (by decide +kernel)
  exact hforgotten.step trivial (.resetInit forgotten.1 forgotten.2 memberHash) (by decide +kernel)

end Sample

namespace ValidateGroup

open Gocoin.Sample (prims noMembers doubled eleven elevenApply sorts_prims reach_runOps
  reach_doubled)

/-- The law applies to a group of eleven members, of which ten different ones are selected. -/
theorem selections_apart_eleven :
    Apart prims eleven.1 ∧ eleven.1.space.groupmembers.length = 11 := by
  have happly : Reach prims Careful noMembers (runOps prims elevenApply noMembers) :=
    reach_runOps .refl elevenApply (fun _ _ => trivial) (by decide +kernel)
  have hcareful : ∀ m ∈ (runOps prims elevenApply noMembers).1.space.newgroupmembers, m.address ∉
      (runOps prims elevenApply noMembers).1.space.groupmembers.map GroupMember.address := by
    decide +kernel
  have hreset : Reach prims Careful noMembers eleven :=
    happly.step (a := .resetInit (.zero 32)) hcareful (.resetInit _ _ _)
      (by decide +kernel)
  exact ⟨selections_apart sorts_prims hreset, by decide +kernel⟩

/-- A member that is forgotten by a restart, applies again and is remembered by another restart is
twice in the group after the reset at genesis, and is selected twice. -/
theorem member_selected_twice :
    Reach prims (fun _ _ => True) noMembers doubled ∧ ¬ Apart prims doubled.1 := by
  refine ⟨reach_doubled, fun h => ?_⟩
  obtain ⟨addrs, vg', he, hnodup, -⟩ := h.consensus 0
  have htwice : ∃ r ∈ doubled.1.selectConsensus prims 0, ¬ r.1.Nodup := by
    decide +kernel
  obtain ⟨r, hr, hdup⟩ := htwice
  rw [he, Option.mem_some_iff] at hr
  rw [← hr] at hdup
  exact hdup hnodup

end ValidateGroup

end Gocoin
