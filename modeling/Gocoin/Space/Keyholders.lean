import Gocoin.Space.Overwrite
import Gocoin.Space.Run
import Gocoin.ValidateGroup.Distinct

/-!
# Space/Keyholders — the key group and the voting group

At an epoch block the threshold members are announced for key generation; at the next one they
become the group that votes.  Both draw ten members when there are more, but they draw with
different seeds — from the block number divided by ten, plus one, and without the one — and from
lists in different orders.  The members that hold a key are those that vote when there is nothing to
draw, and when seed and order happen to agree (`key_group_votes`); eleven members are enough to come
apart.
-/

namespace Gocoin

open State ValidateGroup

namespace Space

namespace BlockChain

/-- An epoch block. -/
def IsEpoch (b : Block) : Prop := b.numberU64 % epoch = 0 ∧ b.numberU64 ≠ 0

section

variable (P : Prims)

/-- The steps between two epochs: insertions that execute no epoch block, reports and selections. -/
inductive Quiet : BlockChain → BlockChain → Prop
  | insert {bc bc' : BlockChain} {ord : IterOrder} {b : Block} {evs : List CreatethresholdEvent}
      (hb : ¬ IsEpoch b ∨ bc' = bc) (h : insert P ord bc b = some (bc', evs)) : Quiet bc bc'
  | report (bc : BlockChain) (hash : Hash) (data : Bytes) :
      Quiet bc { bc with db := writeLiquidationHash bc.db hash data }
  | selectConsensus {bc : BlockChain} {vg vg' : ValidateGroup} {number : UInt64}
      {addrs : List Address} (hvg : bc.validateGroup = some vg)
      (h : vg.selectConsensus P number = some (addrs, vg')) :
      Quiet bc { bc with validateGroup := some vg' }
  | selectValidate {bc : BlockChain} {vg vg' : ValidateGroup} {number : UInt64}
      {addrs : List Address} (hvg : bc.validateGroup = some vg)
      (h : vg.selectValidate P number = some (addrs, vg')) :
      Quiet bc { bc with validateGroup := some vg' }
  | selectTxConsensus {bc : BlockChain} {vg vg' : ValidateGroup} {number : UInt64}
      {addrs : List Address} (hvg : bc.validateGroup = some vg)
      (h : vg.selectTxConsensus P number = some (addrs, vg')) :
      Quiet bc { bc with validateGroup := some vg' }

/-- What the consensus group is between two epochs: its threshold members, its members, and a
remembered selection that is drawn from these. -/
def Stands (threshold members : List GroupMember) (bc : BlockChain) : Prop :=
  ∃ vg, bc.validateGroup = some vg ∧ vg.space.thresholdgroupmembers = threshold ∧
    vg.space.groupmembers = members ∧ vg.space.Cached

/-- **When the draws agree**: there is nothing to draw; or the threshold members are in the order of
time, and the blocks after the next epoch have the seed of the announcement. -/
def DrawsAlike (threshold : List GroupMember) (number : UInt64) : Prop :=
  threshold.length ≤ validateLimit ∨ P.sortByTime threshold = threshold ∧ 6 ≤ number.toNat % 10

end

variable {P : Prims} {threshold members : List GroupMember}

/-! ## Between two epochs -/

variable {bc bc' : BlockChain} {ord : IterOrder} {b : Block} {evs : List CreatethresholdEvent}
  {vg : ValidateGroup}

/-- What stands is seen on the group without its applicants. -/
theorem Stands.of_standing (h : Stands threshold members bc)
    (he : bc'.validateGroup.map standing = bc.validateGroup.map standing) :
    Stands threshold members bc' := by
  obtain ⟨vg, hvg, hthreshold, hmembers, hcached⟩ := h
  rw [hvg, Option.map_some, Option.map_eq_some_iff] at he
  obtain ⟨vg', hvg', he⟩ := he
  have ht := congrArg MemberGroup.thresholdgroupmembers he
  have hm := congrArg MemberGroup.groupmembers he
  have hs := congrArg MemberGroup.selected he
  simp only [standing] at ht hm hs
  refine ⟨vg', hvg', ht.trans hthreshold, hm.trans hmembers, ?_⟩
  rwa [MemberGroup.Cached, hs, hm]

/-- A block that becomes the head has been processed. -/
theorem insert_processed (h : insert P ord bc b = some (bc', evs)) :
    bc' = bc ∨ ∃ s env s', process P bc b s = some (env, s', evs) ∧
      bc'.validateGroup = env.validateGroup := by
  obtain h | ⟨-, -, -, h⟩ := insert_cases P h
  · exact .inl h
  · obtain h | ⟨s, env, s', c, db, -, hp, -, -, rfl⟩ := insertHead_cases P h
    · exact .inl h
    · exact .inr ⟨s, env, s', hp, rfl⟩

/-- The groups after the transactions of a block, before the epoch. -/
theorem process_standing {s s' : StateDB} {env : Surroundings}
    (h : process P bc b s = some (env, s', evs)) :
    ∃ env₁, env₁.validateGroup.map standing = bc.validateGroup.map standing ∧
      (¬ IsEpoch b ∧ env = env₁ ∧ evs = [] ∨
        IsEpoch b ∧
          resetGroups P env₁ b.header.consensusGroupHash b.numberU64 = some (env, evs)) := by
  obtain ⟨env₁, acc, happly, -, h⟩ := process_cases P h
  exact ⟨env₁, standing_applyAll P happly, h⟩

section

variable (h : Stands threshold members bc)
include h

/-- A selection draws from the group that stands. -/
theorem Stands.select (hvg : bc.validateGroup = some vg) (number : UInt64) :
    ∃ addrs, vg.selectConsensus P number
        = some (addrs, { vg with space := { vg.space with selected := addrs } }) ∧
      Draws members addrs := by
  obtain ⟨vg', hvg', -, hmembers, hcached⟩ := h
  rw [hvg, Option.some.injEq] at hvg'
  subst hvg'
  obtain ⟨addrs, haddrs, hdraws⟩ := MemberGroup.exists_select P.keccak hcached number
  refine ⟨addrs, ?_, hmembers ▸ hdraws⟩
  rw [selectConsensus, haddrs]
  rfl

/-- **A step between two epochs leaves the group as it stands**. -/
theorem Stands.quiet (hq : Quiet P bc bc') : Stands threshold members bc' := by
  cases hq with
  | insert hb hins =>
    obtain rfl | ⟨s, env, s', hp, hvg⟩ := insert_processed hins
    · exact h
    obtain ⟨env₁, hstanding, ⟨-, rfl, -⟩ | ⟨hepoch, -⟩⟩ := process_standing hp
    · exact h.of_standing (hvg ▸ hstanding)
    · rcases hb with hb | rfl
      · exact absurd hepoch hb
      · exact h
  | report => exact h
  | @selectConsensus vg vg' number addrs hvg hsel =>
    obtain ⟨addrs', hsel', hdraws⟩ := h.select hvg number
    rw [hsel, Option.some.injEq, Prod.mk.injEq] at hsel'
    obtain ⟨-, rfl⟩ := hsel'
    obtain ⟨vg', hvg', ht, hm, -⟩ := h
    rw [hvg, Option.some.injEq] at hvg'
    subst hvg'
    exact ⟨_, rfl, ht, hm, .inr (hm.symm ▸ hdraws)⟩
  | selectValidate hvg hsel =>
    obtain ⟨-, rfl⟩ := selectOf_eq_some (w := .coin) hsel
    refine h.of_standing ?_
    rw [hvg]
    rfl
  | selectTxConsensus hvg hsel =>
    obtain ⟨-, rfl⟩ := selectOf_eq_some (w := .transaction) hsel
    refine h.of_standing ?_
    rw [hvg]
    rfl

theorem Stands.quietRun (hq : Relation.ReflTransGen (Quiet P) bc bc') :
    Stands threshold members bc' := by
  induction hq with
  | refl => exact h
  | tail _ hq ih => exact ih.quiet hq

end

/-! ## An epoch -/

/-- What an epoch does to the consensus group: the threshold members become the group, and the
longer list of threshold members is announced. -/
theorem resetGroups_space {env env' : Surroundings} {hash : Hash} {number : UInt64}
    (h : resetGroups P env hash number = some (env', evs)) (hvg : env.validateGroup = some vg) :
    ∃ vg', env'.validateGroup = some vg' ∧
      vg'.space = (vg.space.reset P.sortByTime env.db thresholdMembersKey groupMembersKey).1 ∧
      ∀ ev ∈ evs, ev.gid = 0 →
        3 ≤ vg'.space.thresholdgroupmembers.length ∧
          vg'.space.selectThresholds P.keccak number = some ev.addrs := by
  have hann : ∀ {gid : ℕ} {g : MemberGroup} {evs : List CreatethresholdEvent},
      announce P gid g number = some evs → ∀ ev ∈ evs, ev.gid = gid ∧
        3 ≤ g.thresholdgroupmembers.length ∧
          g.selectThresholds P.keccak number = some ev.addrs := by
    intro gid g evs h ev hev
    unfold announce at h
    split at h
    · next hthree =>
      simp only [bind_eq_some, Option.some.injEq] at h
      obtain ⟨addrs, haddrs, rfl⟩ := h
      rw [List.mem_singleton.mp hev]
      exact ⟨rfl, hthree, haddrs⟩
    · cases h
      cases hev
  simp only [resetGroups, hvg, bind_eq_some, Option.some.injEq, Prod.mk.injEq] at h
  obtain ⟨ev0, h0, ev1, h1, ev2, h2, rfl, rfl⟩ := h
  refine ⟨_, rfl, rfl, fun ev hev hgid => ?_⟩
  rcases List.mem_append.mp hev with hev | hev
  · rcases List.mem_append.mp hev with hev | hev
    · exact (hann h0 ev hev).2
    · exact absurd ((hann h1 ev hev).1.symm.trans hgid) (by decide)
  · exact absurd ((hann h2 ev hev).1.symm.trans hgid) (by decide)

/-- **An epoch**: what stands after an epoch block, and what has been announced. -/
theorem insert_epoch (h : insert P ord bc b = some (bc', evs))
    (hnew : bc'.currentBlock ≠ bc.currentBlock) (hb : IsEpoch b)
    (hvg : bc.validateGroup = some vg) :
    ∃ vg', bc'.validateGroup = some vg' ∧
      Stands vg'.space.thresholdgroupmembers
        (P.sortByTime (if 3 ≤ vg.space.thresholdgroupmembers.length then
          vg.space.thresholdgroupmembers else vg.space.groupmembers)) bc' ∧
      ∀ ev ∈ evs, ev.gid = 0 →
        3 ≤ vg'.space.thresholdgroupmembers.length ∧
          vg'.space.selectThresholds P.keccak b.numberU64 = some ev.addrs := by
  obtain rfl | ⟨s, env, s', hp, hvg'⟩ := insert_processed h
  · exact absurd rfl hnew
  obtain ⟨env₁, hstanding, ⟨hne, -⟩ | ⟨-, hreset⟩⟩ := process_standing hp
  · exact absurd hb hne
  rw [hvg, Option.map_some, Option.map_eq_some_iff] at hstanding
  obtain ⟨vg₁, hvg₁, hsame⟩ := hstanding
  obtain ⟨vg', hvg₂, hspace, hevs⟩ := resetGroups_space hreset hvg₁
  refine ⟨vg', hvg'.trans hvg₂, ⟨vg', hvg'.trans hvg₂, rfl, ?_, .inl ?_⟩, hevs⟩
  · have ht := congrArg MemberGroup.thresholdgroupmembers hsame
    have hm := congrArg MemberGroup.groupmembers hsame
    simp only [standing] at ht hm
    rw [hspace, MemberGroup.groupmembers_reset, ht, hm]
  · rw [hspace, MemberGroup.selected_reset]

/-- Only a chain with groups announces anything. -/
theorem exists_validateGroup (h : insert P ord bc b = some (bc', evs))
    (hnew : bc'.currentBlock ≠ bc.currentBlock) {ev : CreatethresholdEvent} (hev : ev ∈ evs) :
    ∃ vg, bc.validateGroup = some vg := by
  refine Option.ne_none_iff_exists'.mp fun hnone => ?_
  obtain rfl | ⟨s, env, s', hp, -⟩ := insert_processed h
  · exact hnew rfl
  obtain ⟨env₁, hstanding, ⟨-, -, rfl⟩ | ⟨-, hreset⟩⟩ := process_standing hp
  · cases hev
  · rw [hnone, Option.map_none, Option.map_eq_none_iff] at hstanding
    simp only [resetGroups, hstanding, Option.some.injEq, Prod.mk.injEq] at hreset
    rw [← hreset.2] at hev
    cases hev

/-! ## Two epochs -/

/-- The seed of the blocks after the next epoch. -/
theorem seed_eq {n m : UInt64} (hn : 6 ≤ n.toNat % 10) (h : n.toNat + 3 < m.toNat)
    (h' : m.toNat ≤ n.toNat + 6) :
    m / blockNumberLimet = n / blockNumberLimet + 1 ∧ m / blockNumberLimet ≠ 0 := by
  have hdiv : ∀ x : UInt64, (x / blockNumberLimet).toNat = x.toNat / 10 := fun x =>
    UInt64.toNat_div x blockNumberLimet
  have hone : (n / blockNumberLimet + 1).toNat = n.toNat / 10 + 1 := by
    rw [UInt64.toNat_add, hdiv]
    have := n.toNat_lt
    exact Nat.mod_eq_of_lt (by rw [UInt64.toNat_one]; omega)
  constructor
  · rw [← UInt64.toNat_inj, hdiv, hone]
    omega
  · intro hzero
    have := congrArg UInt64.toNat hzero
    rw [hdiv, UInt64.toNat_zero] at this
    omega

/-- Three blocks behind an epoch block comes the next one. -/
theorem isEpoch_add_three {b' : Block} (h : IsEpoch b)
    (h' : b'.numberU64.toNat = b.numberU64.toNat + 3) : IsEpoch b' := by
  have hmod : ∀ x : UInt64, (x % epoch).toNat = x.toNat % 3 := fun x => UInt64.toNat_mod x epoch
  have hzero := congrArg UInt64.toNat h.1
  rw [hmod, UInt64.toNat_zero] at hzero
  constructor
  · rw [← UInt64.toNat_inj, hmod, UInt64.toNat_zero]
    omega
  · intro hc
    have := congrArg UInt64.toNat hc
    rw [UInt64.toNat_zero] at this
    omega

/-- **The members that hold a key are those that vote**: what an epoch block announces is what
`SelectConsensus` selects for the blocks behind the next epoch block, when the draws agree. -/
theorem key_group_votes (hsort : P.Sorts)
    {bc₁ bc₂ bc₃ bc₄ bc₅ : BlockChain} {b₁ b₂ : Block} {ord₁ ord₂ : IterOrder}
    {evs₁ evs₂ : List CreatethresholdEvent}
    (h₁ : insert P ord₁ bc₁ b₁ = some (bc₂, evs₁)) (hnew₁ : bc₂.currentBlock ≠ bc₁.currentBlock)
    (hb₁ : IsEpoch b₁) {ev : CreatethresholdEvent} (hev : ev ∈ evs₁) (hgid : ev.gid = 0)
    (hq₁ : Relation.ReflTransGen (Quiet P) bc₂ bc₃)
    (h₂ : insert P ord₂ bc₃ b₂ = some (bc₄, evs₂)) (hnew₂ : bc₄.currentBlock ≠ bc₃.currentBlock)
    (hb₂ : b₂.numberU64.toNat = b₁.numberU64.toNat + 3)
    (hq₂ : Relation.ReflTransGen (Quiet P) bc₄ bc₅) (hdraws : ∀ vg, bc₂.validateGroup = some vg →
      DrawsAlike P vg.space.thresholdgroupmembers b₁.numberU64)
    {m : UInt64} (hm : b₁.numberU64.toNat + 3 < m.toNat) (hm' : m.toNat ≤ b₁.numberU64.toNat + 6) :
    ∃ vg addrs vg', bc₅.validateGroup = some vg ∧
      vg.selectConsensus P m = some (addrs, vg') ∧ ∀ addr, addr ∈ addrs ↔ addr ∈ ev.addrs := by
  obtain ⟨vg₁, hvg₁⟩ := exists_validateGroup h₁ hnew₁ hev
  obtain ⟨vg₂, hvg₂, hstands, hann⟩ := insert_epoch h₁ hnew₁ hb₁ hvg₁
  obtain ⟨hthree, hannounced⟩ := hann ev hev hgid
  set T := vg₂.space.thresholdgroupmembers with hT
  obtain ⟨vg₃, hvg₃, hT₃, -⟩ := hstands.quietRun hq₁
  obtain ⟨vg₄, hvg₄, hstands₄, -⟩ := insert_epoch h₂ hnew₂ (isEpoch_add_three hb₁ hb₂) hvg₃
  rw [hT₃, if_pos hthree] at hstands₄
  have hstands₅ := hstands₄.quietRun hq₂
  obtain ⟨vg₅, hvg₅, -, hmembers, -⟩ := id hstands₅
  obtain ⟨addrs, hsel, hdrawn⟩ := hstands₅.select hvg₅ m
  refine ⟨vg₅, addrs, _, hvg₅, hsel, fun addr => ?_⟩
  have hne : T ≠ [] := fun hc => by simp [hc] at hthree
  rcases hdraws vg₂ hvg₂ with hsmall | ⟨hsorted, hseed⟩
  · obtain ⟨addrs', haddrs', hdrawn'⟩ :=
      exists_selectMembers P.keccak hne (b₁.numberU64 / blockNumberLimet + 1)
    obtain rfl : addrs' = ev.addrs := Option.some.inj (haddrs'.symm.trans hannounced)
    have hsmall' : (P.sortByTime T).length ≤ validateLimit := (hsort T).length_eq.trans_le hsmall
    rw [(hdrawn.perm hsmall').mem_iff, (hdrawn'.perm hsmall).mem_iff,
      ((hsort T).map GroupMember.address).mem_iff]
  · obtain ⟨heq, hzero⟩ := seed_eq hseed hm hm'
    replace hmembers : vg₅.space.groupmembers = T := hmembers.trans hsorted
    have hdraw : vg₅.space.select P.keccak m
        = some (ev.addrs, { vg₅.space with selected := ev.addrs }) := by
      rw [MemberGroup.selectThresholds, ← hT, ← heq, ← hmembers] at hannounced
      unfold MemberGroup.select
      simp only
      rw [if_neg fun hc => hzero hc.1, if_neg (hmembers ▸ hne), hannounced]
      rfl
    rw [selectConsensus, hdraw] at hsel
    obtain ⟨rfl, -⟩ := Prod.mk.inj (Option.some.inj hsel)
    rfl

end BlockChain

end Space

namespace Sample

open Space

/-- Children of the head without transactions, inserted one after the other. -/
def extend (bc : BlockChain) : ℕ → Option BlockChain
  | 0 => some bc
  | n + 1 => do
    let (bc, _) ← BlockChain.insert prims .plain bc (child bc.currentBlock 1 [])
    extend bc n

/-- The first six blocks; so many members apply in the third.  The third and the sixth insertion. -/
def twoEpochs (n : ℕ) : Option
    ((BlockChain × List CreatethresholdEvent) × BlockChain × List CreatethresholdEvent) := do
  let bc ← chain
  let bc ← extend bc 2
  let applications := (List.range n).map fun i => application (UInt8.ofNat (i + 1))
  let third ← BlockChain.insert prims .plain bc (child bc.currentBlock 1 applications)
  let bc ← extend third.1 2
  let sixth ← BlockChain.insert prims .plain bc (child bc.currentBlock 1 [])
  some (third, sixth)

end Sample

namespace Space

namespace BlockChain

open Sample (prims chain epochBlock nextEpochBlock twoEpochs sorts_prims)

/-- The law applies to three members. -/
theorem key_group_votes_three :
    ∃ bc ∈ chain, ∃ r₁ ∈ insert prims .plain bc (epochBlock bc.currentBlock),
    ∃ r₂ ∈ insert prims .plain r₁.1 (nextEpochBlock r₁.1.currentBlock),
    ∃ ev ∈ r₁.2, ∃ vg addrs vg', r₂.1.validateGroup = some vg ∧
      vg.selectConsensus prims 7 = some (addrs, vg') ∧ ∀ addr, addr ∈ addrs ↔ addr ∈ ev.addrs := by
  have hrun : ∃ bc ∈ chain, ∃ r₁ ∈ insert prims .plain bc (epochBlock bc.currentBlock),
      ∃ r₂ ∈ insert prims .plain r₁.1 (nextEpochBlock r₁.1.currentBlock),
      r₁.1.currentBlock.numberU64 ≠ bc.currentBlock.numberU64 ∧
      r₂.1.currentBlock.numberU64 ≠ r₁.1.currentBlock.numberU64 ∧
      (∀ vg ∈ r₁.1.validateGroup, vg.space.thresholdgroupmembers.length ≤ validateLimit) ∧
      ∃ ev ∈ r₁.2, ev.gid = 0 := by
    decide +kernel
  obtain ⟨bc, hbc, r₁, hr₁, r₂, hr₂, hne₁, hne₂, hsmall, ev, hev, hgid⟩ := hrun
  have hthree : (epochBlock bc.currentBlock).numberU64 = 3 := rfl
  have hsix : (nextEpochBlock r₁.1.currentBlock).numberU64 = 6 := rfl
  have hepoch : IsEpoch (epochBlock bc.currentBlock) := by
    rw [IsEpoch, hthree]
    decide
  exact ⟨bc, hbc, r₁, hr₁, r₂, hr₂, ev, hev,
    key_group_votes sorts_prims hr₁ (fun h => hne₁ (congrArg Block.numberU64 h)) hepoch hev hgid
      .refl hr₂ (fun h => hne₂ (congrArg Block.numberU64 h)) (by rw [hthree, hsix]; decide) .refl
      (fun vg hvg => .inl (hsmall vg hvg)) (by rw [hthree]; decide) (by rw [hthree]; decide)⟩

/-- Eleven members apply in the third block; the ten that hold a key are not the ten that vote for
the seventh. -/
theorem key_group_differs :
    ∃ r ∈ twoEpochs 11, r.1.1.currentBlock.numberU64 = 3 ∧ r.2.1.currentBlock.numberU64 = 6 ∧
      ∃ ev ∈ r.1.2, ev.gid = 0 ∧ ∃ vg ∈ r.2.1.validateGroup,
        ∃ sel ∈ vg.selectConsensus prims 7, ∃ addr ∈ ev.addrs, addr ∉ sel.1 := by
  decide +kernel

end BlockChain

end Space

end Gocoin
