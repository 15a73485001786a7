import Gocoin.ValidateGroup.Distinct

/-!
# ValidateGroup/Epochs — the selection of an epoch

Block numbers are counted in epochs of ten.  The groups have a field for the epoch of the selection
they remember, but nothing assigns it: it stays zero.  So every epoch but the first selects anew,
and in the first one a group answers with whatever it selected last — for any epoch.

For every history of the groups the answer is the selection of one epoch, which the history tells
(`History.select_eq`): the epoch asked for, except that epoch zero is answered with the last epoch
selected since the members last changed (`select_by_epoch`).
-/

namespace Gocoin.ValidateGroup

open Sample (prims noMembers)

/-- What a selection is meant to be: all members in order if they are fewer than ten, and ten drawn
at random for the epoch otherwise. -/
def epochMembers (keccak : HashFn) (ms : List GroupMember) (epochNumber : UInt64) :
    Option (List Address) :=
  if ms.length < validateLimit then some (ms.map GroupMember.address)
  else selectMembers keccak ms epochNumber

section

variable (P : Prims)

/-! ## Histories -/

/-- What has happened to the groups, the last act first. -/
inductive History (s₀ : ValidateGroup × Db) : List Act → ValidateGroup × Db → Prop
  | start : History s₀ [] s₀
  | act {acts : List Act} {s s' : ValidateGroup × Db} {a : Act} (h : History s₀ acts s)
      (hs : Step P s a s') : History s₀ (a :: acts) s'

end

/-- The acts that make a group forget its selection. -/
def Act.clears : Act → Which → Bool
  | .op (.reset _), .space => true
  | .op .resetCoinGroup, .coin => true
  | .op .resetTxGroup, .transaction => true
  | .resetInit _, .space => true
  | .restart _, _ => true
  | _, _ => false

/-- The block number an act selects for, in a group. -/
def Act.selects : Act → Which → Option UInt64
  | .selectConsensus number, .space => some number
  | .selectValidate number, .coin => some number
  | .selectTxConsensus number, .transaction => some number
  | _, _ => none

/-- The epoch that is answered when one is asked for and another is remembered. -/
def answered (last : Option UInt64) (number : UInt64) : UInt64 :=
  if number / blockNumberLimet = 0 then last.getD 0 else number / blockNumberLimet

/-- The epoch of the selection that a group remembers. -/
def lastEpoch (w : Which) : List Act → Option UInt64
  | [] => none
  | a :: acts =>
    if a.clears w then none
    else match a.selects w with
      | none => lastEpoch w acts
      | some number => some (answered (lastEpoch w acts) number)

/-! ## What is remembered -/

/-- The remembered selection is that of the epoch, or there is none. -/
def MemberGroup.Remembers (keccak : HashFn) (g : MemberGroup) : Option UInt64 → Prop
  | none => g.selected = []
  | some e => epochMembers keccak g.groupmembers e = some g.selected

variable {keccak : HashFn} {ms : List GroupMember} {addrs : List Address}
  {last : Option UInt64} {number : UInt64} {s : ValidateGroup × Db} {acts : List Act}

theorem epochMembers_of_lt (h : ms.length < validateLimit) (e : UInt64) :
    epochMembers keccak ms e = some (ms.map GroupMember.address) := if_pos h

theorem epochMembers_eq (h : ms ≠ []) (e : UInt64) :
    epochMembers keccak ms e = selectMembers keccak ms e := by
  unfold epochMembers
  split
  · next hlt => rw [selectMembers, if_pos ⟨List.length_pos_iff.mpr h, hlt⟩]
  · rfl

/-- There is something to remember, unless there are no members. -/
theorem ne_nil_of_epochMembers (h : ms ≠ []) {e : UInt64}
    (he : epochMembers keccak ms e = some addrs) : addrs ≠ [] := by
  obtain ⟨addrs', haddrs, hdraws⟩ := exists_selectMembers keccak h e
  rw [epochMembers_eq h, haddrs] at he
  obtain rfl := Option.some.inj he
  refine List.ne_nil_of_length_pos ?_
  rw [hdraws.length_eq]
  exact lt_min (List.length_pos_iff.mpr h) (by decide)

/-- **One selection**: it answers with an epoch's selection, and remembers it. -/
theorem MemberGroup.Remembers.select {g : MemberGroup} (h : g.Remembers keccak last)
    (number : UInt64) :
    ∃ addrs, g.select keccak number = some (addrs, { g with selected := addrs }) ∧
      epochMembers keccak g.groupmembers (answered last number) = some addrs := by
  unfold MemberGroup.select answered
  by_cases hg : g.groupmembers = []
  · have hnone : ∀ e, epochMembers keccak g.groupmembers e = some [] := by
      intro e
      rw [hg]
      rfl
    have hsel : g.selected = [] := by
      cases last with
      | none => exact h
      | some e => exact (Option.some.inj ((hnone e).symm.trans h)).symm
    refine ⟨[], ?_, hnone _⟩
    rw [if_neg fun hand => hand.2 hsel, if_pos hg]
  · simp only [if_neg hg]
    have hmake : ∀ e, ∃ addrs, (do
        let addrs ← selectMembers keccak g.groupmembers e
        some (addrs, { g with selected := addrs })) = some (addrs, { g with selected := addrs }) ∧
        epochMembers keccak g.groupmembers e = some addrs := by
      intro e
      obtain ⟨addrs, haddrs, -⟩ := exists_selectMembers keccak hg e
      refine ⟨addrs, by rw [haddrs]; rfl, (epochMembers_eq hg e).trans haddrs⟩
    by_cases h0 : number / blockNumberLimet = 0
    · rw [if_pos h0]
      cases last with
      | none =>
        rw [if_neg fun hand => hand.2 h, h0]
        exact hmake 0
      | some e =>
        rw [if_pos ⟨h0, ne_nil_of_epochMembers hg h⟩]
        exact ⟨_, rfl, h⟩
    · rw [if_neg h0, if_neg fun hand => h0 hand.1]
      exact hmake _

variable {P : Prims} {vg : ValidateGroup} {db₀ : Db} {hash : Hash}

theorem selectOf_eq {w : Which} (h : (vg.group w).select P.keccak number
      = some (addrs, { vg.group w with selected := addrs })) :
    ∃ vg', vg.selectOf P number w = some (addrs, vg') := by
  cases w with
  | space | coin | transaction => exact ⟨_, congrArg (· >>= _) h⟩

/-- An operation leaves the members and the selection of a group alone, or makes the group forget.
-/
theorem remembers_apply (o : Op) (s : ValidateGroup × Db) (w : Which)
    (h : (s.1.group w).Remembers P.keccak last) :
    ((o.apply P s).1.group w).Remembers P.keccak
      (if (Act.op o).clears w then none else last) := by
  have hsame : ∀ {g g' : MemberGroup}, g'.groupmembers = g.groupmembers → g'.selected = g.selected →
      g.Remembers P.keccak last → g'.Remembers P.keccak last := by
    intro g g' hm hs hg
    cases last with
    | none => exact hs.trans hg
    | some e =>
      exact (congrArg (epochMembers P.keccak · e) hm).trans (hg.trans (congrArg some hs.symm))
  cases o with
  | reset hash =>
    cases w with
    | space => exact MemberGroup.selected_reset ..
    | coin => exact h
    | transaction => exact h
  | resetCoinGroup =>
    cases w with
    | space => exact h
    | coin => exact MemberGroup.selected_reset ..
    | transaction => exact h
  | resetTxGroup =>
    cases w with
    | space => exact h
    | coin => exact h
    | transaction => exact MemberGroup.selected_reset ..
  | add m | addStell m | addCoin m | addTransaction m => cases w <;> exact hsame rfl rfl h

/-- A selection remembers the epoch it answers with. -/
theorem remembers_selectOf {vg' : ValidateGroup} (w w' : Which)
    (h : vg.selectOf P number w' = some (addrs, vg'))
    (hlast : (vg.group w).Remembers P.keccak last) :
    (vg'.group w).Remembers P.keccak (if w' = w then some (answered last number) else last) := by
  obtain ⟨⟨g, hg⟩, rfl⟩ := selectOf_eq_some h
  rw [group_withSelected]
  split
  · next heq =>
    subst heq
    obtain ⟨addrs', hsel, he⟩ := hlast.select number
    obtain ⟨rfl, -⟩ := Prod.mk.inj (Option.some.inj (hg.symm.trans hsel))
    exact he
  · exact hlast

/-- **What a step remembers.** -/
theorem Step.remembers {s' : ValidateGroup × Db} {a : Act} (hs : Step P s a s') (w : Which)
    (h : (s.1.group w).Remembers P.keccak (lastEpoch w acts)) :
    (s'.1.group w).Remembers P.keccak (lastEpoch w (a :: acts)) := by
  cases hs with
  | op s o => exact remembers_apply o s w h
  | resetInit vg db hash =>
    cases w with
    | space =>
      show ((vg.resetInit P db hash).1.space).selected = []
      unfold ValidateGroup.resetInit
      split <;> rfl
    | coin =>
      show ((vg.resetInit P db hash).1.group .coin).Remembers P.keccak _
      rw [group_resetInit (by decide)]
      exact h
    | transaction =>
      show ((vg.resetInit P db hash).1.group .transaction).Remembers P.keccak _
      rw [group_resetInit (by decide)]
      exact h
  | restart vg db hash => cases w <;> rfl
  | selectConsensus db hsel =>
    have := remembers_selectOf w .space hsel h
    cases w <;> exact this
  | selectValidate db hsel =>
    have := remembers_selectOf w .coin hsel h
    cases w <;> exact this
  | selectTxConsensus db hsel =>
    have := remembers_selectOf w .transaction hsel h
    cases w <;> exact this

/-- **What is remembered after a history.** -/
theorem History.remembers (h : History P (newValidateGroup P db₀ hash, db₀) acts s) (w : Which) :
    (s.1.group w).Remembers P.keccak (lastEpoch w acts) := by
  induction h with
  | start => cases w <;> rfl
  | act _ hs ih => exact hs.remembers w ih

/-- **After every history a selection answers with one epoch's selection.** -/
theorem History.select_eq (h : History P (newValidateGroup P db₀ hash, db₀) acts s) (w : Which)
    (number : UInt64) :
    ∃ addrs vg', s.1.selectOf P number w = some (addrs, vg') ∧
      epochMembers P.keccak (s.1.group w).groupmembers (answered (lastEpoch w acts) number)
        = some addrs := by
  obtain ⟨addrs, hsel, he⟩ := (h.remembers w).select number
  obtain ⟨vg', hvg'⟩ := selectOf_eq hsel
  exact ⟨addrs, vg', hvg', he⟩

theorem div_ne_zero_of_le (h : blockNumberLimet ≤ number) : number / blockNumberLimet ≠ 0 := by
  intro h0
  have hle : 10 ≤ number.toNat := UInt64.le_iff_toNat_le.mp h
  have hnat := congrArg UInt64.toNat h0
  rw [UInt64.toNat_div] at hnat
  change number.toNat / 10 = 0 at hnat
  omega

/-- **When a selection is a function of the group and the epoch**: from block ten on; before it, as
long as no other epoch has been selected since the group last changed; and always in a group of
fewer than ten.  In general the answer is the selection of the epoch that the history tells. -/
theorem select_by_epoch {db₀ : Db} {hash : Hash} {acts : List Act} {s : ValidateGroup × Db}
    (h : History P (newValidateGroup P db₀ hash, db₀) acts s) (w : Which) (number : UInt64) :
    ((s.1.selectOf P number w).map Prod.fst = epochMembers P.keccak (s.1.group w).groupmembers
        (if number / blockNumberLimet = 0 then (lastEpoch w acts).getD 0
          else number / blockNumberLimet)) ∧
      (blockNumberLimet ≤ number ∨ (lastEpoch w acts).getD 0 = 0 ∨
          (s.1.group w).groupmembers.length < validateLimit →
        (s.1.selectOf P number w).map Prod.fst
          = epochMembers P.keccak (s.1.group w).groupmembers (number / blockNumberLimet)) := by
  obtain ⟨addrs, vg', hsel, he⟩ := h.select_eq w number
  rw [hsel, Option.map_some, ← he]
  refine ⟨rfl, ?_⟩
  rintro (hlate | hzero | hfew)
  · rw [answered, if_neg (div_ne_zero_of_le hlate)]
  · rw [answered]
    split
    · next h0 => rw [hzero, h0]
    · rfl
  · rw [epochMembers_of_lt hfew, epochMembers_of_lt hfew]

/-! ## Eleven members -/

/-- Operations one after the other are a history. -/
theorem History.runOps {s₀ : ValidateGroup × Db} (h : History P s₀ acts s) (ops : List Op) :
    History P s₀ ((ops.map Act.op).reverse ++ acts) (runOps P ops s) := by
  induction ops generalizing acts s with
  | nil => exact h
  | cons o ops ih =>
    rw [List.map_cons, List.reverse_cons, List.append_assoc]
    exact ih (h.act (.op s o))

open Sample (eleven elevenApply)

/-- What has happened to eleven members that apply and are made the group. -/
def elevenActs : List Act := .resetInit (.zero 32) :: (elevenApply.map Act.op).reverse

theorem history_eleven : History prims noMembers elevenActs eleven := by
  have hstart : History prims noMembers [] noMembers := .start
  have happly := hstart.runOps elevenApply
  rw [List.append_nil] at happly
  exact happly.act (.resetInit _ _ (.zero 32))

/-- The law applies to them. -/
theorem select_by_epoch_eleven :
    (eleven.1.selectOf prims 0 .space).map Prod.fst
      = epochMembers prims.keccak (eleven.1.group .space).groupmembers 0 :=
  (select_by_epoch history_eleven .space 0).2 (.inr (.inl (by decide +kernel)))

/-- Epoch one is selected, and then epoch zero: the answer is that of epoch one. -/
theorem epoch_one_answers_zero :
    ∃ acts s, History prims noMembers acts s ∧
      (s.1.selectOf prims 0 .space).map Prod.fst
        ≠ epochMembers prims.keccak (s.1.group .space).groupmembers 0 := by
  obtain ⟨addrs, vg', hsel, -⟩ := history_eleven.select_eq .space 10
  have hist := history_eleven.act (.selectConsensus eleven.2 hsel)
  obtain ⟨addrs', vg'', hsel', he⟩ := hist.select_eq .space 0
  have hepoch : answered (lastEpoch .space (.selectConsensus 10 :: elevenActs)) 0 = 1 := by
    decide +kernel
  have hmembers : (vg'.group .space).groupmembers = (eleven.1.group .space).groupmembers := by
    rw [(selectOf_eq_some hsel).2]
    rfl
  have hapart : epochMembers prims.keccak (eleven.1.group .space).groupmembers 1
      ≠ epochMembers prims.keccak (eleven.1.group .space).groupmembers 0 := by
    decide +kernel
  refine ⟨_, _, hist, ?_⟩
  rw [hsel', Option.map_some, ← he, hepoch, hmembers]
  exact hapart

end Gocoin.ValidateGroup
