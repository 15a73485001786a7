import Gocoin.ValidateGroup.Moves

/-!
# ValidateGroup/Tracking — what the groups and the database know

Three things hold in every run.  Who is listed in a group has been seen (`Known`).  The threshold
and the new members are different addresses.  And the database follows the memory (`Tracked`): the
new members are stored, or nothing is when they have no encoding, and the stored threshold members
are the first of those in memory — all of them, when they can be encoded.
-/

namespace Gocoin.ValidateGroup

variable {P : Prims} {w : Which} {a : Act}

/-! ## In memory -/

/-- The address is that of a current or pending member. -/
def MemberGroup.Lists (g : MemberGroup) (addr : Address) : Prop :=
  addr ∈ (g.groupmembers ++ g.thresholdgroupmembers ++ g.newgroupmembers).map GroupMember.address

instance (g : MemberGroup) (addr : Address) : Decidable (g.Lists addr) :=
  inferInstanceAs (Decidable (_ ∈ _))

variable {g g' : MemberGroup} {db db' : Db} {allowed : ValidateGroup × Db → Act → Prop}
  {s₀ s : ValidateGroup × Db}

theorem lists_iff {addr : Address} :
    g.Lists addr ↔ addr ∈ g.groupmembers.map GroupMember.address ∨
      addr ∈ g.thresholdgroupmembers.map GroupMember.address ∨
      addr ∈ g.newgroupmembers.map GroupMember.address := by
  rw [MemberGroup.Lists, List.map_append, List.map_append, List.mem_append, List.mem_append,
    or_assoc]

/-- Who is listed has been seen. -/
def MemberGroup.Known (g : MemberGroup) : Prop := ∀ addr, g.Lists addr → addr ∈ g.membersAddress

/-- The threshold and the new members are different addresses. -/
def MemberGroup.Unrepeated (g : MemberGroup) : Prop :=
  ((g.thresholdgroupmembers ++ g.newgroupmembers).map GroupMember.address).Nodup

theorem known_newMemberGroup (members newmembers threshold : List GroupMember) :
    (newMemberGroup members newmembers threshold).Known := fun _ h => h

/-- An application lists only who has been seen. -/
theorem MemberGroup.Known.add (hg : g.Known) (db : Db) (key : Bytes) (m : GroupMember) :
    (g.add db key m).1.Known := by
  intro addr
  unfold MemberGroup.add
  obtain ⟨-, he⟩ | ⟨-, -, he⟩ | ⟨-, -, he⟩ :=
    addMember_cases db key g.newgroupmembers g.membersAddress m
  · simp only [he]
    exact hg addr
  · simp only [he]
    exact fun h => List.mem_cons_of_mem _ (hg addr h)
  · simp only [he, lists_iff, List.map_append, List.map_singleton, List.mem_append, List.mem_cons]
    have := hg addr
    rw [lists_iff] at this
    tauto

theorem lists_of_reset (hsort : P.Sorts) {thresholdKey newKey : Bytes}
    {addr : Address} (h : (g.reset P.sortByTime db thresholdKey newKey).1.Lists addr) :
    g.Lists addr := by
  simp only [lists_iff, MemberGroup.groupmembers_reset, MemberGroup.thresholdgroupmembers_reset,
    MemberGroup.newgroupmembers_reset, ((hsort _).map GroupMember.address).mem_iff, List.map_append,
    List.mem_append, List.map_nil, List.not_mem_nil, or_false] at h
  rw [lists_iff]
  split at h <;> tauto

/-- **A move lists only who has been seen.** -/
theorem Move.known (hsort : P.Sorts) (h : Move P w a (g, db) (g', db'))
    (hg : g.Known) : g'.Known := by
  cases h with
  | rest => exact hg
  | add _ _ m => exact hg.add db w.newKey m
  | reset =>
    intro addr haddr
    rw [MemberGroup.membersAddress_reset]
    exact hg addr (lists_of_reset hsort haddr)
  | init =>
    intro addr haddr
    refine hg addr (lists_iff.mpr ?_)
    simp only [lists_iff, ((hsort _).map GroupMember.address).mem_iff, List.map_append,
      List.mem_append, List.map_nil, List.not_mem_nil, or_false] at haddr
    tauto
  | restart => exact known_newMemberGroup _ _ _

/-- An application adds an address that no list has. -/
theorem MemberGroup.Unrepeated.add (h : g.Unrepeated) (hk : g.Known) (db : Db) (key : Bytes)
    (m : GroupMember) : (g.add db key m).1.Unrepeated := by
  unfold MemberGroup.Unrepeated MemberGroup.add
  obtain ⟨-, he⟩ | ⟨-, -, he⟩ | ⟨hseen, -, he⟩ :=
    addMember_cases db key g.newgroupmembers g.membersAddress m
  · simp only [he]
    exact h
  · simp only [he]
    exact h
  · simp only [he]
    rw [← List.append_assoc, List.map_append, List.nodup_append]
    refine ⟨h, List.nodup_singleton _, ?_⟩
    rintro x hx y hy rfl
    refine hseen (hk _ (lists_iff.mpr (.inr ?_)))
    rwa [← List.mem_append, ← List.map_append, ← List.mem_singleton.mp hy]

/-- **A move repeats no address**, unless it is repeated in what is read back. -/
theorem Move.unrepeated (h : Move P w a (g, db) (g', db')) (hk : g.Known) (hg : g.Unrepeated)
    (hstored : ∀ hash, a = .restart hash →
      ((getMembers db w.thresholdKey ++ getMembers db w.newKey).map GroupMember.address).Nodup) :
    g'.Unrepeated := by
  cases h with
  | rest => exact hg
  | add _ _ m => exact hg.add hk db w.newKey m
  | reset =>
    rw [MemberGroup.Unrepeated, MemberGroup.thresholdgroupmembers_reset,
      MemberGroup.newgroupmembers_reset, List.append_nil]
    exact hg
  | init =>
    rw [MemberGroup.Unrepeated, List.map_append, List.nodup_append] at hg
    rw [MemberGroup.Unrepeated, List.append_nil]
    exact hg.1
  | restart _ ha => exact hstored _ ha

/-! ## What the database knows -/

/-- A list that is written at every application is stored, or nothing is when it has no encoding. -/
def Filed (db : Db) (key : Bytes) (ms : List GroupMember) : Prop :=
  getMembers db key = if Timely ms then ms else []

/-- An application keeps a list filed: behind a member with a nonnegative time come only such. -/
theorem Filed.addMember {key : Bytes} {ms : List GroupMember} (h : Filed db key ms)
    (seen : List Address) (m : GroupMember) (hfits : Fits (addMember db key ms seen m).1) :
    Filed (addMember db key ms seen m).2.2 key (addMember db key ms seen m).1 := by
  obtain ⟨-, he⟩ | ⟨-, -, he⟩ | ⟨-, hlast, he⟩ := addMember_cases db key ms seen m
  · rw [he]
    exact h
  · rw [he]
    exact h
  · rw [he] at hfits ⊢
    simp only [Filed, getMembers_writeMembers hfits]
    split
    · rfl
    · next hlate =>
      by_cases hms : Timely ms
      · cases hne : ms.getLast? with
        | none =>
          rw [List.getLast?_eq_none_iff.mp hne] at h
          exact h
        | some last =>
          refine absurd (timely_append.mpr ⟨hms, ?_⟩) hlate
          have hpos := hms last (List.mem_of_getLast? hne)
          have hlt := hlast last hne
          rintro m' (_ | ⟨_, ⟨⟩⟩)
          omega
      · rw [h, if_neg hms]

/-- **The database follows the memory**: the new members are filed, and the stored threshold members
are the first of those in memory — all of them, when they can be encoded. -/
structure Tracked (w : Which) (g : MemberGroup) (db : Db) : Prop where
  known : g.Known
  new : Filed db w.newKey g.newgroupmembers
  threshold : getMembers db w.thresholdKey <+: g.thresholdgroupmembers
  threshold_eq : Timely g.thresholdgroupmembers →
    getMembers db w.thresholdKey = g.thresholdgroupmembers

/-- A group that has just been read is tracked. -/
theorem tracked_newMemberGroup (members : List GroupMember) (db : Db) :
    Tracked w (newMemberGroup members (getMembers db w.newKey) (getMembers db w.thresholdKey)) db :=
  ⟨known_newMemberGroup _ _ _, (if_pos (timely_getMembers db w.newKey)).symm,
    List.prefix_rfl, fun _ => rfl⟩

/-- The lists of the database are parts of those in memory. -/
theorem Tracked.stored_sublist (h : Tracked w g db) :
    (getMembers db w.thresholdKey ++ getMembers db w.newKey).Sublist
      (g.thresholdgroupmembers ++ g.newgroupmembers) := by
  refine h.threshold.sublist.append ?_
  rw [h.new]
  split
  · exact .refl _
  · exact List.nil_sublist _

/-- What a reset leaves of the new members. -/
theorem Resets.getMembers_newKey (h : Resets P w g db db')
    (hg : Filed db w.newKey g.newgroupmembers) : getMembers db' w.newKey = [] := by
  rw [getMembers_congr h.new, MemberGroup.db_reset]
  split
  · exact getMembers_delete _ _
  · next hnew =>
    rw [hg, not_ne_iff.mp hnew, if_pos timely_nil]

theorem Resets.getMembers_thresholdKey (h : Resets P w g db db')
    (hfits : Fits (g.thresholdgroupmembers ++ g.newgroupmembers)) :
    getMembers db' w.thresholdKey
      = if g.newgroupmembers ≠ [] ∧ Timely (g.thresholdgroupmembers ++ g.newgroupmembers) then
          g.thresholdgroupmembers ++ g.newgroupmembers
        else getMembers db w.thresholdKey := by
  rw [getMembers_congr h.threshold, MemberGroup.db_reset]
  by_cases hnew : g.newgroupmembers = []
  · rw [if_neg (not_ne_iff.mpr hnew), if_neg fun hc => hc.1 hnew]
  · rw [if_pos hnew, getMembers_congr (Db.get_delete_of_ne _ w.newKey_ne_thresholdKey.symm),
      getMembers_writeMembers hfits]
    simp only [ne_eq, hnew, not_false_eq_true, true_and]

/-- **A move keeps a group tracked.** -/
theorem Move.tracked (hsort : P.Sorts) (h : Move P w a (g, db) (g', db'))
    (hg : Tracked w g db) (hnew : Fits g'.newgroupmembers)
    (hthreshold : Fits g'.thresholdgroupmembers) : Tracked w g' db' := by
  have hknown := h.known hsort hg.known
  cases h with
  | rest _ hdb =>
    refine ⟨hknown, ?_, ?_, ?_⟩
    · exact (getMembers_congr (hdb _ w.newKey_mem)).trans hg.new
    · rw [getMembers_congr (hdb _ w.thresholdKey_mem)]
      exact hg.threshold
    · rw [getMembers_congr (hdb _ w.thresholdKey_mem)]
      exact hg.threshold_eq
  | add _ _ m =>
    have hoff := addMember_sameOff w.newKey (Set.mem_singleton _) db g.newgroupmembers
      g.membersAddress m
    have hkey : getMembers (g.add db w.newKey m).2 w.thresholdKey = getMembers db w.thresholdKey :=
      getMembers_congr (hoff _ w.newKey_ne_thresholdKey.symm)
    refine ⟨hknown, hg.new.addMember g.membersAddress m hnew, ?_, ?_⟩
    · rw [hkey]
      exact hg.threshold
    · rw [hkey]
      exact hg.threshold_eq
  | reset h =>
    simp only [MemberGroup.thresholdgroupmembers_reset] at hthreshold
    have hstored := h.getMembers_thresholdKey hthreshold
    refine ⟨hknown, ?_, ?_, ?_⟩
    · rw [MemberGroup.newgroupmembers_reset, Filed, if_pos timely_nil]
      exact h.getMembers_newKey hg.new
    · rw [MemberGroup.thresholdgroupmembers_reset, hstored]
      split
      · exact List.prefix_rfl
      · exact hg.threshold.trans (List.prefix_append _ _)
    · rw [MemberGroup.thresholdgroupmembers_reset, hstored]
      intro htimely
      split
      · rfl
      · next hc =>
        have hnil : g.newgroupmembers = [] := not_ne_iff.mp fun hne => hc ⟨hne, htimely⟩
        rw [hnil, List.append_nil]
        exact hg.threshold_eq (timely_append.mp htimely).1
  | init _ _ hn ht _ =>
    refine ⟨hknown, ?_, ?_, ?_⟩
    · rw [Filed, if_pos timely_nil, getMembers, hn]
    · rw [getMembers_congr ht]
      exact hg.threshold
    · rw [getMembers_congr ht]
      exact hg.threshold_eq
  | restart => exact tracked_newMemberGroup _ db

/-! ## Runs -/

/-- The encodings of the lists of a group are shorter than `2 ^ 64` bytes. -/
def MemberGroup.AllFit (g : MemberGroup) : Prop :=
  Fits g.groupmembers ∧ Fits g.newgroupmembers ∧ Fits g.thresholdgroupmembers

instance (g : MemberGroup) : Decidable g.AllFit := inferInstanceAs (Decidable (_ ∧ _ ∧ _))

/-- …and those of all lists. -/
structure AllFit (vg : ValidateGroup) : Prop where
  group : ∀ w, (vg.group w).AllFit
  stell : Fits vg.stellgroupmembers

instance (vg : ValidateGroup) : Decidable (AllFit vg) :=
  decidable_of_iff ((vg.space.AllFit ∧ vg.coin.AllFit ∧ vg.transaction.AllFit) ∧
      Fits vg.stellgroupmembers)
    ⟨fun ⟨⟨hs, hc, ht⟩, h⟩ => ⟨fun w => by cases w <;> assumption, h⟩,
      fun h => ⟨⟨h.group .space, h.group .coin, h.group .transaction⟩, h.stell⟩⟩

/-- The states that allowed steps reach, as long as the lists fit. -/
inductive Reach (P : Prims) (allowed : ValidateGroup × Db → Act → Prop) (s₀ : ValidateGroup × Db) :
    ValidateGroup × Db → Prop
  | refl : Reach P allowed s₀ s₀
  | step {s s' : ValidateGroup × Db} {a : Act} (h : Reach P allowed s₀ s) (ha : allowed s a)
      (hs : Step P s a s') (hfit : AllFit s'.1) : Reach P allowed s₀ s'

/-- All three groups are tracked when they have just been read. -/
theorem tracked_newValidateGroup (db : Db) (hash : Hash) (w : Which) :
    Tracked w ((newValidateGroup P db hash).group w) db := by
  cases w <;> exact tracked_newMemberGroup _ db

theorem Reach.tracked (hsort : P.Sorts)
    (h₀ : ∀ w, Tracked w (s₀.1.group w) s₀.2) (h : Reach P allowed s₀ s) (w : Which) :
    Tracked w (s.1.group w) s.2 := by
  induction h with
  | refl => exact h₀ w
  | step _ _ hs hfit ih => exact (hs.move w).tracked hsort ih (hfit.group w).2.1 (hfit.group w).2.2

/-- **No run repeats an address**, unless the database did at its start. -/
theorem Reach.unrepeated (hsort : P.Sorts)
    (h₀ : ∀ w, Tracked w (s₀.1.group w) s₀.2) (hn : ∀ w, (s₀.1.group w).Unrepeated)
    (h : Reach P allowed s₀ s) (w : Which) : (s.1.group w).Unrepeated := by
  induction h with
  | refl => exact hn w
  | step h _ hs _ ih =>
    have ht := h.tracked hsort h₀ w
    exact (hs.move w).unrepeated ht.known ih fun _ _ => ih.sublist (ht.stored_sublist.map _)

/-- The lists fit after each of the operations. -/
def FitAlong (P : Prims) : List Op → ValidateGroup × Db → Prop
  | [], _ => True
  | o :: ops, s => AllFit (o.apply P s).1 ∧ FitAlong P ops (o.apply P s)

instance decidableFitAlong (P : Prims) :
    ∀ (ops : List Op) (s : ValidateGroup × Db), Decidable (FitAlong P ops s)
  | [], _ => .isTrue trivial
  | o :: ops, s =>
    have := decidableFitAlong P ops (o.apply P s)
    inferInstanceAs (Decidable (_ ∧ _))

/-- A run of operations. -/
theorem Reach.runOps (h : Reach P allowed s₀ s) (hop : ∀ s o, allowed s (.op o)) (ops : List Op)
    (hfit : FitAlong P ops s) : Reach P allowed s₀ (runOps P ops s) := by
  induction ops generalizing s with
  | nil => exact h
  | cons o ops ih => exact ih (h.step (hop s o) (.op s o) hfit.1) hfit.2

end Gocoin.ValidateGroup
