import Gocoin.State.Persistence

/-!
# State/Bindings — accounts and spaces name each other

An account says which space it is bound to, and a space lists the accounts bound to it.  The two
records are written by different operations on different objects; `Consistent` says that they agree:
an account stands in the list of the space it is bound to once, and in no other list.  Moving an
account keeps this on every path — an account that counts as empty is bound to nothing, so not
taking it from its space loses nothing — and with it a run from the empty state
(`bindings_consistent`).  Only `UnbindAddr`, which clears the record of an account whatever space it
is told, is left out.
-/

namespace Gocoin.State

open Trie
open Sample (address keccak)

namespace Book

/-- The id an account is bound to; zero is none. -/
def boundTo (B : Book) (a : Address) : UInt64 :=
  match B.account a with
  | .found h => h.bindSpaceId
  | _ => 0

/-- The accounts a space lists. -/
def binds (B : Book) (i : UInt64) : List Address :=
  match B.space i with
  | .found sp => sp.bindAddr
  | _ => []

/-- **The two records agree.** -/
def Consistent (B : Book) : Prop :=
  ∀ i ≠ 0, ∀ a, (B.binds i).count a = if B.boundTo a = i then 1 else 0

variable {B B' : Book} {a b : Address} {i j : UInt64} {h : Holder} {sp : Space}

/-! ## Reading the records of a changed book -/

/-- The record of an account that is there. -/
theorem boundTo_of_found (ha : B.account a = .found h) : B.boundTo a = h.bindSpaceId := by
  rw [boundTo, ha]

/-- The record of a space that is there… -/
theorem binds_of_found (hi : B.space i = .found sp) : B.binds i = sp.bindAddr := by
  rw [binds, hi]

/-- …and of one that is not. -/
theorem binds_of_not (hi : ∀ sp, B.space i ≠ .found sp) : B.binds i = [] := by
  unfold binds
  split
  · next sp hfound => exact absurd hfound (hi sp)
  · rfl

/-- Writing an account changes its own record… -/
theorem boundTo_setAccount :
    (B.setAccount a h).boundTo b = if b = a then h.bindSpaceId else B.boundTo b := by
  split
  · next hb => exact boundTo_of_found (hb ▸ account_setAccount_self)
  · next hb => rw [boundTo, account_setAccount_of_ne hb, boundTo]

/-- …and writing a space its own. -/
theorem binds_setSpace : (B.setSpace i sp).binds j = if j = i then sp.bindAddr else B.binds j := by
  split
  · next hj => exact binds_of_found (hj ▸ space_setSpace_self)
  · next hj => rw [binds, space_setSpace_of_ne hj, binds]

theorem space_onAccount (f : Holder → Holder) : (B.onAccount a f).space = B.space := by
  unfold onAccount
  split <;> rfl

theorem account_onSpace (f : Space → Space) : (B.onSpace i f).account = B.account := by
  unfold onSpace
  split <;> rfl

/-- Changes remove no account… -/
theorem exists_account_onAccount (f : Holder → Holder) (hb : ∃ h, B.account b = .found h) :
    ∃ h, (B.onAccount a f).account b = .found h := by
  unfold onAccount
  split
  · by_cases hba : b = a
    · rw [hba]
      exact ⟨_, account_setAccount_self⟩
    · rwa [account_setAccount_of_ne hba]
  · exact hb

/-- …and no space. -/
theorem exists_space_onSpace (f : Space → Space) (hj : ∃ sp, B.space j = .found sp) :
    ∃ sp, (B.onSpace i f).space j = .found sp := by
  unfold onSpace
  split
  · by_cases hji : j = i
    · rw [hji]
      exact ⟨_, space_setSpace_self⟩
    · rwa [space_setSpace_of_ne hji]
  · exact hj

/-! ## What does not touch the records -/

/-- Consistency is about the records alone. -/
theorem Consistent.of_eq (h : B.Consistent) (hb : ∀ a, B'.boundTo a = B.boundTo a)
    (hs : ∀ i, B'.binds i = B.binds i) : B'.Consistent := fun i hi a => by
  rw [hs, hb]
  exact h i hi a

/-- A change of an account that leaves its binding… -/
theorem Consistent.onAccount (h : B.Consistent) {f : Holder → Holder}
    (hf : ∀ h, (f h).bindSpaceId = h.bindSpaceId) : (B.onAccount a f).Consistent := by
  unfold Book.onAccount
  split
  · next hold hfound =>
    refine h.of_eq (fun b => ?_) fun i => rfl
    rw [boundTo_setAccount, hf]
    split
    · next hb => rw [hb, boundTo_of_found hfound]
    · rfl
  · exact h

/-- …and one of a space that leaves its list. -/
theorem Consistent.onSpace (h : B.Consistent) {f : Space → Space}
    (hf : ∀ sp, (f sp).bindAddr = sp.bindAddr) : (B.onSpace i f).Consistent := by
  unfold Book.onSpace
  split
  · next sp hfound =>
    refine h.of_eq (fun b => rfl) fun j => ?_
    rw [binds_setSpace, hf]
    split
    · next hj => rw [hj, binds_of_found hfound]
    · rfl
  · exact h

theorem Consistent.onSpaceOf (h : B.Consistent) {f : Space → Space}
    (hf : ∀ sp, (f sp).bindAddr = sp.bindAddr) : (B.onSpaceOf a f).Consistent := by
  unfold Book.onSpaceOf
  split
  · exact h.onSpace hf
  · exact h

/-- A new space lists nobody. -/
theorem Consistent.setSpace (h : B.Consistent) (hi : ∀ sp, B.space i ≠ .found sp) :
    (B.setSpace i ⟨0, 0, []⟩).Consistent := by
  refine h.of_eq (fun b => rfl) fun j => ?_
  rw [binds_setSpace]
  split
  · next hj => rw [hj, binds_of_not hi]
  · rfl

/-- A new space has an empty list. -/
theorem Consistent.createSpace (h : B.Consistent) : (B.createSpace i).Consistent := by
  unfold Book.createSpace
  split
  · exact h
  · next hno => exact h.setSpace hno

/-- A new account is bound to nothing. -/
theorem Consistent.setAccount (h : B.Consistent) (ha : B.account a = .absent) (w : UInt64) :
    (B.setAccount a ⟨0, 0, w, ∅⟩).Consistent := by
  refine h.of_eq (fun b => ?_) fun i => rfl
  rw [boundTo_setAccount]
  split
  · next hb => rw [hb, boundTo, ha]
  · rfl

/-! ## Moving an account -/

/-- What an account and a space record of each other after both have been written. -/
theorem records_rebound (ha : ∃ h, B.account a = .found h) (hi : ∃ sp, B.space i = .found sp)
    (k : UInt64) (g : List Address → List Address) :
    let B' := (B.bindTo a k).onSpace i fun sp => { sp with bindAddr := g sp.bindAddr }
    (∀ b, B'.boundTo b = if b = a then k else B.boundTo b) ∧
      ∀ j, B'.binds j = if j = i then g (B.binds i) else B.binds j := by
  obtain ⟨h, ha⟩ := ha
  obtain ⟨sp, hi⟩ := hi
  have hbind : B.bindTo a k = B.setAccount a { h with bindSpaceId := k } := onAccount_of_found ha
  have hi' : (B.setAccount a { h with bindSpaceId := k }).space i = .found sp := hi
  rw [hbind, onSpace_of_found hi', binds_of_found hi]
  exact ⟨fun b => boundTo_setAccount, fun j => binds_setSpace⟩

/-- **An account leaves its space**: the records agree, and it is bound to nothing. -/
theorem Consistent.leaveSpace (h : B.Consistent) (a : Address) :
    (B.leaveSpace a).Consistent ∧ (B.leaveSpace a).boundTo a = 0 := by
  unfold Book.leaveSpace
  split
  · next hold hfound =>
    have hbound := boundTo_of_found hfound
    split
    · next hempty =>
      simp only [Holder.empty, Bool.and_eq_true, decide_eq_true_eq] at hempty
      exact ⟨h, hbound.trans hempty.1.1⟩
    · split
      · next sp hsp =>
        obtain ⟨hb, hs⟩ := records_rebound ⟨hold, hfound⟩ ⟨sp, hsp⟩ 0
          (List.filter fun b => decide (b ≠ a))
        refine ⟨fun i hi b => ?_, (hb a).trans (if_pos rfl)⟩
        have hcount := h i hi b
        rw [unassociate, hb, hs]
        by_cases hba : b = a
        · subst hba
          rw [if_pos rfl, if_neg (Ne.symm hi)]
          split
          · rw [List.count_eq_zero]
            simp
          · next hij => rw [hcount, if_neg (by rw [hbound]; exact Ne.symm hij)]
        · rw [if_neg hba]
          split
          · next hij => rw [List.count_filter (by simpa using hba), ← hij, hcount]
          · exact hcount
      · next hno =>
        refine ⟨h, ?_⟩
        by_contra hne
        have hcount := h _ hne a
        rw [if_pos rfl, hbound, binds_of_not hno] at hcount
        cases hcount
  · next hno =>
    refine ⟨h, ?_⟩
    unfold boundTo
    split
    · next hold hfound => exact absurd hfound (hno hold)
    · rfl

theorem exists_account_leaveSpace (hb : ∃ h, B.account b = .found h) :
    ∃ h, (B.leaveSpace a).account b = .found h := by
  unfold Book.leaveSpace
  split
  · split
    · exact hb
    · split
      · rw [unassociate, account_onSpace]
        exact exists_account_onAccount _ hb
      · exact hb
  · exact hb

theorem exists_space_leaveSpace (hj : ∃ sp, B.space j = .found sp) :
    ∃ sp, (B.leaveSpace a).space j = .found sp := by
  unfold Book.leaveSpace
  split
  · split
    · exact hj
    · split
      · refine exists_space_onSpace _ ?_
        rwa [bindTo, space_onAccount]
      · exact hj
  · exact hj

/-- **An account moves to a space**: the records agree again. -/
theorem Consistent.associate (h : B.Consistent) (ha : ∃ h, B.account a = .found h)
    (hi : ∃ sp, B.space i = .found sp) : (B.associate i a).Consistent := by
  obtain ⟨hleft, hfree⟩ := h.leaveSpace a
  obtain ⟨hb, hs⟩ := records_rebound (exists_account_leaveSpace (a := a) ha)
    (exists_space_leaveSpace (a := a) hi) i (· ++ [a])
  intro j hj b
  have hcount := hleft j hj b
  rw [Book.associate, hb, hs]
  by_cases hba : b = a
  · subst hba
    rw [hfree, if_neg (Ne.symm hj)] at hcount
    rw [if_pos rfl]
    by_cases hji : j = i
    · subst hji
      rw [if_pos rfl, if_pos rfl, List.count_append, hcount, List.count_singleton_self]
    · rw [if_neg hji, if_neg (Ne.symm hji), hcount]
  · rw [if_neg hba]
    by_cases hji : j = i
    · subst hji
      have hother : List.count b [a] = 0 := List.count_eq_zero.mpr (by simpa using hba)
      rw [if_pos rfl, List.count_append, hother, Nat.add_zero, hcount]
    · rw [if_neg hji, hcount]

/-- **Settling at a new space** keeps the records consistent. -/
theorem Consistent.settleAt (h : B.Consistent) (ha : ∃ h, B.account a = .found h) :
    (B.settleAt i a).Consistent := by
  unfold Book.settleAt
  split
  · exact h
  · next hno => exact (h.setSpace hno).associate ha ⟨_, space_setSpace_self⟩

theorem Consistent.createSpaceAndBindAddr (h : B.Consistent) (i w : UInt64) (a : Address) :
    (B.createSpaceAndBindAddr i w a).2.Consistent := by
  unfold Book.createSpaceAndBindAddr
  split
  · next hold hfound => exact h.settleAt ⟨hold, hfound⟩
  · next habsent => exact (h.setAccount habsent w).settleAt ⟨_, account_setAccount_self⟩
  · exact h.createSpace

/-- **`BindAddr`** keeps the records consistent. -/
theorem Consistent.bindAddr (h : B.Consistent) (i : UInt64) (a : Address) :
    (B.bindAddr i a).Consistent := by
  unfold Book.bindAddr
  split
  · next sp hold hsp hfound => exact h.associate ⟨hold, hfound⟩ ⟨sp, hsp⟩
  · exact h

end Book

/-! ## Runs from the empty state -/

/-- The operations of a run that never unbinds. -/
def Op.unbinds : Op → Bool
  | .unbindAddr _ _ => true
  | _ => false

theorem Space.bindAddr_add (amount : ℤ) (sp : Space) : (sp.add amount).bindAddr = sp.bindAddr := by
  unfold Space.add
  split <;> rfl

theorem Space.bindAddr_sub (amount : ℤ) (sp : Space) : (sp.sub amount).bindAddr = sp.bindAddr := by
  unfold Space.sub
  split <;> rfl

/-- **Every operation but `UnbindAddr` keeps the records consistent.** -/
theorem Book.Consistent.run {B : Book} (h : B.Consistent) {op : Op} (hop : op.unbinds = false) :
    (B.run op).Consistent := by
  cases op with
  | setBalance | addBalance | subBalance | setAttribute | delAttribute =>
    exact h.onAccount fun _ => rfl
  | createSpaceAndBindAddr id w a => exact h.createSpaceAndBindAddr (u64 id) w a
  | bindAddr id w a => exact h.bindAddr (u64 id) a
  | unbindAddr => cases hop
  | addSpaceBalanceByID id amount => exact h.onSpace (Space.bindAddr_add amount)
  | subSpaceBalanceByID id amount => exact h.onSpace (Space.bindAddr_sub amount)
  | addSpaceBalanceByAddress a amount => exact h.onSpaceOf (Space.bindAddr_add amount)
  | subSpaceBalanceByAddress a amount => exact h.onSpaceOf (Space.bindAddr_sub amount)
  | setSpaceBalanceByAddress => exact h.onSpaceOf fun _ => rfl

/-- **A run without `UnbindAddr`** keeps the records consistent. -/
theorem Book.Consistent.runAll {ops : List Op} (hops : ∀ op ∈ ops, op.unbinds = false) {B : Book}
    (h : B.Consistent) : (ops.foldl Book.run B).Consistent := by
  induction ops generalizing B with
  | nil => exact h
  | cons op ops ih =>
    exact ih (fun op' hop' => hops op' (List.mem_cons_of_mem op hop'))
      (h.run (hops op List.mem_cons_self))

/-- What the book says an account is bound to is what a reader sees. -/
theorem AccountView.bindSpaceId_ofHolder (B : Book) (a : Address) :
    (AccountView.ofHolder (B.account a)).bindSpaceId = (B.boundTo a).toNat := by
  unfold Book.boundTo AccountView.ofHolder
  cases B.account a <;> rfl

/-- What the book says a space lists is what a reader sees. -/
theorem SpaceView.bindAddr_ofSpace (B : Book) (i : UInt64) :
    (SpaceView.ofSpace (B.space i)).bindAddr = B.binds i := by
  unfold Book.binds SpaceView.ofSpace
  cases B.space i <;> rfl

theorem consistent_empty : Book.empty.Consistent := fun _ hi _ => (if_neg (Ne.symm hi)).symm

theorem u64_ne_zero {id : ℕ} (hpos : 1 ≤ id) (hid : id < 2 ^ 64) : u64 id ≠ 0 := fun h => by
  have hzero : id = 0 := u64_inj hid (by norm_num) (h.trans (by rfl : (0 : UInt64) = u64 0))
  omega

/-- **Spaces and accounts stay consistently bound.**  Any sequence of operations other than
`UnbindAddr`, with ids below `2 ^ 64`, runs on the empty state; afterwards an address stands in the
list of a space — with an id from `1` up — once if its account is bound to that id and not at all
otherwise, so it stands in at most one list. -/
theorem bindings_consistent (H : HashFn) (get : Nodes)
    {rootSpace rootAccount : Hash} (hspace : IsEmptyRoot rootSpace)
    (haccount : IsEmptyRoot rootAccount) {ops : List Op}
    (hops : ∀ op ∈ ops, op.unbinds = false) (hids : ∀ op ∈ ops, ∀ id ∈ op.id?, id < 2 ^ 64) :
    ∃ s, execute H get rootSpace rootAccount ops = some s ∧
      ∀ a, ∃ acc, s.viewAccount H get a = some acc ∧
        (∀ id, 1 ≤ id → id < 2 ^ 64 → ∃ sp, s.viewSpace H get id = some sp ∧
          sp.bindAddr.count a = if acc.bindSpaceId = id then 1 else 0) ∧
        ∀ id₁ id₂, 1 ≤ id₁ → id₁ < 2 ^ 64 → 1 ≤ id₂ → id₂ < 2 ^ 64 →
          ∀ sp₁ ∈ s.viewSpace H get id₁, ∀ sp₂ ∈ s.viewSpace H get id₂,
            a ∈ sp₁.bindAddr → a ∈ sp₂.bindAddr → id₁ = id₂ := by
  let C : Contents := .nothing
  have hK : AllowsStored H C Small := allowsStored_empty H
  obtain ⟨s, hrun, hg, hbook⟩ := exists_execute get hspace haccount hK (fun _ _ h => h) ops hids
  have hend : (s.book H C).Consistent := hbook trivial ▸ consistent_empty.runAll hops
  have hcount : ∀ a id, 1 ≤ id → id < 2 ^ 64 →
      ((s.book H C).binds (u64 id)).count a
        = if ((s.book H C).boundTo a).toNat = id then 1 else 0 := by
    intro a id hpos hid
    have hiff : (s.book H C).boundTo a = u64 id ↔ ((s.book H C).boundTo a).toNat = id :=
      ⟨fun h => by rw [h, toNat_u64 hid], fun h => by rw [← h, u64_toNat]⟩
    rw [hend (u64 id) (u64_ne_zero hpos hid) a]
    simp only [hiff]
  have hspace : ∀ id, id < 2 ^ 64 → ∀ sp, s.viewSpace H get id = some sp →
      sp.bindAddr = (s.book H C).binds (u64 id) := by
    intro id hid sp hsp
    rw [hg.viewSpace_book hid] at hsp
    obtain rfl := Option.some.inj hsp
    exact SpaceView.bindAddr_ofSpace _ _
  refine ⟨s, hrun, fun a => ⟨_, hg.viewAccount_book hK a,
    fun id hpos hid => ⟨_, hg.viewSpace_book hid, ?_⟩, ?_⟩⟩
  · rw [AccountView.bindSpaceId_ofHolder, SpaceView.bindAddr_ofSpace]
    exact hcount a id hpos hid
  · intro id₁ id₂ hpos₁ hid₁ hpos₂ hid₂ sp₁ hsp₁ sp₂ hsp₂ hmem₁ hmem₂
    have hbound : ∀ id sp, 1 ≤ id → id < 2 ^ 64 → s.viewSpace H get id = some sp →
        a ∈ sp.bindAddr → ((s.book H C).boundTo a).toNat = id := by
      intro id sp hpos hid hsp hmem
      rw [hspace id hid sp hsp] at hmem
      by_contra hne
      have h := hcount a id hpos hid
      rw [if_neg hne, List.count_eq_zero] at h
      exact h hmem
    exact (hbound id₁ sp₁ hpos₁ hid₁ hsp₁ hmem₁).symm.trans
      (hbound id₂ sp₂ hpos₂ hid₂ hsp₂ hmem₂)

/-- Two accounts with a space each, and the first moves over to the second space. -/
def movingOps : List Op :=
  [.createSpaceAndBindAddr 1 1 (address 1), .addBalance (address 1) 5,
    .createSpaceAndBindAddr 2 2 (address 2), .bindAddr 2 3 (address 1)]

/-- The records after the move. -/
theorem bindings_consistent_moving :
    ∃ s, execute keccak Db.empty.nodes emptyRoot (.zero 32) movingOps = some s ∧
      ∀ a, ∃ acc, s.viewAccount keccak Db.empty.nodes a = some acc ∧
        (∀ id, 1 ≤ id → id < 2 ^ 64 →
          ∃ sp, s.viewSpace keccak Db.empty.nodes id = some sp ∧
            sp.bindAddr.count a = if acc.bindSpaceId = id then 1 else 0) ∧
        ∀ id₁ id₂, 1 ≤ id₁ → id₁ < 2 ^ 64 → 1 ≤ id₂ → id₂ < 2 ^ 64 →
          ∀ sp₁ ∈ s.viewSpace keccak Db.empty.nodes id₁,
            ∀ sp₂ ∈ s.viewSpace keccak Db.empty.nodes id₂,
              a ∈ sp₁.bindAddr → a ∈ sp₂.bindAddr → id₁ = id₂ :=
  bindings_consistent keccak Db.empty.nodes (.inl rfl) (.inr rfl) (by decide) (by decide)

end Gocoin.State
