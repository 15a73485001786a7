import Gocoin.State.Bindings

/-!
# State/Rebinding — what `BindAddr` and `UnbindAddr` achieve

Both operations look up an account and a space on their own and write to both.  `BindAddr` binds
the accounts that are there and makes none: where a lookup finds nothing it reports no error, and
the branch that makes an account is not reached (`bindAddr_achieves_iff`).  `UnbindAddr` clears the
record of the account whatever space it was told, so the two records still correspond afterwards
unless the account was bound to another space (`unbindAddr_exact_iff`).
-/

namespace Gocoin.State

open Trie
open Sample (address keccak)

namespace Book

variable {B B' : Book} {a b : Address} {i j : UInt64} {h : Holder} {sp : Space}

/-! ## Binding -/

/-- Leaving a space changes nothing of an account but the id it is bound to. -/
theorem account_leaveSpace (ha : B.account a = .found h) :
    ∃ k, (B.leaveSpace a).account a = .found { h with bindSpaceId := k } := by
  unfold leaveSpace
  rw [ha]
  dsimp only
  split
  · exact ⟨h.bindSpaceId, ha⟩
  · split
    · refine ⟨0, ?_⟩
      rw [unassociate, account_onSpace, bindTo, onAccount_of_found ha]
      exact account_setAccount_self
    · exact ⟨h.bindSpaceId, ha⟩

/-- Moving to a space changes nothing of an account but the id it is bound to. -/
theorem account_associate (ha : B.account a = .found h) :
    (B.associate i a).account a = .found { h with bindSpaceId := i } := by
  obtain ⟨k, hk⟩ := account_leaveSpace ha
  rw [associate, account_onSpace, bindTo, onAccount_of_found hk]
  exact account_setAccount_self

theorem binds_onSpace_of_ne (hj : j ≠ i) (f : Space → Space) :
    (B.onSpace i f).binds j = B.binds j := by
  unfold onSpace
  split
  · rw [binds_setSpace, if_neg hj]
  · rfl

theorem binds_bindTo (k : UInt64) : (B.bindTo a k).binds j = B.binds j := by
  rw [binds, bindTo, space_onAccount, binds]

/-- Leaving a space lists nobody anew. -/
theorem mem_binds_of_leaveSpace (hb : b ∈ (B.leaveSpace a).binds j) : b ∈ B.binds j := by
  unfold leaveSpace at hb
  cases ha : B.account a with
  | absent | failed => rwa [ha] at hb
  | found h =>
    rw [ha] at hb
    dsimp only at hb
    split at hb
    · exact hb
    · cases hsp : B.space h.bindSpaceId with
      | absent | failed => rwa [hsp] at hb
      | found sp =>
        rw [hsp] at hb
        obtain ⟨-, hs⟩ := records_rebound ⟨h, ha⟩ ⟨sp, hsp⟩ 0 (List.filter fun b => decide (b ≠ a))
        have hlist : (B.unassociate h.bindSpaceId a).binds j = _ := hs j
        rw [hlist] at hb
        split at hb
        · next hj => exact hj ▸ List.mem_of_mem_filter hb
        · exact hb

/-- **The binding of an account to a space**, with the wallet ids before and after: the account is
there, bound to the id, and listed there and nowhere else; if it was there before, its balance and
attributes are what they were, and if not, it has the wallet id and no balance.  What the list of
the id zero has is not a matter of being bound. -/
structure Achieved (B B' : Book) (i : UInt64) (a : Address) (w w' : UInt64) : Prop where
  account : ∃ h', B'.account a = .found h' ∧ h'.bindSpaceId = i ∧
    (∀ h, B.account a = .found h →
      w' = w ∧ h'.balance = h.balance ∧ h'.accountAttribute = h.accountAttribute) ∧
    ((∀ h, B.account a ≠ .found h) → w' = w + 1 ∧ h'.walletID = w ∧ h'.balance = 0)
  listed : a ∈ B'.binds i
  alone : ∀ j ≠ i, (j = 0 → a ∉ B.binds 0) → a ∉ B'.binds j

/-- An account that is there is bound to a space that is there. -/
theorem Consistent.achieved (hB : B.Consistent) (hi : i ≠ 0) (ha : B.account a = .found h)
    (hsp : ∃ sp, B.space i = .found sp) (w : UInt64) :
    Achieved B (B.associate i a) i a w w := by
  have hafter := hB.associate ⟨h, ha⟩ hsp
  have hbound : (B.associate i a).boundTo a = i := boundTo_of_found (account_associate ha)
  refine ⟨⟨_, account_associate ha, rfl, fun h₁ h₁a => ?_, fun hno => absurd ha (hno h)⟩, ?_, ?_⟩
  · obtain rfl : h = h₁ := Lookup.found.inj (ha.symm.trans h₁a)
    exact ⟨rfl, rfl, rfl⟩
  · have hcount := hafter i hi a
    rw [if_pos hbound] at hcount
    exact List.count_pos_iff.mp (by omega)
  · intro j hj hzero
    by_cases hj0 : j = 0
    · subst hj0
      intro hmem
      rw [Book.associate, binds_onSpace_of_ne (Ne.symm hi), binds_bindTo] at hmem
      exact hzero rfl (mem_binds_of_leaveSpace hmem)
    · have hcount := hafter j hj0 a
      rw [hbound, if_neg (Ne.symm hj)] at hcount
      exact List.count_eq_zero.mp hcount

/-! ## Unbinding -/

/-- **The two records correspond**: an account is listed where it is bound. -/
def Corresponds (B : Book) : Prop := ∀ i ≠ 0, ∀ a, a ∈ B.binds i ↔ B.boundTo a = i

theorem Consistent.corresponds (hB : B.Consistent) : B.Corresponds := by
  intro i hi a
  rw [← List.count_pos_iff, hB i hi a]
  split
  · next h => exact iff_of_true one_pos h
  · next h => exact iff_of_false (lt_irrefl 0) h

/-- What is read of an account and a space after they have been parted. -/
theorem records_unassociate (ha : ∃ h, B.account a = .found h) (hi : ∃ sp, B.space i = .found sp) :
    (∀ b, (B.unassociate i a).boundTo b = if b = a then 0 else B.boundTo b) ∧
      ∀ j, (B.unassociate i a).binds j
        = if j = i then (B.binds i).filter (fun b => decide (b ≠ a)) else B.binds j :=
  records_rebound ha hi 0 _

/-- Parting an account from the space it is bound to keeps the correspondence. -/
theorem Corresponds.unassociate (hB : B.Corresponds) (ha : ∃ h, B.account a = .found h)
    (hi : ∃ sp, B.space i = .found sp) (hbound : B.boundTo a = i ∨ B.boundTo a = 0) :
    (B.unassociate i a).Corresponds := by
  obtain ⟨hb, hs⟩ := records_unassociate ha hi
  intro j hj b
  have hmem := hB j hj b
  rw [hb, hs]
  by_cases hba : b = a
  · subst hba
    rw [if_pos rfl]
    refine iff_of_false ?_ (Ne.symm hj)
    split
    · simp
    · next hji =>
      rw [hmem]
      rcases hbound with h | h
      · exact h ▸ Ne.symm hji
      · exact h ▸ Ne.symm hj
  · rw [if_neg hba]
    split
    · next hji =>
      subst hji
      rw [List.mem_filter, hmem]
      simp [hba]
    · exact hmem

theorem unassociate_eq_self (ha : B.account a = .found h) (hi : B.space i = .found sp)
    (hfree : h.bindSpaceId = 0) (hnot : a ∉ sp.bindAddr) : B.unassociate i a = B := by
  have hbind : B.bindTo a 0 = B := by
    rw [bindTo, onAccount_of_found ha, ← hfree]
    exact setAccount_eq_self ha
  have hlist : sp.bindAddr.filter (fun b => decide (b ≠ a)) = sp.bindAddr :=
    List.filter_eq_self.mpr fun b hb => by
      have hne : b ≠ a := fun h => hnot (h ▸ hb)
      simpa using hne
  rw [Book.unassociate, hbind, onSpace_of_found hi, hlist]
  exact setSpace_eq_self hi

/-- **What `UnbindAddr` does to corresponding records.** -/
theorem Corresponds.unbindAddr_iff (hB : B.Corresponds) :
    (B.unbindAddr i a).Corresponds ∧ (B.boundTo a ≠ i → B.unbindAddr i a = B) ↔
      ¬ ((∃ sp, B.space i = .found sp) ∧ (∃ h, B.account a = .found h) ∧ B.boundTo a ≠ 0 ∧
        B.boundTo a ≠ i) := by
  unfold Book.unbindAddr
  cases hsp : B.space i with
  | absent | failed =>
    exact iff_of_true ⟨hB, fun _ => rfl⟩ fun h => by obtain ⟨⟨_, h⟩, -⟩ := h; cases h
  | found sp =>
    cases ha : B.account a with
    | absent | failed =>
      exact iff_of_true ⟨hB, fun _ => rfl⟩ fun h => by obtain ⟨-, ⟨_, h⟩, -⟩ := h; cases h
    | found h =>
      dsimp only
      constructor
      · rintro ⟨hafter, -⟩ ⟨-, -, hne0, hnei⟩
        obtain ⟨hb, hs⟩ := records_unassociate ⟨h, ha⟩ ⟨sp, hsp⟩
        have hlisted : a ∈ B.binds (B.boundTo a) := (hB _ hne0 a).mpr rfl
        have hiff := hafter _ hne0 a
        rw [hb, hs, if_neg hnei, if_pos rfl] at hiff
        exact hne0 (hiff.mp hlisted).symm
      · intro hnot
        have hcase : B.boundTo a = i ∨ B.boundTo a = 0 := by
          by_contra hno
          rw [not_or] at hno
          exact hnot ⟨⟨sp, rfl⟩, ⟨h, rfl⟩, hno.2, hno.1⟩
        refine ⟨hB.unassociate ⟨h, ha⟩ ⟨sp, hsp⟩ hcase, fun hne => ?_⟩
        have hfree : B.boundTo a = 0 := hcase.resolve_left hne
        have hlisted : a ∉ sp.bindAddr := by
          rw [← binds_of_found hsp, hB i (fun h0 => hne (hfree.trans h0.symm)) a]
          exact hne
        exact unassociate_eq_self ha hsp ((boundTo_of_found ha).symm.trans hfree) hlisted

end Book

/-! ## The operations of the state -/

variable {H : HashFn} {get : Nodes} {C : Contents} {s : StateDB}

/-- **`BindAddr` achieves the binding exactly for the accounts that are there.**  On a state with
consistent records and a space that is there it always runs; it makes no account. -/
theorem bindAddr_achieves_iff (hK : AllowsStored H C Small) (h : Good H get C Small s)
    (hcons : (s.book H C).Consistent) (id : ℕ) (hpos : 1 ≤ id) (hid : id < 2 ^ 64)
    (hspace : ∃ sp, (s.book H C).space (u64 id) = .found sp) (w : UInt64) (a : Address) :
    ∃ w' s', s.bindAddr H get id w a = some (w', s') ∧
      ((s.book H C).Achieved (s'.book H C) (u64 id) a w w' ↔
        ∃ acc, (s.book H C).account a = .found acc) := by
  obtain ⟨s', hs', hr⟩ := h.exists_bindAddr (T := True) hK (fun _ _ h => h) hid w a
  refine ⟨w, s', hs', ?_⟩
  obtain ⟨sp, hsp⟩ := hspace
  rw [hr.book trivial, Book.bindAddr, hsp]
  cases ha : (s.book H C).account a with
  | found acc =>
    exact iff_of_true (hcons.achieved (u64_ne_zero hpos hid) ha ⟨sp, hsp⟩ w) ⟨acc, rfl⟩
  | absent | failed =>
    refine iff_of_false (fun hach => ?_) fun h => by obtain ⟨_, h⟩ := h; cases h
    obtain ⟨acc, hacc, -⟩ := hach.account
    exact absurd (ha.symm.trans hacc) (by simp)

/-- Two accounts with a space each. -/
def twoSpaces : List Op :=
  [.createSpaceAndBindAddr 1 1 (address 1), .createSpaceAndBindAddr 2 2 (address 2)]

/-- The first account moves to the second space. -/
theorem bindAddr_achieves_moving :
    ∃ s, sampleRun twoSpaces = some s ∧
      ∃ w' s', s.bindAddr keccak Db.empty.nodes 2 3 (address 1) = some (w', s') ∧
        (s.book keccak .nothing).Achieved
          (s'.book keccak .nothing) 2 (address 1) 3 w' := by
  obtain ⟨s, hs, hg, hbook⟩ := exists_sampleRun_book twoSpaces (by decide)
  have hcons : (s.book keccak .nothing).Consistent := by
    rw [hbook]
    exact consistent_empty.runAll (by decide)
  obtain ⟨w', s', hs', hiff⟩ := bindAddr_achieves_iff (allowsStored_empty keccak) hg hcons 2
    (by norm_num) (by norm_num) (by rw [hbook]; exact ⟨_, rfl⟩) 3 (address 1)
  exact ⟨s, hs, w', s', hs', hiff.mpr (by rw [hbook]; exact ⟨_, rfl⟩)⟩

/-- An unknown account is not bound, and no wallet id is given out. -/
theorem bindAddr_ignores_unknown :
    ∃ s ∈ sampleRun twoSpaces,
      ∃ r ∈ s.bindAddr keccak Db.empty.nodes 2 3 (address 9), r.1 = 3 ∧
        (∃ acc ∈ r.2.viewAccount keccak Db.empty.nodes (address 9), acc.bindSpaceId = 0) ∧
        ∃ sp ∈ r.2.viewSpace keccak Db.empty.nodes 2, sp.bindAddr = [address 2] := by
  decide +kernel

/-- **`UnbindAddr` is exact unless the account is bound to another space.**  On a state with
corresponding records it always runs; the records correspond afterwards, and nothing changes if the
account is not bound to the id, exactly when the account is not bound elsewhere or the operation
does not find the two. -/
theorem unbindAddr_exact_iff (hK : AllowsStored H C Small) (h : Good H get C Small s)
    (hB : (s.book H C).Corresponds) (id : ℕ) (hid : id < 2 ^ 64) (a : Address) :
    ∃ s', s.unbindAddr H get id a = some s' ∧
      ((s'.book H C).Corresponds ∧ ((s.book H C).boundTo a ≠ u64 id → s'.book H C = s.book H C) ↔
        ¬ ((∃ sp, (s.book H C).space (u64 id) = .found sp) ∧
          (∃ acc, (s.book H C).account a = .found acc) ∧ (s.book H C).boundTo a ≠ 0 ∧
          (s.book H C).boundTo a ≠ u64 id)) := by
  obtain ⟨s', hs', hr⟩ := h.exists_unbindAddr (T := True) hK (fun _ _ h => h) hid a
  refine ⟨s', hs', ?_⟩
  rw [hr.book trivial]
  exact hB.unbindAddr_iff

/-- The first account leaves the space it is bound to. -/
theorem unbindAddr_exact_own :
    ∃ s, sampleRun twoSpaces = some s ∧
      ∃ s', s.unbindAddr keccak Db.empty.nodes 1 (address 1) = some s' ∧
        (s'.book keccak .nothing).Corresponds := by
  obtain ⟨s, hs, hg, hbook⟩ := exists_sampleRun_book twoSpaces (by decide)
  have hcons : (s.book keccak .nothing).Consistent := by
    rw [hbook]
    exact consistent_empty.runAll (by decide)
  obtain ⟨s', hs', hiff⟩ := unbindAddr_exact_iff (allowsStored_empty keccak) hg
    hcons.corresponds 1 (by norm_num) (address 1)
  refine ⟨s, hs, s', hs', (hiff.mpr fun hbad => hbad.2.2.2 ?_).1⟩
  rw [hbook]
  rfl

/-- Told the wrong space, `UnbindAddr` leaves the account listed where it is no longer bound. -/
theorem unbindAddr_tears_records :
    ∃ s ∈ sampleRun twoSpaces,
      ∃ s' ∈ s.unbindAddr keccak Db.empty.nodes 1 (address 2),
        (∃ acc ∈ s'.viewAccount keccak Db.empty.nodes (address 2), acc.bindSpaceId = 0) ∧
        ∃ sp ∈ s'.viewSpace keccak Db.empty.nodes 2, sp.bindAddr = [address 2] := by
  decide +kernel

end Gocoin.State
