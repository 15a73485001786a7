import Gocoin.State.Bindings

/-!
# State/Ids — which accounts and spaces there are

The ids of a book are the wallet ids of its accounts and the spaces that are there.  They only grow:
an operation makes an account where there was none and a space where there was none, and changes no
wallet id.  A commit may drop objects that count as empty, so what is stored after it is among what
the committed state had (`Good.ids_commit`).  `Ahead` says that two counters are beyond all ids and
that no two accounts share a wallet id.
-/

namespace Gocoin.State

open Trie

/-- The wallet ids of the accounts, and the spaces that are there. -/
@[ext] structure Ids where
  account : Address → Lookup UInt64
  space : UInt64 → Lookup Unit

/-- The ids of a book. -/
def Book.ids (B : Book) : Ids where
  account := fun a => (B.account a).map Holder.walletID
  space := fun i => (B.space i).map fun _ => ()

theorem Lookup.map_eq_found {α β : Type} {f : α → β} {r : Lookup α} {y : β} :
    r.map f = .found y ↔ ∃ x, r = .found x ∧ f x = y := by
  cases r <;> simp [Lookup.map]

namespace Ids

/-- An account with a wallet id. -/
def addAccount (I : Ids) (a : Address) (w : UInt64) : Ids :=
  { I with account := Function.update I.account a (.found w) }

/-- A space. -/
def addSpace (I : Ids) (i : UInt64) : Ids :=
  { I with space := Function.update I.space i (.found ()) }

/-- What is there on the left is there on the right. -/
structure Le (I J : Ids) : Prop where
  account : ∀ a w, I.account a = .found w → J.account a = .found w
  space : ∀ i, I.space i = .found () → J.space i = .found ()

/-- **The counters are ahead**: beyond every space and every wallet id, and the wallet ids are
distinct. -/
structure Ahead (I : Ids) (spaceid : ℕ) (walletid : UInt64) : Prop where
  space : ∀ i, I.space i = .found () → i.toNat < spaceid
  wallet : ∀ a w, I.account a = .found w → w < walletid
  distinct : ∀ a b w, I.account a = .found w → I.account b = .found w → a = b

variable {I J : Ids} {a b : Address} {i j : UInt64} {w v : UInt64} {spaceid : ℕ} {walletid : UInt64}

theorem Le.refl (I : Ids) : I.Le I := ⟨fun _ _ h => h, fun _ h => h⟩

theorem Le.trans {K : Ids} (h : I.Le J) (h' : J.Le K) : I.Le K :=
  ⟨fun a w ha => h'.account a w (h.account a w ha), fun i hi => h'.space i (h.space i hi)⟩

theorem Ahead.mono (h : J.Ahead spaceid walletid) (hle : I.Le J) : I.Ahead spaceid walletid :=
  ⟨fun i hi => h.space i (hle.space i hi), fun a w ha => h.wallet a w (hle.account a w ha),
    fun a b w ha hb => h.distinct a b w (hle.account a w ha) (hle.account b w hb)⟩

theorem account_addAccount :
    (I.addAccount a w).account b = if b = a then .found w else I.account b :=
  Function.update_apply ..

theorem space_addSpace : (I.addSpace i).space j = if j = i then .found () else I.space j :=
  Function.update_apply ..

theorem le_addSpace (I : Ids) (i : UInt64) : I.Le (I.addSpace i) := by
  refine ⟨fun _ _ h => h, fun j hj => ?_⟩
  rw [space_addSpace]
  split
  · rfl
  · exact hj

theorem le_addAccount (ha : I.account a = .absent) (w : UInt64) : I.Le (I.addAccount a w) := by
  refine ⟨fun b v hb => ?_, fun _ h => h⟩
  rw [account_addAccount, if_neg fun hba => by rw [hba, ha] at hb; cases hb]
  exact hb

/-- The next space. -/
theorem Ahead.addSpace (h : I.Ahead spaceid walletid) (hsmall : spaceid < 2 ^ 64) :
    (I.addSpace (u64 spaceid)).Ahead (spaceid + 1) walletid := by
  refine ⟨fun i hi => ?_, h.wallet, h.distinct⟩
  rw [space_addSpace] at hi
  split at hi
  · next he =>
    rw [he, toNat_u64 hsmall]
    exact Nat.lt_succ_self _
  · exact (h.space i hi).trans (Nat.lt_succ_self _)

/-- The next account. -/
theorem Ahead.addAccount (h : I.Ahead spaceid walletid) (hroom : walletid.toNat + 1 < 2 ^ 64) :
    (I.addAccount a walletid).Ahead spaceid (walletid + 1) := by
  have hnext : ∀ w, w < walletid ∨ w = walletid → w < walletid + 1 := fun w hw => by
    rw [UInt64.lt_iff_toNat_lt, UInt64.toNat_add, UInt64.toNat_one, Nat.mod_eq_of_lt hroom]
    rcases hw with hw | rfl
    · rw [UInt64.lt_iff_toNat_lt] at hw
      omega
    · omega
  have hold : ∀ b w, b ≠ a → (I.addAccount a walletid).account b = .found w → w < walletid :=
    fun b w hb hw => by
      rw [account_addAccount, if_neg hb] at hw
      exact h.wallet b w hw
  have hnew : ∀ w, (I.addAccount a walletid).account a = .found w → w = walletid := fun w hw => by
    rw [account_addAccount, if_pos rfl] at hw
    exact (Lookup.found.inj hw).symm
  refine ⟨h.space, fun b w hw => ?_, fun b c w hb hc => ?_⟩
  · by_cases hba : b = a
    · exact hnext w (.inr (hnew w (hba ▸ hw)))
    · exact hnext w (.inl (hold b w hba hw))
  · by_cases hba : b = a <;> by_cases hca : c = a
    · rw [hba, hca]
    · have hlt := hold c w hca hc
      rw [hnew w (hba ▸ hb)] at hlt
      exact absurd hlt (UInt64.lt_irrefl _)
    · have hlt := hold b w hba hb
      rw [hnew w (hca ▸ hc)] at hlt
      exact absurd hlt (UInt64.lt_irrefl _)
    · rw [account_addAccount, if_neg hba] at hb
      rw [account_addAccount, if_neg hca] at hc
      exact h.distinct b c w hb hc

end Ids

/-! ## The ids of a changed book -/

namespace Book

variable {B : Book} {a : Address} {i : UInt64}

theorem ids_setAccount (h : Holder) : (B.setAccount a h).ids = B.ids.addAccount a h.walletID := by
  refine Ids.ext (funext fun b => ?_) rfl
  rw [Ids.account_addAccount]
  show ((B.setAccount a h).account b).map _ = _
  split
  · next hb => rw [hb, account_setAccount_self]; rfl
  · next hb => rw [account_setAccount_of_ne hb]; rfl

theorem ids_setSpace (sp : Space) : (B.setSpace i sp).ids = B.ids.addSpace i := by
  refine Ids.ext rfl (funext fun j => ?_)
  rw [Ids.space_addSpace]
  show ((B.setSpace i sp).space j).map _ = _
  split
  · next hj => rw [hj, space_setSpace_self]; rfl
  · next hj => rw [space_setSpace_of_ne hj]; rfl

theorem addSpace_eq_self {sp : Space} (hi : B.space i = .found sp) : B.ids.addSpace i = B.ids := by
  rw [← ids_setSpace sp, setSpace_eq_self hi]

theorem ids_onAccount {f : Holder → Holder} (hf : ∀ h, (f h).walletID = h.walletID) :
    (B.onAccount a f).ids = B.ids := by
  unfold onAccount
  split
  · next h hfound =>
    rw [ids_setAccount, hf, ← ids_setAccount, setAccount_eq_self hfound]
  · rfl

theorem ids_onSpace (f : Space → Space) : (B.onSpace i f).ids = B.ids := by
  unfold onSpace
  split
  · next sp hfound => rw [ids_setSpace, addSpace_eq_self hfound]
  · rfl

theorem ids_bindTo : (B.bindTo a i).ids = B.ids := ids_onAccount fun _ => rfl

theorem ids_leaveSpace : (B.leaveSpace a).ids = B.ids := by
  unfold leaveSpace
  split
  · split
    · rfl
    · split
      · rw [unassociate, ids_onSpace, ids_bindTo]
      · rfl
  · rfl

theorem ids_associate : (B.associate i a).ids = B.ids := by
  rw [associate, ids_onSpace, ids_bindTo, ids_leaveSpace]

theorem ids_settleAt : (B.settleAt i a).ids = B.ids.addSpace i := by
  unfold settleAt
  split
  · next sp hfound => rw [addSpace_eq_self hfound]
  · rw [ids_associate, ids_setSpace]

theorem ids_createSpace : (B.createSpace i).ids = B.ids.addSpace i := by
  unfold createSpace
  split
  · next sp hfound => rw [addSpace_eq_self hfound]
  · exact ids_setSpace _

/-- **What `CreateSpaceAndBindAddr` adds**: the space, and an account where there was none, which
gets the wallet id. -/
theorem ids_createSpaceAndBindAddr (i w : UInt64) (a : Address) :
    ((B.createSpaceAndBindAddr i w a).1 = w ∧
        (B.createSpaceAndBindAddr i w a).2.ids = B.ids.addSpace i) ∨
      (B.ids.account a = .absent ∧ (B.createSpaceAndBindAddr i w a).1 = w + 1 ∧
        (B.createSpaceAndBindAddr i w a).2.ids = (B.ids.addAccount a w).addSpace i) := by
  unfold createSpaceAndBindAddr
  cases ha : B.account a with
  | found h => exact .inl ⟨rfl, ids_settleAt⟩
  | failed => exact .inl ⟨rfl, ids_createSpace⟩
  | absent =>
    refine .inr ⟨congrArg (Lookup.map _) ha, rfl, ?_⟩
    show ((B.setAccount a ⟨0, 0, w, ∅⟩).settleAt i a).ids = _
    rw [ids_settleAt, ids_setAccount]

end Book

/-! ## The ids that are stored -/

section Stored

variable (H : HashFn)

/-- The book of the stored objects. -/
def Contents.book (C : Contents) : Book where
  account := fun a => (C.storedAccount H a).map AccountObject.holder
  space := fun i => (C.storedSpace H i.toNat).map SpaceObject.data

variable {H} {get : Nodes} {C : Contents} {s : StateDB} {ord : IterOrder}
  {es as : List Entry}

/-- A state without objects shows what is stored. -/
theorem book_of_new (hca : s.accountObjects = fun _ => none)
    (hcs : s.spaceObjects = fun _ => none) : s.book H C = C.book H := by
  refine Book.ext (funext fun a => ?_) (funext fun i => ?_)
  · show (s.accountAt H C a).map _ = _
    rw [StateDB.accountAt, hca]
    rfl
  · show (s.spaceAt H C i.toNat).map _ = _
    rw [StateDB.spaceAt, hcs]
    rfl

/-- An account that is stored after a commit has been written by it or was stored before. -/
theorem Good.storedAccount_cases {K : ℕ → Prop} (h : Good H get C K s)
    (hinj : ∀ a b : Address, H a.bytes = H b.bytes → a = b)
    (has : s.accountEntries ord = some as) {m : HashMap} {a : Address} {obj' : AccountObject}
    (hst : Contents.storedAccount H ⟨m, writeAll H C.account as⟩ a = .found obj') :
    (∃ obj, s.accountObjects a = some obj ∧ obj'.data.walletID = obj.data.walletID ∧
        obj'.data.bindSpaceId = obj.data.bindSpaceId) ∨
      C.storedAccount H a = .found obj' := by
  change readAccount a ((writeAll H C.account as (H a.bytes)).getD []) = _ at hst
  by_cases hd : a ∈ s.accountObjectsDirty
  · obtain ⟨obj, hobj⟩ := h.accountDirty a hd
    obtain ⟨e, he, hentry, hkey⟩ := h.exists_accountEntry has hd hobj
    rw [← hkey, writeAll_of_mem (h.consistent_accountEntries hinj has) he] at hst
    unfold AccountObject.entry at hentry
    split at hentry
    · cases hentry
      cases hst
    · obtain ⟨data, hdata, rfl⟩ := Option.map_eq_some_iff.mp hentry
      rw [Option.getD_some, readAccount_encodeRLP hdata] at hst
      obtain rfl := Lookup.found.inj hst
      exact .inl ⟨obj, hobj, rfl, rfl⟩
  · have hne : ∀ e ∈ as, H e.key ≠ H a.bytes := by
      intro e he heq
      obtain ⟨b, hb, hkey⟩ := h.mem_dirty_of_accountEntriesFor (b := true) has he
      rw [hkey] at heq
      exact hd (hinj b a heq ▸ hb)
    rw [writeAll_of_forall_ne hne] at hst
    exact .inr hst

theorem Good.storedSpace_cases (h : Good H get C Small s) (hinj : ∀ m n, Small m → Small n →
      H (BigEndian.toBytes m) = H (BigEndian.toBytes n) → m = n)
    (hes : s.spaceEntries ord = some es) {m : HashMap} {id : ℕ} (hid : Small id) {sp' : SpaceObject}
    (hst : Contents.storedSpace H ⟨writeAll H C.space es, m⟩ id = .found sp') :
    (∃ sp, s.spaceObjects (u64 id) = some sp) ∨ C.storedSpace H id = .found sp' := by
  by_cases hd : u64 id ∈ s.spaceObjectsDirty
  · exact .inl (h.spaceDirty _ hd)
  · have hne : ∀ e ∈ es, H e.key ≠ H (BigEndian.toBytes id) := by
      intro e he heq
      obtain ⟨j, hj, obj, hobj, hkey⟩ := mem_dirty_of_spaceEntriesFor (b := true) hes he
      rw [hkey] at heq
      rw [← hinj _ _ (h.spaceId j obj hobj) hid heq, h.spaceKey j obj hobj] at hd
      exact hd hj
    change readSpace id ((writeAll H C.space es _).getD []) = _ at hst
    rw [writeAll_of_forall_ne hne] at hst
    exact .inr hst

/-- **What a commit stores the state had**, given that it had what was stored before; and the
stored accounts are bound to ids below `2 ^ 64`. -/
theorem Good.ids_commit (h : Good H get C Small s) (hK : AllowsStored H C Small)
    (hinjA : ∀ a b : Address, H a.bytes = H b.bytes → a = b) (hinjS : ∀ m n, Small m → Small n →
      H (BigEndian.toBytes m) = H (BigEndian.toBytes n) → m = n)
    (hes : s.spaceEntries ord = some es) (has : s.accountEntries ord = some as)
    (hle : (C.book H).ids.Le (s.book H C).ids) :
    let C' : Contents := ⟨writeAll H C.space es, writeAll H C.account as⟩
    (C'.book H).ids.Le (s.book H C).ids ∧ AllowsStored H C' Small := by
  intro C'
  refine ⟨⟨fun a w hw => ?_, fun i hi => ?_⟩, hK.zero, fun a obj' hst => ?_⟩
  · obtain ⟨hold, hholder, rfl⟩ := Lookup.map_eq_found.mp hw
    obtain ⟨obj', hst, rfl⟩ := Lookup.map_eq_found.mp hholder
    rcases h.storedAccount_cases hinjA has hst with ⟨obj, hobj, hwallet, -⟩ | hst
    · refine Lookup.map_eq_found.mpr ⟨_, book_account_of_cached hobj, ?_⟩
      exact hwallet.symm
    · exact hle.account a _ (Lookup.map_eq_found.mpr
        ⟨_, Lookup.map_eq_found.mpr ⟨obj', hst, rfl⟩, rfl⟩)
  · obtain ⟨data, hdata, -⟩ := Lookup.map_eq_found.mp hi
    obtain ⟨sp', hst, -⟩ := Lookup.map_eq_found.mp hdata
    rcases h.storedSpace_cases hinjS hes i.toNat_lt hst with ⟨sp, hsp⟩ | hst
    · rw [u64_toNat] at hsp
      exact Lookup.map_eq_found.mpr ⟨_, book_space_of_cached hsp, rfl⟩
    · exact hle.space i (Lookup.map_eq_found.mpr
        ⟨_, Lookup.map_eq_found.mpr ⟨sp', hst, rfl⟩, rfl⟩)
  · rcases h.storedAccount_cases hinjA has hst with ⟨obj, hobj, -, hbind⟩ | hst
    · rw [hbind]
      exact h.bind a obj hobj
    · exact hK.bind a obj' hst

end Stored

end Gocoin.State
