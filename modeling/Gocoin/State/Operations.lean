import Gocoin.State.Book

/-!
# State/Operations — every operation does to the book what the book says

On a good state a lookup finds what the state shows and changes only the cache entry it fills
(`FindsAccount`, `FindsSpace`).  Every operation then returns, is a run of moves — what it may do is
read off the edits they are allowed — and leaves the book that the operation on books gives
(`Reaches`).  The book is keyed by low words, so it is spoken of under a condition `T` that makes
the allowed ids small; the operations on accounts alone need none.
-/

namespace Gocoin.State

open Trie

section

variable (H : HashFn) (get : Nodes) (C : Contents) (K : ℕ → Prop)

/-- What a lookup of an account does: nothing is edited, and at most the entry of the account enters
its cache, with what the state shows. -/
structure FindsAccount (addr : Address) (s s' : StateDB) : Prop where
  moves : Moves H get C K .none s s'
  spaces : s'.spaceObjects = s.spaceObjects
  others : ∀ b ≠ addr, s'.accountObjects b = s.accountObjects b
  cache : ∀ obj, s'.accountObjects addr = some obj ↔ s.accountAt H C addr = .found obj

/-- What a lookup of a space does. -/
structure FindsSpace (id : ℕ) (s s' : StateDB) : Prop where
  moves : Moves H get C K .none s s'
  accounts : s'.accountObjects = s.accountObjects
  others : ∀ j ≠ u64 id, s'.spaceObjects j = s.spaceObjects j
  cache : ∀ obj, s'.spaceObjects (u64 id) = some obj ↔ s.spaceAt H C id = .found obj

/-- The state has moved, within the edits allowed, and its book has become this one if `T`. -/
structure Reaches (T : Prop) (E : Edits) (s s' : StateDB) (B : Book) : Prop where
  moves : Moves H get C K E s s'
  book : T → s'.book H C = B

end

variable {H : HashFn} {get : Nodes} {C : Contents} {K : ℕ → Prop}
  {T : Prop} {E E' : Edits} {s s' s₁ s₂ : StateDB} {a : Address} {i : UInt64} {id n : ℕ} {B : Book}
  {obj : AccountObject} {sp : SpaceObject}

/-! ## Lookups -/

/-- **A lookup of an account** finds what the state shows. -/
theorem Good.exists_getAccountObject (h : Good H get C K s) (addr : Address) :
    ∃ s', s.getAccountObject H get addr = some (s.accountAt H C addr, s') ∧
      FindsAccount H get C K addr s s' := by
  unfold StateDB.getAccountObject
  cases hc : s.accountObjects addr with
  | some obj =>
    have hat : s.accountAt H C addr = .found obj := by rw [StateDB.accountAt, hc]
    exact ⟨s, by rw [hat], .refl, rfl, fun _ _ => rfl, fun _ => by
      rw [hat, hc, Option.some.injEq, Lookup.found.injEq]⟩
  | none =>
    obtain ⟨t, ht, hm⟩ := SecureTrie.exists_tryGet h.account addr.bytes
    have hload : Move H get C K .none s { s with trieAccount := t } := .trieAccount hm
    have hat : s.accountAt H C addr = C.storedAccount H addr := by
      rw [StateDB.accountAt, hc]
    rw [hat]
    simp only [ht, Contents.storedAccount, readAccount]
    have hkeep : (∀ obj, C.storedAccount H addr ≠ .found obj) →
        FindsAccount H get C K addr s { s with trieAccount := t } := fun hno =>
      ⟨.single hload, rfl, fun _ _ => rfl, fun obj => by simp [hat, hno obj, hc]⟩
    split
    · next hlen =>
      exact ⟨_, rfl, hkeep (by rw [Contents.storedAccount, readAccount, if_pos hlen]; exact nofun)⟩
    · next hlen =>
      cases hdec : Account.decode ((C.account (H addr.bytes)).getD []) with
      | none =>
        exact ⟨_, rfl, hkeep (by
          rw [Contents.storedAccount, readAccount, if_neg hlen, hdec]; exact nofun)⟩
      | some acc =>
        have hstored : C.storedAccount H addr = .found (newAccountObject addr acc) := by
          rw [Contents.storedAccount, readAccount, if_neg hlen, hdec]
        refine ⟨_, rfl, .tail (.single hload) (.readAccount hc hstored), rfl,
          fun b hb => Function.update_of_ne hb .., fun obj => ?_⟩
        simp [hat, hstored, StateDB.setAccountObject, newAccountObject]

/-- **A lookup of a space** finds what the state shows; the id has to be allowed if there is
something stored for it. -/
theorem Good.exists_getSpaceObject (h : Good H get C K s) (id : ℕ)
    (hid : ∀ sp, C.storedSpace H id = .found sp → K id) :
    ∃ s', s.getSpaceObject H get id = some (s.spaceAt H C id, s') ∧
      FindsSpace H get C K id s s' := by
  unfold StateDB.getSpaceObject
  cases hc : s.spaceObjects (u64 id) with
  | some obj =>
    have hat : s.spaceAt H C id = .found obj := by rw [StateDB.spaceAt, hc]
    exact ⟨s, by rw [hat], .refl, rfl, fun _ _ => rfl, fun _ => by
      rw [hat, hc, Option.some.injEq, Lookup.found.injEq]⟩
  | none =>
    obtain ⟨t, ht, hm⟩ := SecureTrie.exists_tryGet h.space (BigEndian.toBytes id)
    have hload : Move H get C K .none s { s with trieSpace := t } := .trieSpace hm
    have hat : s.spaceAt H C id = C.storedSpace H id := by rw [StateDB.spaceAt, hc]
    rw [hat]
    simp only [ht, Contents.storedSpace, readSpace]
    have hkeep : (∀ obj, C.storedSpace H id ≠ .found obj) →
        FindsSpace H get C K id s { s with trieSpace := t } := fun hno =>
      ⟨.single hload, rfl, fun _ _ => rfl, fun obj => by simp [hat, hno obj, hc]⟩
    split
    · next hlen =>
      exact ⟨_, rfl, hkeep (by rw [Contents.storedSpace, readSpace, if_pos hlen]; exact nofun)⟩
    · next hlen =>
      cases hdec : Space.decode ((C.space (H (BigEndian.toBytes id))).getD []) with
      | none =>
        exact ⟨_, rfl, hkeep (by
          rw [Contents.storedSpace, readSpace, if_neg hlen, hdec]; exact nofun)⟩
      | some space =>
        have hstored : C.storedSpace H id = .found (newSpaceObject id space) := by
          rw [Contents.storedSpace, readSpace, if_neg hlen, hdec]
        refine ⟨_, rfl, .tail (.single hload) (.readSpace (hid _ hstored) hc hstored), rfl,
          fun j hj => Function.update_of_ne hj .., fun obj => ?_⟩
        simp [hat, hstored, StateDB.setSpaceObject, newSpaceObject]

namespace FindsAccount

variable (h : FindsAccount H get C K a s s')
include h

/-- Every account is shown as before. -/
theorem accountAt (b : Address) : s'.accountAt H C b = s.accountAt H C b := by
  by_cases hb : b = a
  · subst hb
    unfold StateDB.accountAt
    cases hc : s'.accountObjects b with
    | some obj => exact ((h.cache obj).mp hc).symm
    | none =>
      cases hs : s.accountObjects b with
      | none => rfl
      | some obj =>
        rw [(h.cache obj).mpr (by rw [StateDB.accountAt, hs])] at hc
        cases hc
  · exact accountAt_congr (h.others b hb)

theorem book : s'.book H C = s.book H C :=
  Book.ext (funext fun b => congrArg (Lookup.map _) (h.accountAt b))
    (funext fun j => book_space_congr (congrFun h.spaces j))

theorem reaches : Reaches H get C K T E s s' (s.book H C) := ⟨h.moves.of_none, fun _ => h.book⟩

end FindsAccount

namespace FindsSpace

variable (h : FindsSpace H get C K id s s')
include h

theorem spaceAt : s'.spaceAt H C id = s.spaceAt H C id := by
  unfold StateDB.spaceAt
  cases hc : s'.spaceObjects (u64 id) with
  | some sp => exact ((h.cache sp).mp hc).symm
  | none =>
    cases hs : s.spaceObjects (u64 id) with
    | none => rfl
    | some sp =>
      rw [(h.cache sp).mpr (by rw [StateDB.spaceAt, hs])] at hc
      cases hc

/-- The accounts are shown as before. -/
theorem accountAt (b : Address) : s'.accountAt H C b = s.accountAt H C b :=
  accountAt_congr (congrFun h.accounts b)

/-- A lookup leaves the book alone when the key is the whole id. -/
theorem book (hid : Small id) : s'.book H C = s.book H C := by
  refine Book.ext (funext fun b => congrArg (Lookup.map _) (h.accountAt b)) (funext fun j => ?_)
  by_cases hj : j = u64 id
  · rw [hj, book_space_eq hid h.spaceAt, book_space_eq hid rfl]
  · exact book_space_congr (h.others j hj)

theorem reaches (hid : T → Small id) : Reaches H get C K T E s s' (s.book H C) :=
  ⟨h.moves.of_none, fun ht => h.book (hid ht)⟩

end FindsSpace

namespace Reaches

theorem refl (s : StateDB) : Reaches H get C K T E s s (s.book H C) := ⟨.refl, fun _ => rfl⟩

/-- An operation on the book after another one. -/
theorem andThen {F : Book → Book} (h : Reaches H get C K T E s s₁ B)
    (h' : Reaches H get C K T E s₁ s₂ (F (s₁.book H C))) :
    Reaches H get C K T E s s₂ (F B) :=
  ⟨h.moves.trans h'.moves, fun ht => by rw [h'.book ht, h.book ht]⟩

theorem congr {B' : Book} (h : Reaches H get C K T E s s' B) (hB : T → B = B') :
    Reaches H get C K T E s s' B' := ⟨h.moves, fun ht => (h.book ht).trans (hB ht)⟩

theorem mono (h : Reaches H get C K T E s s' B) (hle : E.Le E') :
    Reaches H get C K T E' s s' B := ⟨h.moves.mono hle, h.book⟩

theorem all (h : Reaches H get C K T E s s' B) : Reaches H get C K T .all s s' B :=
  h.mono (Edits.le_all E)

end Reaches

/-! ## Writes through a pointer

A method of an object does nothing, or writes once through the pointer to the object. -/

/-- What the method does to the holder of its account, which stays bound where it is. -/
def EditsAccount (f : StateDB → AccountObject → StateDB) (g : Holder → Holder) : Prop :=
  ∀ obj, g obj.holder = obj.holder ∧ (∀ s, f s obj = s) ∨ ∃ obj' : AccountObject,
    obj'.address = obj.address ∧ obj'.onDirty = obj.onDirty ∧
      obj'.data.bindSpaceId = obj.data.bindSpaceId ∧ obj'.holder = g obj.holder ∧
      ∀ s, f s obj = s.touchAccount obj'

/-- What the method does to the data of its space. -/
def EditsSpace (f : StateDB → SpaceObject → StateDB) (g : Space → Space) : Prop :=
  ∀ sp, g sp.data = sp.data ∧ (∀ s, f s sp = s) ∨ ∃ sp' : SpaceObject,
    sp'.id = sp.id ∧ sp'.onDirty = sp.onDirty ∧ sp'.data = g sp.data ∧
      ∀ s, f s sp = s.touchSpace sp'

section Edits

/-- The balance becomes a function of what it was. -/
theorem editsAccount_setBalanceGas (b : ℤ → ℤ) :
    EditsAccount (fun s obj => s.setBalanceGas obj (b obj.data.balance))
      fun h => { h with balance := b h.balance } := fun obj =>
  .inr ⟨{ obj with data := { obj.data with balance := b obj.data.balance } }, rfl, rfl, rfl, rfl,
    fun _ => rfl⟩

theorem editsAccount_addBalanceGas (amount : ℤ) :
    EditsAccount (fun s obj => s.addBalanceGas obj amount)
      fun h => { h with balance := h.balance + amount } := fun obj => by
  by_cases h0 : amount = 0
  · exact .inl ⟨by simp [h0], fun s => if_pos h0⟩
  · simpa only [StateDB.addBalanceGas, if_neg h0] using editsAccount_setBalanceGas (· + amount) obj

theorem editsAccount_subBalanceGas (amount : ℤ) :
    EditsAccount (fun s obj => s.subBalanceGas obj amount)
      fun h => { h with balance := h.balance - amount } := fun obj => by
  by_cases h0 : amount = 0
  · exact .inl ⟨by simp [h0], fun s => if_pos h0⟩
  · simpa only [StateDB.subBalanceGas, if_neg h0] using editsAccount_setBalanceGas (· - amount) obj

theorem editsAccount_setObjAttribute (key value : Bytes) :
    EditsAccount (fun s obj => s.setObjAttribute obj key value)
      fun h => { h with accountAttribute := h.accountAttribute.insert key value } := fun obj =>
  .inr ⟨{ obj with accountAttribute := obj.accountAttribute.insert key value }, rfl, rfl, rfl, rfl,
    fun _ => rfl⟩

theorem editsAccount_delObjAttribute (key : Bytes) :
    EditsAccount (fun s obj => s.delObjAttribute obj key)
      fun h => { h with accountAttribute := h.accountAttribute.erase key } := fun obj =>
  .inr ⟨{ obj with accountAttribute := obj.accountAttribute.erase key }, rfl, rfl, rfl, rfl,
    fun _ => rfl⟩

/-- A change of the balance counts the nonce up. -/
theorem editsSpace_setSpaceBalance (b : ℤ → ℤ) :
    EditsSpace (fun s sp => s.setSpaceBalance sp (b sp.data.balance))
      fun sp => { sp with balance := b sp.balance, nonce := sp.nonce + 1 } := fun sp =>
  .inr ⟨{ sp with data := { sp.data with
      balance := b sp.data.balance, nonce := sp.data.nonce + 1 } }, rfl, rfl, rfl, fun _ => rfl⟩

theorem editsSpace_addSpaceBalance (amount : ℤ) :
    EditsSpace (fun s sp => s.addSpaceBalance sp amount) (.add amount) := fun sp => by
  by_cases h0 : amount = 0
  · exact .inl ⟨if_pos h0, fun s => if_pos h0⟩
  · simpa only [StateDB.addSpaceBalance, Space.add, if_neg h0]
      using editsSpace_setSpaceBalance (· + amount) sp

theorem editsSpace_subSpaceBalance (amount : ℤ) :
    EditsSpace (fun s sp => s.subSpaceBalance sp amount) (.sub amount) := fun sp => by
  by_cases h0 : amount = 0
  · exact .inl ⟨if_pos h0, fun s => if_pos h0⟩
  · simpa only [StateDB.subSpaceBalance, Space.sub, if_neg h0]
      using editsSpace_setSpaceBalance (· - amount) sp

variable {f : Holder → Holder} {g : Space → Space} (h : Good H get C K s)
include h

/-- A write through the pointer to an account. -/
theorem Good.reaches_touchAccount (hc : s.accountObjects a = some obj)
    {obj' : AccountObject} (ha : obj'.address = obj.address) (hd : obj'.onDirty = obj.onDirty)
    (hid : K obj'.data.bindSpaceId) (hE : E.account obj obj') (hf : obj'.holder = f obj.holder) :
    Reaches H get C K T E s (s.touchAccount obj') ((s.book H C).onAccount a f) := by
  refine ⟨.single (.editAccount hc ha hd hid hE), fun _ => ?_⟩
  rw [book_touchAccount, Book.onAccount_of_found (book_account_of_cached hc), ha,
    h.accountKey a obj hc, hf]

/-- A write through the pointer to a space. -/
theorem Good.reaches_touchSpace (hc : s.spaceObjects i = some sp)
    {sp' : SpaceObject} (hi : sp'.id = sp.id) (hd : sp'.onDirty = sp.onDirty)
    (hE : E.space sp sp') (hf : sp'.data = g sp.data) :
    Reaches H get C K T E s (s.touchSpace sp') ((s.book H C).onSpace i g) := by
  refine ⟨.single (.editSpace hc hi hd hE), fun _ => ?_⟩
  rw [book_touchSpace, Book.onSpace_of_found (book_space_of_cached hc), hi, h.spaceKey i sp hc, hf]

/-- **A method of a cached account** does to the book what it does to the holder. -/
theorem Good.reaches_editAccount {F : StateDB → AccountObject → StateDB} (hF : EditsAccount F f)
    (hc : s.accountObjects a = some obj) :
    Reaches H get C K T .accounts s (F s obj) ((s.book H C).onAccount a f) := by
  obtain ⟨hf, hF⟩ | ⟨obj', ha, hd, hb, hf, hF⟩ := hF obj
  · have hfound : (s.book H C).account a = .found obj.holder := book_account_of_cached hc
    rw [hF, Book.onAccount_of_found hfound, hf, Book.setAccount_eq_self hfound]
    exact .refl s
  · rw [hF]
    exact h.reaches_touchAccount hc ha hd (hb ▸ h.bind a obj hc) trivial hf

/-- **A method of a cached space** does to the book what it does to the space. -/
theorem Good.reaches_editSpace {F : StateDB → SpaceObject → StateDB} (hF : EditsSpace F g)
    (hc : s.spaceObjects i = some sp) :
    Reaches H get C K T .spaces s (F s sp) ((s.book H C).onSpace i g) := by
  obtain ⟨hg, hF⟩ | ⟨sp', hi, hd, hg, hF⟩ := hF sp
  · have hfound : (s.book H C).space i = .found sp.data := book_space_of_cached hc
    rw [hF, Book.onSpace_of_found hfound, hg, Book.setSpace_eq_self hfound]
    exact .refl s
  · rw [hF]
    exact h.reaches_touchSpace hc hi hd trivial hg

end Edits

/-! ## Operations on one object -/

section

variable (hK : AllowsStored H C K) (h : Good H get C K s)
include hK h

/-- An operation on an account, given what its method does. -/
theorem Good.exists_withAccount (a : Address) {f : StateDB → AccountObject → StateDB}
    {g : Holder → Holder} (hf : EditsAccount f g) :
    ∃ s', s.withAccount H get a f = some s' ∧
      Reaches H get C K T .accounts s s' ((s.book H C).onAccount a g) := by
  obtain ⟨s₁, hget, hl⟩ := h.exists_getAccountObject a
  unfold StateDB.withAccount
  rw [hget, some_bind]
  cases hfound : s.accountAt H C a with
  | found obj =>
    exact ⟨_, rfl, hl.reaches.andThen (F := fun B => B.onAccount a g)
      ((h.moves hK hl.moves).reaches_editAccount hf ((hl.cache obj).mpr hfound))⟩
  | _ =>
    exact ⟨_, rfl, hl.reaches.congr fun _ => by rw [Book.onAccount, book_account_eq hfound]; rfl⟩

variable {f : StateDB → SpaceObject → StateDB} {g : Space → Space}

/-- An operation on a space. -/
theorem Good.exists_withSpace (hid : K n) (hT : T → Small n) (hf : EditsSpace f g) :
    ∃ s', s.withSpace H get n f = some s' ∧
      Reaches H get C K T .spaces s s' ((s.book H C).onSpace (u64 n) g) := by
  obtain ⟨s₁, hget, hl⟩ := h.exists_getSpaceObject n fun _ _ => hid
  unfold StateDB.withSpace
  rw [hget, some_bind]
  cases hfound : s.spaceAt H C n with
  | found sp =>
    exact ⟨_, rfl, (hl.reaches hT).andThen (F := fun B => B.onSpace (u64 n) g)
      ((h.moves hK hl.moves).reaches_editSpace hf ((hl.cache sp).mpr hfound))⟩
  | _ =>
    exact ⟨_, rfl, (hl.reaches hT).congr fun ht => by
      rw [Book.onSpace, book_space_eq (hT ht) hfound]; rfl⟩

/-- An operation on the space an account is bound to. -/
theorem Good.exists_withSpaceOf (hT : T → ∀ id, K id → Small id) (a : Address)
    (hf : EditsSpace f g) :
    ∃ s', s.withSpaceOf H get a f = some s' ∧
      Reaches H get C K T .spaces s s' ((s.book H C).onSpaceOf a g) := by
  obtain ⟨s₁, hget, hl⟩ := h.exists_getAccountObject a
  have hg₁ := h.moves hK hl.moves
  unfold StateDB.withSpaceOf StateDB.getSpaceObjectByAddr
  rw [hget, Option.bind_eq_bind, some_bind]
  cases hfound : s.accountAt H C a with
  | found obj =>
    have hbind := hg₁.bind a obj ((hl.cache obj).mpr hfound)
    obtain ⟨s₂, hs₂, hr⟩ := hg₁.exists_withSpace hK hbind (fun ht => hT ht _ hbind) hf
    refine ⟨s₂, hs₂, (hl.reaches.andThen (F := fun B => B.onSpace _ g) hr).congr fun _ => ?_⟩
    rw [Book.onSpaceOf, book_account_eq hfound]
    rfl
  | _ =>
    exact ⟨_, rfl, hl.reaches.congr fun _ => by rw [Book.onSpaceOf, book_account_eq hfound]; rfl⟩

end

/-! ## Binding accounts to spaces

Each part of `BindAddr`, `UnbindAddr` and `CreateSpaceAndBindAddr` does its part of the book's
operation.  They edit what binds accounts and spaces only, and create at most the account `b`. -/

section Binding

variable (hK : AllowsStored H C K) (b : Address)
include hK

theorem Good.exists_unassociate (h : Good H get C K s)
    (hacc : ∃ obj, s.accountObjects a = some obj) (hsp : ∃ sp, s.spaceObjects i = some sp) :
    ∃ s', s.unassociateSpaceAndAccount i a = some s' ∧
      Reaches H get C K T (.binding b) s s' ((s.book H C).unassociate i a) := by
  obtain ⟨obj, hobj⟩ := hacc
  obtain ⟨sp, hsp⟩ := hsp
  have hr₁ : Reaches H get C K T (.binding b) s (s.setSpaceID obj 0)
      ((s.book H C).bindTo a 0) :=
    h.reaches_touchAccount hobj rfl rfl hK.zero ⟨rfl, rfl⟩ rfl
  have hsp' : (s.setSpaceID obj 0).spaceObjects i = some sp := by
    rw [StateDB.setSpaceID, spaceObjects_touchAccount, hsp]
  have hr₂ : Reaches H get C K T (.binding b) _ ((s.setSpaceID obj 0).removeAddress sp a) _ :=
    (h.moves hK hr₁.moves).reaches_touchSpace hsp' (g := fun sp =>
      { sp with bindAddr := sp.bindAddr.filter fun b => decide (b ≠ a) }) rfl rfl rfl rfl
  refine ⟨_, ?_, hr₁.andThen (F := fun B => B.onSpace i _) hr₂⟩
  unfold StateDB.unassociateSpaceAndAccount
  simp only [hobj, hsp', some_bind]

section

variable (hT : T → ∀ id, K id → Small id)
include hT

theorem Good.exists_leaveSpace (h : Good H get C K s) (hobj : s.accountObjects a = some obj) :
    ∃ s', s.leaveSpace H get obj = some s' ∧
      Reaches H get C K T (.binding b) s s' ((s.book H C).leaveSpace a) := by
  have hbind := h.bind a obj hobj
  have haccount := book_account_of_cached (H := H) (C := C) hobj
  have hspace : T → (s.book H C).space obj.holder.bindSpaceId =
      (s.spaceAt H C obj.data.bindSpaceId).map SpaceObject.data := fun ht =>
    book_space_eq (hT ht _ hbind) rfl
  have hfull : T → obj.holder.empty = obj.empty := fun ht => empty_holder (hT ht _ hbind)
  unfold StateDB.leaveSpace
  cases hempty : obj.empty with
  | true =>
    exact ⟨s, rfl, (Reaches.refl s).congr fun ht => by
      simp only [Book.leaveSpace, haccount, hfull ht, hempty, if_true]⟩
  | false =>
    obtain ⟨s₁, hget, hl⟩ := h.exists_getSpaceObject _ fun _ _ => hbind
    have hg₁ := h.moves hK hl.moves
    have hr₁ := hl.reaches (T := T) (E := .binding b) fun ht => hT ht _ hbind
    rw [hget, some_bind]
    cases hfound : s.spaceAt H C obj.data.bindSpaceId with
    | found prev =>
      have hprev := (hl.cache prev).mpr hfound
      obtain ⟨s₂, hs₂, hr⟩ := hg₁.exists_unassociate (T := T) hK b (a := a)
        ⟨obj, by rw [hl.accounts, hobj]⟩ ⟨prev, hprev⟩
      refine ⟨s₂, ?_, (hr₁.andThen (F := fun B => B.unassociate _ a) hr).congr fun ht => by
        simp only [Book.leaveSpace, haccount, hfull ht, hempty, hspace ht, hfound, Lookup.map]; rfl⟩
      rw [← hs₂, h.accountKey a obj hobj, ← hg₁.spaceKey _ _ hprev]
      rfl
    | _ =>
      exact ⟨s₁, rfl, hr₁.congr fun ht => by
        simp only [Book.leaveSpace, haccount, hfull ht, hempty, hspace ht, hfound, Lookup.map]; rfl⟩

/-- **Moving an account to a space**, both being cached. -/
theorem Good.exists_associate (h : Good H get C K s)
    (hacc : ∃ obj, s.accountObjects a = some obj) (hsp : ∃ sp, s.spaceObjects i = some sp) :
    ∃ s', s.associateSpaceAndAccount H get i a = some s' ∧
      Reaches H get C K T (.binding b) s s' ((s.book H C).associate i a) := by
  obtain ⟨obj, hobj⟩ := hacc
  obtain ⟨s₁, hs₁, hr₁⟩ := h.exists_leaveSpace hK b hT hobj
  have hg₁ := h.moves hK hr₁.moves
  obtain ⟨obj₁, hobj₁⟩ := hr₁.moves.account_cached ⟨obj, hobj⟩
  obtain ⟨sp, hsp⟩ := hr₁.moves.space_cached hsp
  have hr₂ : Reaches H get C K T (.binding b) s₁ (s₁.setSpaceID obj₁ sp.id)
      ((s₁.book H C).bindTo a i) :=
    hg₁.reaches_touchAccount hobj₁ rfl rfl (hg₁.spaceId i sp hsp) ⟨rfl, rfl⟩
      (by rw [← hg₁.spaceKey i sp hsp]; rfl)
  have hsp' : (s₁.setSpaceID obj₁ sp.id).spaceObjects i = some sp := by
    rw [StateDB.setSpaceID, spaceObjects_touchAccount, hsp]
  have hr₃ : Reaches H get C K T (.binding b) _ ((s₁.setSpaceID obj₁ sp.id).appendAddress sp a)
      _ := (hg₁.moves hK hr₂.moves).reaches_touchSpace hsp'
        (g := fun sp => { sp with bindAddr := sp.bindAddr ++ [a] }) rfl rfl rfl rfl
  refine ⟨_, ?_, (hr₁.andThen (F := fun B => B.bindTo a i) hr₂).andThen
    (F := fun B => B.onSpace i _) hr₃⟩
  unfold StateDB.associateSpaceAndAccount
  simp only [hobj, hs₁, hobj₁, hsp, hsp', some_bind]

end

end Binding

/-- Where the lookup of an account fails, `createAccountObject` makes none. -/
theorem Good.exists_createAccountObject_of_failed (h : Good H get C K s) (walletid : UInt64)
    (hat : s.accountAt H C a = .failed) :
    ∃ s', s.createAccountObject H get walletid a = some (false, s') ∧
      FindsAccount H get C K a s s' := by
  obtain ⟨s₁, hget, hl⟩ := h.exists_getAccountObject a
  exact ⟨s₁, by rw [StateDB.createAccountObject, hget, hat]; rfl, hl⟩

/-- `createAccountObject` where there is no account. -/
theorem Good.exists_createAccountObject (h : Good H get C K s) (walletid : UInt64)
    (hE : E.create a) (hat : s.accountAt H C a = .absent) :
    ∃ s', s.createAccountObject H get walletid a = some (true, s') ∧
      (∃ obj, s'.accountObjects a = some obj) ∧
      Reaches H get C K T E s s' ((s.book H C).setAccount a ⟨0, 0, walletid, ∅⟩) := by
  obtain ⟨s₁, hget, hl⟩ := h.exists_getAccountObject a
  have hnone : s₁.accountObjects a = none := by
    rw [Option.eq_none_iff_forall_ne_some]
    intro obj hobj
    rw [hl.cache, hat] at hobj
    cases hobj
  have hstored : C.storedAccount H a = .absent := by
    rw [← hat, ← hl.accountAt a, StateDB.accountAt, hnone]
  refine ⟨_, by rw [StateDB.createAccountObject, hget, hat]; rfl, ⟨_, Function.update_self ..⟩,
    hl.moves.of_none.tail (.newAccount walletid hnone hstored hE), fun _ => ?_⟩
  rw [book_setAccountObject, hl.book]
  rfl

/-- `CreateSpaceObject`: the space is cached afterwards, and new if there was none. -/
theorem Good.exists_createSpaceObject (h : Good H get C K s) (hid : K id) (hT : T → Small id) :
    ∃ isNew s', s.createSpaceObject H get id = some (isNew, s') ∧
      (∃ sp, s'.spaceObjects (u64 id) = some sp) ∧
      (isNew = true ∧ (T → ∀ sp, (s.book H C).space (u64 id) ≠ .found sp) ∧
          Reaches H get C K T E s s' ((s.book H C).setSpace (u64 id) ⟨0, 0, []⟩) ∨
        isNew = false ∧ (T → ∃ sp, (s.book H C).space (u64 id) = .found sp) ∧
          Reaches H get C K T E s s' (s.book H C)) := by
  obtain ⟨s₁, hget, hl⟩ := h.exists_getSpaceObject id fun _ _ => hid
  unfold StateDB.createSpaceObject
  rw [hget, some_bind]
  cases hat : s.spaceAt H C id with
  | found sp =>
    exact ⟨false, s₁, rfl, ⟨sp, (hl.cache sp).mpr hat⟩,
      .inr ⟨rfl, fun ht => ⟨_, book_space_eq (hT ht) hat⟩, hl.reaches hT⟩⟩
  | _ =>
    have hnone : s₁.spaceObjects (u64 id) = none := by
      rw [Option.eq_none_iff_forall_ne_some]
      intro sp hsp
      rw [hl.cache, hat] at hsp
      cases hsp
    have hstored : ∀ sp, C.storedSpace H id ≠ .found sp := fun sp hst => by
      have hat₁ := hl.spaceAt
      rw [StateDB.spaceAt, hnone, hat, hst] at hat₁
      cases hat₁
    refine ⟨true, _, rfl, ⟨_, Function.update_self ..⟩, .inl ⟨rfl, fun ht sp => ?_,
      hl.moves.of_none.tail (.newSpace hid hnone hstored), fun ht => ?_⟩⟩
    · rw [book_space_eq (hT ht) hat]
      exact fun hc => by cases hc
    · rw [book_setSpaceObject, hl.book (hT ht)]
      rfl

section

variable (hK : AllowsStored H C K) (hT : T → ∀ n, K n → Small n)
  (h : Good H get C K s) (hid : K n)
include hK hT h hid

/-- **`BindAddr`** moves an account that is there to a space that is there, and gives out no wallet
id: where the lookup of an account fails, so does making one. -/
theorem Good.exists_bindAddr (walletid : UInt64) (a : Address) :
    ∃ s', s.bindAddr H get n walletid a = some (walletid, s') ∧
      Reaches H get C K T (.binding a) s s' ((s.book H C).bindAddr (u64 n) a) := by
  obtain ⟨s₁, hget₁, hl₁⟩ := h.exists_getSpaceObject n fun _ _ => hid
  have hg₁ := h.moves hK hl₁.moves
  obtain ⟨s₂, hget₂, hl₂⟩ := hg₁.exists_getAccountObject a
  have hg₂ := hg₁.moves hK hl₂.moves
  have hr₁ := hl₁.reaches (T := T) (E := .binding a) fun ht => hT ht _ hid
  have hr₂ : Reaches H get C K T (.binding a) s s₂ (s.book H C) :=
    hr₁.andThen (F := fun B => B) hl₂.reaches
  have hspace := fun ht => book_space_eq (H := H) (C := C) (s := s) (hT ht n hid) rfl
  have hfail : s.accountAt H C a = .failed → ∃ s₃,
      s₂.createAccountObject H get walletid a = some (false, s₃) ∧
      Reaches H get C K T (.binding a) s s₃ (s.book H C) := fun hat => by
    obtain ⟨s₃, hs₃, hl₃⟩ := hg₂.exists_createAccountObject_of_failed walletid (a := a)
      (by rw [hl₂.accountAt, hl₁.accountAt, hat])
    exact ⟨s₃, hs₃, hr₂.andThen (F := fun B => B) hl₃.reaches⟩
  unfold StateDB.bindAddr
  rw [hget₁, Option.bind_eq_bind, Option.bind_some]
  rw [hl₁.accountAt] at hget₂
  cases hsp : s.spaceAt H C n with
  | failed => exact ⟨s₁, rfl, hr₁.congr fun ht => by rw [Book.bindAddr, hspace ht, hsp]; rfl⟩
  | absent =>
    simp only [hget₂, Option.bind_eq_bind, Option.bind_some]
    cases hat : s.accountAt H C a with
    | failed =>
      obtain ⟨s₃, hs₃, hr₃⟩ := hfail hat
      simp only [hs₃, Option.bind_some]
      exact ⟨s₃, rfl, hr₃.congr fun ht => by rw [Book.bindAddr, hspace ht, hsp]; rfl⟩
    | _ => exact ⟨s₂, rfl, hr₂.congr fun ht => by rw [Book.bindAddr, hspace ht, hsp]; rfl⟩
  | found sp =>
    simp only [hget₂, Option.bind_eq_bind, Option.bind_some]
    cases hat : s.accountAt H C a with
    | absent =>
      exact ⟨s₂, rfl, hr₂.congr fun ht => by
        rw [Book.bindAddr, hspace ht, hsp, book_account_eq hat]; rfl⟩
    | failed =>
      obtain ⟨s₃, hs₃, hr₃⟩ := hfail hat
      simp only [hs₃, Option.bind_some]
      exact ⟨s₃, rfl, hr₃.congr fun ht => by
        rw [Book.bindAddr, hspace ht, hsp, book_account_eq hat]; rfl⟩
    | found obj =>
      have hsp₁ := (hl₁.cache sp).mpr hsp
      obtain ⟨s₃, hs₃, hr₃⟩ := hg₂.exists_associate hK a hT (i := u64 n)
        ⟨obj, (hl₂.cache obj).mpr (by rw [hl₁.accountAt, hat])⟩ ⟨sp, by rw [hl₂.spaces, hsp₁]⟩
      simp only [hg₁.spaceKey _ _ hsp₁, hs₃, Option.bind_some]
      exact ⟨s₃, rfl, (hr₂.andThen (F := fun B => B.associate _ a) hr₃).congr fun ht => by
        rw [Book.bindAddr, hspace ht, hsp, book_account_eq hat]; rfl⟩

/-- **`UnbindAddr`.** -/
theorem Good.exists_unbindAddr (a : Address) :
    ∃ s', s.unbindAddr H get n a = some s' ∧
      Reaches H get C K T (.binding a) s s' ((s.book H C).unbindAddr (u64 n) a) := by
  obtain ⟨s₁, hget₁, hl₁⟩ := h.exists_getSpaceObject n fun _ _ => hid
  have hg₁ := h.moves hK hl₁.moves
  obtain ⟨s₂, hget₂, hl₂⟩ := hg₁.exists_getAccountObject a
  have hr₁ := hl₁.reaches (T := T) (E := .binding a) fun ht => hT ht _ hid
  have hr₂ : Reaches H get C K T (.binding a) s s₂ (s.book H C) :=
    hr₁.andThen (F := fun B => B) hl₂.reaches
  have hspace := fun ht => book_space_eq (H := H) (C := C) (s := s) (hT ht n hid) rfl
  unfold StateDB.unbindAddr
  rw [hget₁, some_bind]
  rw [hl₁.accountAt] at hget₂
  cases hsp : s.spaceAt H C n with
  | found sp =>
    simp only [hget₂, some_bind]
    cases hat : s.accountAt H C a with
    | found obj =>
      have hsp₁ := (hl₁.cache sp).mpr hsp
      obtain ⟨s₃, hs₃, hr₃⟩ := (hg₁.moves hK hl₂.moves).exists_unassociate (T := T) hK a
        (i := u64 n) ⟨obj, (hl₂.cache obj).mpr (by rw [hl₁.accountAt, hat])⟩
        ⟨sp, by rw [hl₂.spaces, hsp₁]⟩
      simp only [hg₁.spaceKey _ _ hsp₁, hs₃]
      exact ⟨s₃, rfl, (hr₂.andThen (F := fun B => B.unassociate _ a) hr₃).congr fun ht => by
        rw [Book.unbindAddr, hspace ht, hsp, book_account_eq hat]; rfl⟩
    | _ =>
      exact ⟨s₂, rfl, hr₂.congr fun ht => by
        rw [Book.unbindAddr, hspace ht, hsp, book_account_eq hat]; rfl⟩
  | _ => exact ⟨s₁, rfl, hr₁.congr fun ht => by rw [Book.unbindAddr, hspace ht, hsp]; rfl⟩

/-- A space is made where there is none, and a cached account moves to it; then the call goes on
with `k`. -/
theorem Good.exists_settleAt (b : Address) (hacc : ∃ obj, s.accountObjects a = some obj) :
    ∃ isNew s₁ s', s.createSpaceObject H get n = some (isNew, s₁) ∧
      (∀ {β : Type} (k : StateDB → Option β), (if isNew = true then
          (s₁.associateSpaceAndAccount H get (u64 n) a).bind k else k s₁) = k s') ∧
      Reaches H get C K T (.binding b) s s' ((s.book H C).settleAt (u64 n) a) := by
  obtain ⟨isNew, s₁, hs₁, hsp, ⟨rfl, hno, hr₁⟩ | ⟨rfl, hyes, hr₁⟩⟩ :=
    h.exists_createSpaceObject (E := .binding b) hid fun ht => hT ht _ hid
  · obtain ⟨s₂, hs₂, hr₂⟩ := (h.moves hK hr₁.moves).exists_associate hK b hT
      (hr₁.moves.account_cached hacc) hsp
    refine ⟨true, s₁, s₂, hs₁, fun k => by rw [if_pos rfl, hs₂, Option.bind_some],
      (hr₁.andThen (F := fun B => B.associate _ a) hr₂).congr fun ht => ?_⟩
    exact (Book.settleAt_of_not (hno ht)).symm
  · refine ⟨false, s₁, s₁, hs₁, fun k => if_neg nofun, hr₁.congr fun ht => ?_⟩
    obtain ⟨sp, hfound⟩ := hyes ht
    rw [Book.settleAt, hfound]

/-- **`CreateSpaceAndBindAddr`** does what the book says and returns the next wallet id; unless
the lookup fails, there is an account afterwards. -/
theorem Good.exists_createSpaceAndBindAddr (walletid : UInt64) (a : Address) :
    ∃ s', s.createSpaceAndBindAddr H get n walletid a
        = some (((s.book H C).createSpaceAndBindAddr (u64 n) walletid a).1, s') ∧
      Reaches H get C K T (.binding a) s s'
        ((s.book H C).createSpaceAndBindAddr (u64 n) walletid a).2 ∧
      (s.accountAt H C a ≠ .failed → ∃ obj, s'.accountObjects a = some obj) := by
  obtain ⟨s₁, hget₁, hl₁⟩ := h.exists_getAccountObject a
  have hg₁ := h.moves hK hl₁.moves
  have hr₁ := hl₁.reaches (T := T) (E := .binding a)
  unfold StateDB.createSpaceAndBindAddr Book.createSpaceAndBindAddr
  rw [hget₁, Option.bind_eq_bind, Option.bind_some, book_account_eq rfl]
  cases hat : s.accountAt H C a with
  | found obj =>
    have hobj := (hl₁.cache obj).mpr hat
    obtain ⟨isNew, s₂, s₃, hs₂, hs₃, hr₃⟩ := hg₁.exists_settleAt hK hT hid a ⟨obj, hobj⟩
    simp only [hs₂, hs₃, Option.bind_eq_bind, Option.bind_some]
    exact ⟨s₃, rfl, hr₁.andThen (F := fun B => B.settleAt _ a) hr₃,
      fun _ => hr₃.moves.account_cached ⟨obj, hobj⟩⟩
  | absent =>
    obtain ⟨s₂, hs₂, hobj, hr₂⟩ := hg₁.exists_createAccountObject (T := T) (E := .binding a)
      walletid rfl (by rw [hl₁.accountAt, hat])
    obtain ⟨isNew, s₃, s₄, hs₃, hs₄, hr₄⟩ :=
      (hg₁.moves hK hr₂.moves).exists_settleAt hK hT hid a hobj
    simp only [hs₂, hs₃, hs₄, Bool.and_true, Option.bind_eq_bind, Option.bind_some]
    exact ⟨s₄, rfl, (hr₁.andThen (F := fun B => B.setAccount a _) hr₂).andThen
      (F := fun B => B.settleAt _ a) hr₄, fun _ => hr₄.moves.account_cached hobj⟩
  | failed =>
    obtain ⟨s₂, hs₂, hl₂⟩ := hg₁.exists_createAccountObject_of_failed walletid (a := a)
      (by rw [hl₁.accountAt, hat])
    obtain ⟨isNew, s₃, hs₃, -, hcases⟩ := (hg₁.moves hK hl₂.moves).exists_createSpaceObject (T := T)
      (E := .binding a) hid fun ht => hT ht _ hid
    simp only [hs₂, hs₃, Bool.and_false, Option.bind_eq_bind, Option.bind_some]
    refine ⟨s₃, rfl, (hr₁.andThen (F := fun B => B) hl₂.reaches).andThen
      (F := fun B => B.createSpace (u64 n)) ?_, fun hne => absurd rfl hne⟩
    rcases hcases with ⟨-, hno, hr₃⟩ | ⟨-, hyes, hr₃⟩
    · exact hr₃.congr fun ht => (Book.createSpace_of_not (hno ht)).symm
    · refine hr₃.congr fun ht => ?_
      obtain ⟨sp, hfound⟩ := hyes ht
      rw [Book.createSpace, hfound]

end

/-! ## Runs of operations -/

/-- The operations of the state. -/
inductive Op where
  | setBalance (addr : Address) (amount : ℤ)
  | addBalance (addr : Address) (amount : ℤ)
  | subBalance (addr : Address) (amount : ℤ)
  | setAttribute (addr : Address) (key value : Bytes)
  | delAttribute (addr : Address) (key : Bytes)
  | createSpaceAndBindAddr (id : ℕ) (walletid : UInt64) (addr : Address)
  | bindAddr (id : ℕ) (walletid : UInt64) (addr : Address)
  | unbindAddr (id : ℕ) (addr : Address)
  | addSpaceBalanceByID (id : ℕ) (amount : ℤ)
  | subSpaceBalanceByID (id : ℕ) (amount : ℤ)
  | addSpaceBalanceByAddress (addr : Address) (amount : ℤ)
  | subSpaceBalanceByAddress (addr : Address) (amount : ℤ)
  | setSpaceBalanceByAddress (addr : Address) (amount : ℤ)

/-- The space id an operation names. -/
def Op.id? : Op → Option ℕ
  | .createSpaceAndBindAddr id _ _ => some id
  | .bindAddr id _ _ => some id
  | .unbindAddr id _ => some id
  | .addSpaceBalanceByID id _ => some id
  | .subSpaceBalanceByID id _ => some id
  | _ => none

section Run

variable (H : HashFn) (get : Nodes)

/-- One operation. -/
def Op.run (s : StateDB) : Op → Option StateDB
  | .setBalance addr amount => s.setBalance H get addr amount
  | .addBalance addr amount => s.addBalance H get addr amount
  | .subBalance addr amount => s.subBalance H get addr amount
  | .setAttribute addr key value => s.setAttribute H get addr key value
  | .delAttribute addr key => s.delAttribute H get addr key
  | .createSpaceAndBindAddr id walletid addr =>
    (s.createSpaceAndBindAddr H get id walletid addr).map Prod.snd
  | .bindAddr id walletid addr => (s.bindAddr H get id walletid addr).map Prod.snd
  | .unbindAddr id addr => s.unbindAddr H get id addr
  | .addSpaceBalanceByID id amount => s.addSpaceBalanceByID H get id amount
  | .subSpaceBalanceByID id amount => s.subSpaceBalanceByID H get id amount
  | .addSpaceBalanceByAddress addr amount => s.addSpaceBalanceByAddress H get addr amount
  | .subSpaceBalanceByAddress addr amount => s.subSpaceBalanceByAddress H get addr amount
  | .setSpaceBalanceByAddress addr amount => s.setSpaceBalanceByAddress H get addr amount

/-- The state opened at two roots, after a sequence of operations. -/
def execute (rootSpace rootAccount : Hash) (ops : List Op) : Option StateDB :=
  match State.new get rootSpace rootAccount with
  | .error _ => none
  | .ok s => ops.foldlM (Op.run H get) s

end Run

/-- One operation of the state, on a book. -/
def Book.run (B : Book) : Op → Book
  | .setBalance a amount => B.onAccount a fun h => { h with balance := amount }
  | .addBalance a amount => B.onAccount a fun h => { h with balance := h.balance + amount }
  | .subBalance a amount => B.onAccount a fun h => { h with balance := h.balance - amount }
  | .setAttribute a key value =>
    B.onAccount a fun h => { h with accountAttribute := h.accountAttribute.insert key value }
  | .delAttribute a key =>
    B.onAccount a fun h => { h with accountAttribute := h.accountAttribute.erase key }
  | .createSpaceAndBindAddr id walletid a => (B.createSpaceAndBindAddr (u64 id) walletid a).2
  | .bindAddr id _ a => B.bindAddr (u64 id) a
  | .unbindAddr id a => B.unbindAddr (u64 id) a
  | .addSpaceBalanceByID id amount => B.onSpace (u64 id) (.add amount)
  | .subSpaceBalanceByID id amount => B.onSpace (u64 id) (.sub amount)
  | .addSpaceBalanceByAddress a amount => B.onSpaceOf a (.add amount)
  | .subSpaceBalanceByAddress a amount => B.onSpaceOf a (.sub amount)
  | .setSpaceBalanceByAddress a amount =>
    B.onSpaceOf a fun sp => { sp with balance := amount, nonce := sp.nonce + 1 }

section

variable (hK : AllowsStored H C K) (hT : T → ∀ id, K id → Small id)
include hK hT

/-- **Every operation returns and does what the book says.** -/
theorem Good.exists_run {op : Op} (hid : ∀ id, op.id? = some id → K id) (h : Good H get C K s) :
    ∃ s', op.run H get s = some s' ∧ Reaches H get C K T .all s s' ((s.book H C).run op) := by
  have hall : ∀ {E : Edits} {r : Option StateDB} {B : Book},
      (∃ s', r = some s' ∧ Reaches H get C K T E s s' B) →
      ∃ s', r = some s' ∧ Reaches H get C K T .all s s' B := fun ⟨s', hs', hr⟩ =>
    ⟨s', hs', hr.all⟩
  cases op with
  | setBalance a amount =>
    exact hall (h.exists_withAccount hK a (editsAccount_setBalanceGas fun _ => amount))
  | addBalance a amount =>
    exact hall (h.exists_withAccount hK a (editsAccount_addBalanceGas amount))
  | subBalance a amount =>
    exact hall (h.exists_withAccount hK a (editsAccount_subBalanceGas amount))
  | setAttribute a key value =>
    exact hall (h.exists_withAccount hK a (editsAccount_setObjAttribute key value))
  | delAttribute a key =>
    exact hall (h.exists_withAccount hK a (editsAccount_delObjAttribute key))
  | createSpaceAndBindAddr id walletid a =>
    obtain ⟨s', hs', hr, -⟩ := h.exists_createSpaceAndBindAddr hK hT (hid id rfl) walletid a
    exact ⟨s', by rw [Op.run, hs']; rfl, hr.all⟩
  | bindAddr id walletid a =>
    obtain ⟨s', hs', hr⟩ := h.exists_bindAddr hK hT (hid id rfl) walletid a
    exact ⟨s', by rw [Op.run, hs']; rfl, hr.all⟩
  | unbindAddr id a => exact hall (h.exists_unbindAddr hK hT (hid id rfl) a)
  | addSpaceBalanceByID id amount =>
    exact hall (h.exists_withSpace hK (hid id rfl) (fun ht => hT ht _ (hid id rfl))
      (editsSpace_addSpaceBalance amount))
  | subSpaceBalanceByID id amount =>
    exact hall (h.exists_withSpace hK (hid id rfl) (fun ht => hT ht _ (hid id rfl))
      (editsSpace_subSpaceBalance amount))
  | addSpaceBalanceByAddress a amount =>
    exact hall (h.exists_withSpaceOf hK hT a (editsSpace_addSpaceBalance amount))
  | subSpaceBalanceByAddress a amount =>
    exact hall (h.exists_withSpaceOf hK hT a (editsSpace_subSpaceBalance amount))
  | setSpaceBalanceByAddress a amount =>
    exact hall (h.exists_withSpaceOf hK hT a (editsSpace_setSpaceBalance fun _ => amount))

/-- **…and so does a run of operations.** -/
theorem Good.exists_runAll {ops : List Op} (hids : ∀ op ∈ ops, ∀ id, op.id? = some id → K id)
    (h : Good H get C K s) :
    ∃ s', ops.foldlM (Op.run H get) s = some s' ∧
      Reaches H get C K T .all s s' (ops.foldl Book.run (s.book H C)) := by
  induction ops generalizing s with
  | nil => exact ⟨s, rfl, .refl s⟩
  | cons op ops ih =>
    obtain ⟨s₁, hs₁, hr₁⟩ := h.exists_run hK hT (hids op List.mem_cons_self)
    obtain ⟨s₂, hs₂, hr₂⟩ :=
      ih (fun op' hop' => hids op' (List.mem_cons_of_mem op hop')) (h.moves hK hr₁.moves)
    exact ⟨s₂, by rw [List.foldlM_cons, hs₁]; exact hs₂,
      hr₁.andThen (F := fun B => ops.foldl Book.run B) hr₂⟩

end

end Gocoin.State
