import Gocoin.State.Moves

/-!
# State/Book — the state as a book of holders and spaces

Over the caches and the tries lies a simpler thing: a book that says of every address what is known
of its account and of every id what is known of its space.  The operations of the state are plain
functions on books — no lookup, no cache, no dirty set.  Putting an object into a cache is a change
of one entry of the book (`book_setAccountObject`, `book_setSpaceObject`); that every operation does
to the book what the book's own operation says is the subject of `State/Operations`.
-/

namespace Gocoin.State

open Trie

/-- The result of a lookup, seen through a function. -/
def Lookup.map {α β : Type} (f : α → β) : Lookup α → Lookup β
  | .found obj => .found (f obj)
  | .absent => .absent
  | .failed => .failed

/-- What the book keeps of an account. -/
structure Holder where
  bindSpaceId : UInt64
  balance : ℤ
  walletID : UInt64
  accountAttribute : Attributes

/-- The account is considered empty. -/
def Holder.empty (h : Holder) : Bool :=
  decide (h.bindSpaceId = 0) && decide (h.accountAttribute.entries = []) && decide (h.balance = 0)

/-- The holder an account object stands for. -/
def AccountObject.holder (obj : AccountObject) : Holder :=
  ⟨u64 obj.data.bindSpaceId, obj.data.balance, obj.data.walletID, obj.accountAttribute⟩

/-- Adding to the balance of a space; nothing is counted when nothing is added. -/
def Space.add (amount : ℤ) (sp : Space) : Space :=
  if amount = 0 then sp else { sp with balance := sp.balance + amount, nonce := sp.nonce + 1 }

/-- Subtracting from the balance of a space. -/
def Space.sub (amount : ℤ) (sp : Space) : Space :=
  if amount = 0 then sp else { sp with balance := sp.balance - amount, nonce := sp.nonce + 1 }

/-- A book of accounts and spaces. -/
@[ext] structure Book where
  account : Address → Lookup Holder
  space : UInt64 → Lookup Space

namespace Book

section Operations

variable (B : Book)

/-- The account of an address becomes this one. -/
def setAccount (a : Address) (h : Holder) : Book :=
  { B with account := Function.update B.account a (.found h) }

/-- The space of an id becomes this one. -/
def setSpace (i : UInt64) (sp : Space) : Book :=
  { B with space := Function.update B.space i (.found sp) }

/-- A change of an account, if there is one. -/
def onAccount (a : Address) (f : Holder → Holder) : Book :=
  match B.account a with
  | .found h => B.setAccount a (f h)
  | _ => B

/-- A change of a space, if there is one. -/
def onSpace (i : UInt64) (f : Space → Space) : Book :=
  match B.space i with
  | .found sp => B.setSpace i (f sp)
  | _ => B

/-- A change of the space an account is bound to. -/
def onSpaceOf (a : Address) (f : Space → Space) : Book :=
  match B.account a with
  | .found h => B.onSpace h.bindSpaceId f
  | _ => B

/-- The account is bound to an id. -/
def bindTo (a : Address) (i : UInt64) : Book := B.onAccount a fun h => { h with bindSpaceId := i }

/-- The account loses its space, and the space every entry of the account. -/
def unassociate (i : UInt64) (a : Address) : Book :=
  (B.bindTo a 0).onSpace i fun sp =>
    { sp with bindAddr := sp.bindAddr.filter fun b => decide (b ≠ a) }

/-- A nonempty account is taken from the space it is bound to, if there is one. -/
def leaveSpace (a : Address) : Book :=
  match B.account a with
  | .found h =>
    if h.empty then B
    else
      match B.space h.bindSpaceId with
      | .found _ => B.unassociate h.bindSpaceId a
      | _ => B
  | _ => B

/-- The account moves to a space. -/
def associate (i : UInt64) (a : Address) : Book :=
  ((B.leaveSpace a).bindTo a i).onSpace i fun sp => { sp with bindAddr := sp.bindAddr ++ [a] }

/-- A space is made where there is none. -/
def createSpace (i : UInt64) : Book :=
  match B.space i with
  | .found _ => B
  | _ => B.setSpace i ⟨0, 0, []⟩

/-- A space is made where there is none, and the account moves to it. -/
def settleAt (i : UInt64) (a : Address) : Book :=
  match B.space i with
  | .found _ => B
  | _ => (B.setSpace i ⟨0, 0, []⟩).associate i a

/-- `CreateSpaceAndBindAddr`, with the next wallet id. -/
def createSpaceAndBindAddr (i : UInt64) (walletid : UInt64) (a : Address) : UInt64 × Book :=
  match B.account a with
  | .found _ => (walletid, B.settleAt i a)
  | .absent => (walletid + 1, (B.setAccount a ⟨0, 0, walletid, ∅⟩).settleAt i a)
  | .failed => (walletid, B.createSpace i)

/-- `BindAddr`: an account that is there moves to a space that is there. -/
def bindAddr (i : UInt64) (a : Address) : Book :=
  match B.space i, B.account a with
  | .found _, .found _ => B.associate i a
  | _, _ => B

/-- `UnbindAddr`. -/
def unbindAddr (i : UInt64) (a : Address) : Book :=
  match B.space i, B.account a with
  | .found _, .found _ => B.unassociate i a
  | _, _ => B

end Operations

/-! ## Reading a changed book -/

section Reading

variable {B : Book} {a b : Address} {i j : UInt64} {h : Holder} {sp : Space}

@[simp] theorem account_setAccount_self : (B.setAccount a h).account a = .found h :=
  Function.update_self ..

theorem account_setAccount_of_ne (hb : b ≠ a) : (B.setAccount a h).account b = B.account b :=
  Function.update_of_ne hb ..

@[simp] theorem space_setSpace_self : (B.setSpace i sp).space i = .found sp :=
  Function.update_self ..

theorem space_setSpace_of_ne (hj : j ≠ i) : (B.setSpace i sp).space j = B.space j :=
  Function.update_of_ne hj ..

theorem setAccount_eq_self (ha : B.account a = .found h) : B.setAccount a h = B := by
  unfold setAccount
  rw [← ha, Function.update_eq_self]

theorem setSpace_eq_self (hi : B.space i = .found sp) : B.setSpace i sp = B := by
  unfold setSpace
  rw [← hi, Function.update_eq_self]

theorem onAccount_of_found {f : Holder → Holder} (ha : B.account a = .found h) :
    B.onAccount a f = B.setAccount a (f h) := by
  rw [onAccount, ha]

theorem settleAt_of_not (hi : ∀ sp, B.space i ≠ .found sp) :
    B.settleAt i a = (B.setSpace i ⟨0, 0, []⟩).associate i a := by
  unfold settleAt
  split
  · next sp hfound => exact absurd hfound (hi sp)
  · rfl

theorem createSpace_of_not (hi : ∀ sp, B.space i ≠ .found sp) :
    B.createSpace i = B.setSpace i ⟨0, 0, []⟩ := by
  unfold createSpace
  split
  · next sp hfound => exact absurd hfound (hi sp)
  · rfl

variable {f : Space → Space}

theorem onSpace_of_found (hi : B.space i = .found sp) : B.onSpace i f = B.setSpace i (f sp) := by
  rw [onSpace, hi]

theorem onSpace_of_not (hi : ∀ sp, B.space i ≠ .found sp) : B.onSpace i f = B := by
  unfold onSpace
  split
  · next sp hfound => exact absurd hfound (hi sp)
  · rfl

end Reading

end Book

/-! ## The book of a state -/

section Shown

variable (H : HashFn) (C : Contents)

/-- The book of a state: what it shows of every account and every space. -/
def StateDB.book (s : StateDB) : Book where
  account := fun a => (s.accountAt H C a).map AccountObject.holder
  space := fun i => (s.spaceAt H C i.toNat).map SpaceObject.data

variable {H C} {s s' : StateDB} {a : Address} {i : UInt64}
  {id : ℕ} {obj : AccountObject} {sp : SpaceObject}

/-- The ids the cache keys tell apart. -/
abbrev Small (id : ℕ) : Prop := id < 2 ^ 64

/-- What is shown of an account depends on its own cache entry. -/
theorem accountAt_congr (h : s'.accountObjects a = s.accountObjects a) :
    s'.accountAt H C a = s.accountAt H C a := by
  unfold StateDB.accountAt
  rw [h]

/-- …and what is shown of a space on the entry of its key. -/
theorem spaceAt_congr (h : s'.spaceObjects (u64 id) = s.spaceObjects (u64 id)) :
    s'.spaceAt H C id = s.spaceAt H C id := by
  unfold StateDB.spaceAt
  rw [h]

theorem book_account_of_cached (h : s.accountObjects a = some obj) :
    (s.book H C).account a = .found obj.holder := by
  show (s.accountAt H C a).map _ = _
  rw [StateDB.accountAt, h]
  rfl

theorem book_space_of_cached (h : s.spaceObjects i = some sp) :
    (s.book H C).space i = .found sp.data := by
  show (s.spaceAt H C i.toNat).map _ = _
  rw [StateDB.spaceAt, u64_toNat, h]
  rfl

theorem book_account_eq {r : Lookup AccountObject} (h : s.accountAt H C a = r) :
    (s.book H C).account a = r.map AccountObject.holder :=
  congrArg (Lookup.map _) h

theorem book_space_eq {r : Lookup SpaceObject} (hid : Small id) (h : s.spaceAt H C id = r) :
    (s.book H C).space (u64 id) = r.map SpaceObject.data := by
  show (s.spaceAt H C (u64 id).toNat).map _ = _
  rw [toNat_u64 hid, h]

/-- The book has of an account what the cache has, given the stored ones. -/
theorem book_account_congr (h : s'.accountObjects a = s.accountObjects a) :
    (s'.book H C).account a = (s.book H C).account a := by
  show (s'.accountAt H C a).map _ = (s.accountAt H C a).map _
  rw [accountAt_congr h]

theorem book_space_congr (h : s'.spaceObjects i = s.spaceObjects i) :
    (s'.book H C).space i = (s.book H C).space i := by
  show (s'.spaceAt H C i.toNat).map _ = (s.spaceAt H C i.toNat).map _
  rw [← u64_toNat i] at h
  rw [spaceAt_congr h]

/-- An account object enters the cache. -/
theorem book_setAccountObject (s : StateDB) (obj : AccountObject) :
    (s.setAccountObject obj).book H C
      = (s.book H C).setAccount obj.address obj.holder := by
  refine Book.ext (funext fun b => ?_) rfl
  by_cases hb : b = obj.address
  · subst hb
    rw [Book.account_setAccount_self]
    exact book_account_of_cached (Function.update_self ..)
  · rw [Book.account_setAccount_of_ne hb]
    exact book_account_congr (Function.update_of_ne hb ..)

/-- A space object enters the cache. -/
theorem book_setSpaceObject (s : StateDB) (sp : SpaceObject) :
    (s.setSpaceObject sp).book H C
      = (s.book H C).setSpace (u64 sp.id) sp.data := by
  refine Book.ext rfl (funext fun j => ?_)
  by_cases hj : j = u64 sp.id
  · subst hj
    rw [Book.space_setSpace_self]
    exact book_space_of_cached (Function.update_self ..)
  · rw [Book.space_setSpace_of_ne hj]
    exact book_space_congr (Function.update_of_ne hj ..)

theorem book_touchAccount (s : StateDB) (obj : AccountObject) :
    (s.touchAccount obj).book H C = (s.book H C).setAccount obj.address obj.holder := by
  unfold StateDB.touchAccount
  split <;> exact book_setAccountObject _ _

theorem book_touchSpace (s : StateDB) (sp : SpaceObject) :
    (s.touchSpace sp).book H C = (s.book H C).setSpace (u64 sp.id) sp.data := by
  unfold StateDB.touchSpace
  split <;> exact book_setSpaceObject _ _

/-- With a small id, the account is empty to the book exactly when it is empty to the code. -/
theorem empty_holder (hid : Small obj.data.bindSpaceId) : obj.holder.empty = obj.empty := by
  have hzero : decide (u64 obj.data.bindSpaceId = 0) = decide (obj.data.bindSpaceId = 0) :=
    decide_eq_decide.mpr ⟨fun h => u64_inj hid (by norm_num) h, fun h => by rw [h]; rfl⟩
  rw [AccountObject.empty, ← hzero]
  rfl

end Shown

end Gocoin.State
