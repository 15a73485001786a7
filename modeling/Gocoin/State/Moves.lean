import Mathlib.Logic.Relation
import Gocoin.Trie.Maps
import Gocoin.State.StateDB

/-!
# State/Moves — what the operations do to a state

Every operation of the state is made of a few moves: a trie loads nodes, an object enters a cache —
read from its trie or new — and a cached object is edited through its pointer.  `Move` lists them;
what an operation may edit is a parameter (`Edits`), and so is the set of space ids it may look up.
A state over healthy tries is `Good`, moves keep it so, and on a good state no operation crashes:
each one is a run of moves.
-/

namespace Gocoin.State

open Trie

/-- The maps the two tries of a state stand for. -/
structure Contents where
  space : HashMap
  account : HashMap

/-- The tries are empty. -/
def Contents.nothing : Contents := ⟨fun _ => none, fun _ => none⟩

/-- The account a stored string stands for. -/
def readAccount (addr : Address) (enc : Bytes) : Lookup AccountObject :=
  if enc.length = 0 then .absent
  else
    match Account.decode enc with
    | none => .failed
    | some acc => .found (newAccountObject addr acc)

/-- The space a stored string stands for. -/
def readSpace (id : ℕ) (enc : Bytes) : Lookup SpaceObject :=
  if enc.length = 0 then .absent
  else
    match Space.decode enc with
    | none => .failed
    | some space => .found (newSpaceObject id space)

section Stored

variable (H : HashFn) (C : Contents)

/-- The account in the trie. -/
def Contents.storedAccount (addr : Address) : Lookup AccountObject :=
  readAccount addr ((C.account (H addr.bytes)).getD [])

/-- The space in the trie. -/
def Contents.storedSpace (id : ℕ) : Lookup SpaceObject :=
  readSpace id ((C.space (H (BigEndian.toBytes id))).getD [])

/-- What the state shows of an account: the cached object, or else the stored one. -/
def StateDB.accountAt (s : StateDB) (addr : Address) : Lookup AccountObject :=
  match s.accountObjects addr with
  | some obj => .found obj
  | none => C.storedAccount H addr

/-- What the state shows of a space. -/
def StateDB.spaceAt (s : StateDB) (id : ℕ) : Lookup SpaceObject :=
  match s.spaceObjects (u64 id) with
  | some obj => .found obj
  | none => C.storedSpace H id

end Stored

section Caches

variable {α β : Type} [DecidableEq α]

variable {f : α → Option β} {x : α}

/-- An entry of an updated cache is the new one or an old one. -/
theorem eq_or_of_update_eq_some {a : α} {b y : β} (h : Function.update f a (some b) x = some y) :
    (x = a ∧ y = b) ∨ f x = some y := by
  by_cases hx : x = a
  · rw [hx, Function.update_self] at h
    exact .inl ⟨hx, (Option.some.inj h).symm⟩
  · rw [Function.update_of_ne hx] at h
    exact .inr h

/-- What a map has under a key, it has after an update. -/
theorem exists_update_eq_some (a : α) (b : β) (h : ∃ y, f x = some y) :
    ∃ y, Function.update f a (some b) x = some y := by
  by_cases hx : x = a
  · exact ⟨b, by rw [hx, Function.update_self]⟩
  · rwa [Function.update_of_ne hx]

end Caches

variable {addr : Address} {enc : Bytes} {i : UInt64}

/-- A stored account is read under its address, and its first change will mark it as dirty… -/
theorem address_of_readAccount {obj : AccountObject} (h : readAccount addr enc = .found obj) :
    obj.address = addr ∧ obj.onDirty = true := by
  unfold readAccount at h
  split at h
  · cases h
  · split at h
    · cases h
    · cases h
      exact ⟨rfl, rfl⟩

/-- …and a stored space under its id. -/
theorem id_of_readSpace {id : ℕ} {obj : SpaceObject} (h : readSpace id enc = .found obj) :
    obj.id = id ∧ obj.onDirty = true := by
  unfold readSpace at h
  split at h
  · cases h
  · split at h
    · cases h
    · cases h
      exact ⟨rfl, rfl⟩

/-- What moves may do to the objects, and which accounts they may create. -/
structure Edits where
  account : AccountObject → AccountObject → Prop
  space : SpaceObject → SpaceObject → Prop
  create : Address → Prop

/-- Everything is allowed. -/
def Edits.all : Edits := ⟨fun _ _ => True, fun _ _ => True, fun _ => True⟩

/-- Nothing may change. -/
def Edits.none : Edits := ⟨fun _ _ => False, fun _ _ => False, fun _ => False⟩

/-- Only accounts may change. -/
def Edits.accounts : Edits := ⟨fun _ _ => True, fun _ _ => False, fun _ => False⟩

/-- Only spaces may change. -/
def Edits.spaces : Edits := ⟨fun _ _ => False, fun _ _ => True, fun _ => False⟩

/-- Everything may change but the balances of spaces. -/
def Edits.calm : Edits :=
  ⟨fun _ _ => True, fun obj obj' => obj'.data.balance = obj.data.balance, fun _ => True⟩

/-- Everything may change but the attributes of accounts. -/
def Edits.besideAttributes : Edits :=
  ⟨fun obj obj' => obj'.accountAttribute = obj.accountAttribute, fun _ _ => True, fun _ => True⟩

/-- Only what binds accounts and spaces may change, and one account may be created. -/
def Edits.binding (addr : Address) : Edits where
  account := fun obj obj' => obj'.data.balance = obj.data.balance ∧
    obj'.accountAttribute = obj.accountAttribute
  space := fun obj obj' => obj'.data.balance = obj.data.balance
  create := fun a => a = addr

section Moves

variable (H : HashFn) (get : Nodes) (C : Contents) (K : ℕ → Prop)

/-- One move. -/
inductive Move (E : Edits) : StateDB → StateDB → Prop
  | trieAccount {s : StateDB} {t : SecureTrie} (h : t.trie.Models H get C.account) :
      Move E s { s with trieAccount := t }
  | trieSpace {s : StateDB} {t : SecureTrie} (h : t.trie.Models H get C.space) :
      Move E s { s with trieSpace := t }
  | readAccount {s : StateDB} {addr : Address} {obj : AccountObject}
      (hc : s.accountObjects addr = none) (h : C.storedAccount H addr = .found obj) :
      Move E s (s.setAccountObject obj)
  | readSpace {s : StateDB} {id : ℕ} {obj : SpaceObject} (hK : K id)
      (hc : s.spaceObjects (u64 id) = none) (h : C.storedSpace H id = .found obj) :
      Move E s (s.setSpaceObject obj)
  | newAccount {s : StateDB} {addr : Address} (walletid : UInt64)
      (hc : s.accountObjects addr = none) (h : C.storedAccount H addr = .absent)
      (hE : E.create addr) :
      Move E s (s.setAccountObject (newAccountObject addr ⟨0, 0, walletid, [], [], []⟩))
  | newSpace {s : StateDB} {id : ℕ} (hK : K id) (hc : s.spaceObjects (u64 id) = none)
      (h : ∀ obj, C.storedSpace H id ≠ .found obj) :
      Move E s (s.setSpaceObject (newSpaceObject id ⟨0, 0, []⟩))
  | editAccount {s : StateDB} {addr : Address} {obj obj' : AccountObject}
      (hc : s.accountObjects addr = some obj) (ha : obj'.address = obj.address)
      (hd : obj'.onDirty = obj.onDirty) (hK : K obj'.data.bindSpaceId) (hE : E.account obj obj') :
      Move E s (s.touchAccount obj')
  | editSpace {s : StateDB} {i : UInt64} {obj obj' : SpaceObject}
      (hc : s.spaceObjects i = some obj) (hi : obj'.id = obj.id)
      (hd : obj'.onDirty = obj.onDirty) (hE : E.space obj obj') : Move E s (s.touchSpace obj')

/-- A run of moves. -/
abbrev Moves (E : Edits) : StateDB → StateDB → Prop :=
  Relation.ReflTransGen (Move H get C K E)

/-- The tries are healthy, objects sit under their own keys, and dirty objects are cached. -/
structure Good (s : StateDB) : Prop where
  space : s.trieSpace.trie.Models H get C.space
  account : s.trieAccount.trie.Models H get C.account
  accountKey : ∀ addr obj, s.accountObjects addr = some obj → obj.address = addr
  spaceKey : ∀ i obj, s.spaceObjects i = some obj → u64 obj.id = i
  spaceId : ∀ i obj, s.spaceObjects i = some obj → K obj.id
  bind : ∀ addr obj, s.accountObjects addr = some obj → K obj.data.bindSpaceId
  accountDirty : ∀ addr ∈ s.accountObjectsDirty, ∃ obj, s.accountObjects addr = some obj
  spaceDirty : ∀ i ∈ s.spaceObjectsDirty, ∃ obj, s.spaceObjects i = some obj
  accountNodup : s.accountObjectsDirty.Nodup
  spaceNodup : s.spaceObjectsDirty.Nodup

/-- The ids the stored accounts are bound to are allowed, and so is zero. -/
structure AllowsStored : Prop where
  zero : K 0
  bind : ∀ addr obj, C.storedAccount H addr = .found obj → K obj.data.bindSpaceId

/-- Where every id is allowed, every stored binding is. -/
theorem allowsStored_true : AllowsStored H C fun _ => True := ⟨trivial, fun _ _ _ => trivial⟩

end Moves

variable {H : HashFn} {get : Nodes} {C : Contents} {K : ℕ → Prop}
  {E : Edits} {s s' : StateDB}

/-- What is allowed in one place is allowed where more is. -/
structure Edits.Le (E E' : Edits) : Prop where
  account : ∀ obj obj', E.account obj obj' → E'.account obj obj'
  space : ∀ obj obj', E.space obj obj' → E'.space obj obj'
  create : ∀ addr, E.create addr → E'.create addr

/-- **All edits** are the most that can be allowed… -/
theorem Edits.le_all (E : Edits) : E.Le .all :=
  ⟨fun _ _ _ => trivial, fun _ _ _ => trivial, fun _ _ => trivial⟩

/-- …and none the least. -/
theorem Edits.none_le (E : Edits) : Edits.none.Le E :=
  ⟨fun _ _ h => False.elim h, fun _ _ h => False.elim h, fun _ h => False.elim h⟩

/-- Edits of accounts leave the balances of spaces. -/
theorem Edits.accounts_le_calm : Edits.accounts.Le .calm :=
  ⟨fun _ _ _ => trivial, fun _ _ h => False.elim h, fun _ _ => trivial⟩

/-- Binding an account leaves the attributes… -/
theorem Edits.binding_le_besideAttributes (addr : Address) :
    (Edits.binding addr).Le .besideAttributes :=
  ⟨fun _ _ h => h.2, fun _ _ _ => trivial, fun _ _ => trivial⟩

/-- …and the balances of spaces. -/
theorem Edits.binding_le_calm (addr : Address) : (Edits.binding addr).Le .calm :=
  ⟨fun _ _ _ => trivial, fun _ _ h => h, fun _ _ => trivial⟩

variable {E' : Edits}

/-- A move stays one when more edits are allowed. -/
theorem Move.mono (hle : E.Le E') (h : Move H get C K E s s') : Move H get C K E' s s' := by
  cases h with
  | trieAccount h => exact .trieAccount h
  | trieSpace h => exact .trieSpace h
  | readAccount hc h => exact .readAccount hc h
  | readSpace hK hc h => exact .readSpace hK hc h
  | newAccount w hc h hE => exact .newAccount w hc h (hle.create _ hE)
  | newSpace hK hc h => exact .newSpace hK hc h
  | editAccount hc ha hd hK hE => exact .editAccount hc ha hd hK (hle.account _ _ hE)
  | editSpace hc hi hd hE => exact .editSpace hc hi hd (hle.space _ _ hE)

theorem Moves.mono (hle : E.Le E') (h : Moves H get C K E s s') : Moves H get C K E' s s' :=
  Relation.ReflTransGen.mono (fun _ _ => Move.mono hle) _ _ h

/-- A run of lookups is a run under any edits. -/
theorem Moves.of_none (h : Moves H get C K .none s s') : Moves H get C K E s s' :=
  h.mono (Edits.none_le E)

theorem Moves.all (h : Moves H get C K E s s') : Moves H get C K .all s s' :=
  h.mono (Edits.le_all E)

/-! ## The fields after a move -/

section Fields

variable {addr : Address} {i : UInt64}

variable (s : StateDB)

/-- An object that is touched is in the cache, with its flag cleared… -/
theorem accountObjects_touchAccount (obj : AccountObject) :
    (s.touchAccount obj).accountObjects
      = Function.update s.accountObjects obj.address (some { obj with onDirty := false }) := by
  unfold StateDB.touchAccount
  split <;> rfl

/-- …and nothing else has changed: -/
theorem spaceObjects_touchAccount (obj : AccountObject) :
    (s.touchAccount obj).spaceObjects = s.spaceObjects := by
  unfold StateDB.touchAccount
  split <;> rfl

theorem spaceObjects_touchSpace (obj : SpaceObject) :
    (s.touchSpace obj).spaceObjects
      = Function.update s.spaceObjects (u64 obj.id) (some { obj with onDirty := false }) := by
  unfold StateDB.touchSpace
  split <;> rfl

theorem accountObjects_touchSpace (obj : SpaceObject) :
    (s.touchSpace obj).accountObjects = s.accountObjects := by
  unfold StateDB.touchSpace
  split <;> rfl

theorem spaceObjectsDirty_touchAccount (obj : AccountObject) :
    (s.touchAccount obj).spaceObjectsDirty = s.spaceObjectsDirty := by
  unfold StateDB.touchAccount
  split <;> rfl

theorem accountObjectsDirty_touchSpace (obj : SpaceObject) :
    (s.touchSpace obj).accountObjectsDirty = s.accountObjectsDirty := by
  unfold StateDB.touchSpace
  split <;> rfl

/-- A touched object is marked as dirty when the flag was set. -/
theorem mem_dirty_touchAccount (obj : AccountObject) :
    addr ∈ (s.touchAccount obj).accountObjectsDirty ↔
      (obj.onDirty = true ∧ addr = obj.address) ∨ addr ∈ s.accountObjectsDirty := by
  unfold StateDB.touchAccount
  split
  · next h => simp [StateDB.setAccountObject, h]
  · next h => simp [StateDB.setAccountObject, h]

theorem mem_dirty_touchSpace (obj : SpaceObject) :
    i ∈ (s.touchSpace obj).spaceObjectsDirty ↔
      (obj.onDirty = true ∧ i = u64 obj.id) ∨ i ∈ s.spaceObjectsDirty := by
  unfold StateDB.touchSpace
  split
  · next h => simp [StateDB.setSpaceObject, h]
  · next h => simp [StateDB.setSpaceObject, h]

end Fields

/-! ## Moves keep a state good -/

namespace Good

variable {obj : AccountObject}

/-- Caching an account that is bound to an allowed id. -/
theorem setAccountObject (h : Good H get C K s) (hK : K obj.data.bindSpaceId) :
    Good H get C K (s.setAccountObject obj) where
  space := h.space
  account := h.account
  accountKey := by
    intro addr obj' hc
    rcases eq_or_of_update_eq_some hc with ⟨rfl, rfl⟩ | hc
    · rfl
    · exact h.accountKey addr obj' hc
  spaceKey := h.spaceKey
  spaceId := h.spaceId
  bind := by
    intro addr obj' hc
    rcases eq_or_of_update_eq_some hc with ⟨-, rfl⟩ | hc
    · exact hK
    · exact h.bind addr obj' hc
  accountDirty := fun addr hd => exists_update_eq_some _ _ (h.accountDirty addr hd)
  spaceDirty := h.spaceDirty
  accountNodup := h.accountNodup
  spaceNodup := h.spaceNodup

/-- Caching a space with an allowed id. -/
theorem setSpaceObject (h : Good H get C K s) {obj : SpaceObject} (hK : K obj.id) :
    Good H get C K (s.setSpaceObject obj) where
  space := h.space
  account := h.account
  accountKey := h.accountKey
  spaceKey := by
    intro i obj' hc
    rcases eq_or_of_update_eq_some hc with ⟨rfl, rfl⟩ | hc
    · rfl
    · exact h.spaceKey i obj' hc
  spaceId := by
    intro i obj' hc
    rcases eq_or_of_update_eq_some hc with ⟨-, rfl⟩ | hc
    · exact hK
    · exact h.spaceId i obj' hc
  bind := h.bind
  accountDirty := h.accountDirty
  spaceDirty := fun i hd => exists_update_eq_some _ _ (h.spaceDirty i hd)
  accountNodup := h.accountNodup
  spaceNodup := h.spaceNodup

variable {addr : Address} {i : UInt64}

/-- Marking a cached account as dirty… -/
theorem markAccount (h : Good H get C K s) (hc : s.accountObjects addr = some obj) :
    Good H get C K
      { s with accountObjectsDirty := s.accountObjectsDirty.insert addr } :=
  { h with
    accountDirty := fun b hb => by
      rcases List.mem_insert_iff.mp hb with rfl | hb
      · exact ⟨obj, hc⟩
      · exact h.accountDirty b hb
    accountNodup := h.accountNodup.insert }

/-- …and a cached space. -/
theorem markSpace (h : Good H get C K s) {obj : SpaceObject} (hc : s.spaceObjects i = some obj) :
    Good H get C K { s with spaceObjectsDirty := s.spaceObjectsDirty.insert i } :=
  { h with
    spaceDirty := fun b hb => by
      rcases List.mem_insert_iff.mp hb with rfl | hb
      · exact ⟨obj, hc⟩
      · exact h.spaceDirty b hb
    spaceNodup := h.spaceNodup.insert }

/-- Changing a cached account, under its address. -/
theorem touchAccount (h : Good H get C K s) {obj' : AccountObject}
    (hc : s.accountObjects addr = some obj) (ha : obj'.address = obj.address)
    (hK : K obj'.data.bindSpaceId) : Good H get C K (s.touchAccount obj') := by
  have haddr : obj'.address = addr := ha.trans (h.accountKey addr obj hc)
  unfold StateDB.touchAccount
  split
  · exact setAccountObject (h.markAccount (haddr ▸ hc)) hK
  · exact setAccountObject h hK

/-- Changing a cached space, under its id. -/
theorem touchSpace (h : Good H get C K s) {obj obj' : SpaceObject}
    (hc : s.spaceObjects i = some obj) (hi : obj'.id = obj.id) :
    Good H get C K (s.touchSpace obj') := by
  have hkey : u64 obj'.id = i := by rw [hi, h.spaceKey i obj hc]
  have hK : K obj'.id := hi ▸ h.spaceId i obj hc
  unfold StateDB.touchSpace
  split
  · exact setSpaceObject (h.markSpace (hkey ▸ hc)) hK
  · exact setSpaceObject h hK

/-- **A move keeps a state good.** -/
theorem move (hK : AllowsStored H C K) (h : Good H get C K s)
    (hm : Move H get C K E s s') : Good H get C K s' := by
  cases hm with
  | trieAccount ht => exact { h with account := ht }
  | trieSpace ht => exact { h with space := ht }
  | readAccount hc hr => exact h.setAccountObject (hK.bind _ _ hr)
  | readSpace hid hc hr => exact h.setSpaceObject ((id_of_readSpace hr).1 ▸ hid)
  | newAccount w hc hr hE => exact h.setAccountObject hK.zero
  | newSpace hid hc hr => exact h.setSpaceObject hid
  | editAccount hc ha hd hid hE => exact h.touchAccount hc ha hid
  | editSpace hc hi hd hE => exact h.touchSpace hc hi

/-- **A run of moves keeps a state good.** -/
theorem moves (hK : AllowsStored H C K) (h : Good H get C K s)
    (hm : Moves H get C K E s s') : Good H get C K s' := by
  induction hm with
  | refl => exact h
  | tail _ hstep ih => exact ih.move hK hstep

end Good

/-! ## What is cached stays cached -/

/-- No move drops an account from the cache… -/
theorem Move.account_cached (h : Move H get C K E s s')
    (hc : ∃ obj, s.accountObjects addr = some obj) : ∃ obj, s'.accountObjects addr = some obj := by
  cases h with
  | trieAccount | trieSpace | readSpace | newSpace => exact hc
  | readAccount | newAccount => exact exists_update_eq_some _ _ hc
  | editAccount =>
    rw [accountObjects_touchAccount]
    exact exists_update_eq_some _ _ hc
  | editSpace =>
    rw [accountObjects_touchSpace]
    exact hc

/-- …nor a space. -/
theorem Move.space_cached (h : Move H get C K E s s') (hc : ∃ obj, s.spaceObjects i = some obj) :
    ∃ obj, s'.spaceObjects i = some obj := by
  cases h with
  | trieAccount | trieSpace | readAccount | newAccount => exact hc
  | readSpace | newSpace => exact exists_update_eq_some _ _ hc
  | editAccount =>
    rw [spaceObjects_touchAccount]
    exact hc
  | editSpace =>
    rw [spaceObjects_touchSpace]
    exact exists_update_eq_some _ _ hc

theorem Moves.account_cached (h : Moves H get C K E s s')
    (hc : ∃ obj, s.accountObjects addr = some obj) : ∃ obj, s'.accountObjects addr = some obj := by
  induction h with
  | refl => exact hc
  | tail _ hstep ih => exact hstep.account_cached ih

theorem Moves.space_cached (h : Moves H get C K E s s')
    (hc : ∃ obj, s.spaceObjects i = some obj) : ∃ obj, s'.spaceObjects i = some obj := by
  induction h with
  | refl => exact hc
  | tail _ hstep ih => exact hstep.space_cached ih

end Gocoin.State
