import Gocoin.Trie.SecureTrie
import Gocoin.State.Objects

/-!
# State/StateDB — the state of accounts and spaces

`state/statemanage.go`.  The state reads accounts and spaces from two secure tries, keeps the
objects it has read or made in two caches, and remembers which of them have changed.  Objects are
pointers: two operations on one cached object see each other's writes, so an object is named by its
cache key and read from the cache where it is used.  Each object announces its first change through
a callback that is dropped afterwards (`onDirty`), and `CommitTo` writes the announced objects back
to the tries — empty ones are deleted — and the tries to the database.

A function that may crash returns an `Option`, `none` being the panic.
-/

namespace Gocoin.State

open Trie

/-- What a lookup returns: an object, nothing, or nothing and an error. -/
inductive Lookup (α : Type) where
  | found (obj : α)
  | absent
  | failed

/-- `StateDB`.  The dirty sets are lists without repetition. -/
structure StateDB where
  trieSpace : SecureTrie
  trieAccount : SecureTrie
  spaceObjects : UInt64 → Option SpaceObject
  accountObjects : Address → Option AccountObject
  spaceObjectsDirty : List UInt64
  accountObjectsDirty : List Address

/-- `New`; any failure of the tries is an error, except that a corrupt root node panics. -/
def new (get : Nodes) (rootSpace rootAccount : Hash) : Except TrieErr StateDB := do
  let trSpace ← SecureTrie.newSecure get rootSpace 0
  let trAccount ← SecureTrie.newSecure get rootAccount 0
  .ok ⟨trSpace, trAccount, fun _ => none, fun _ => none, [], []⟩

namespace StateDB

section Objects

variable (s : StateDB)

/-- `setAccountObject`. -/
def setAccountObject (obj : AccountObject) : StateDB :=
  { s with accountObjects := Function.update s.accountObjects obj.address (some obj) }

/-- `setSpaceObject`. -/
def setSpaceObject (obj : SpaceObject) : StateDB :=
  { s with spaceObjects := Function.update s.spaceObjects (u64 obj.id) (some obj) }

/-- A write through the pointer to an account object: the first one marks the account dirty and
drops the callback. -/
def touchAccount (obj : AccountObject) : StateDB :=
  let s := if obj.onDirty then
      { s with accountObjectsDirty := s.accountObjectsDirty.insert obj.address }
    else s
  s.setAccountObject { obj with onDirty := false }

/-- …and to a space object. -/
def touchSpace (obj : SpaceObject) : StateDB :=
  let s := if obj.onDirty then
      { s with spaceObjectsDirty := s.spaceObjectsDirty.insert (u64 obj.id) }
    else s
  s.setSpaceObject { obj with onDirty := false }

/-! ## Methods of the account object -/

/-- `SetBalance_gas`. -/
def setBalanceGas (obj : AccountObject) (amount : ℤ) : StateDB :=
  s.touchAccount { obj with data := { obj.data with balance := amount } }

/-- `AddBalance_gas`. -/
def addBalanceGas (obj : AccountObject) (amount : ℤ) : StateDB :=
  if amount = 0 then s else s.setBalanceGas obj (obj.data.balance + amount)

/-- `SubBalance_gas`. -/
def subBalanceGas (obj : AccountObject) (amount : ℤ) : StateDB :=
  if amount = 0 then s else s.setBalanceGas obj (obj.data.balance - amount)

/-- `SetSpaceID`. -/
def setSpaceID (obj : AccountObject) (id : ℕ) : StateDB :=
  s.touchAccount { obj with data := { obj.data with bindSpaceId := id } }

/-- `accountObject.SetAttribute`. -/
def setObjAttribute (obj : AccountObject) (key value : Bytes) : StateDB :=
  s.touchAccount { obj with accountAttribute := obj.accountAttribute.insert key value }

/-- `accountObject.DelAttribute`. -/
def delObjAttribute (obj : AccountObject) (key : Bytes) : StateDB :=
  s.touchAccount { obj with accountAttribute := obj.accountAttribute.erase key }

/-! ## Methods of the space object -/

/-- `spaceObject.SetBalance`; every change of the balance counts the nonce up. -/
def setSpaceBalance (obj : SpaceObject) (amount : ℤ) : StateDB :=
  s.touchSpace { obj with data :=
    { obj.data with balance := amount, nonce := obj.data.nonce + 1 } }

/-- `spaceObject.AddBalance`. -/
def addSpaceBalance (obj : SpaceObject) (amount : ℤ) : StateDB :=
  if amount = 0 then s else s.setSpaceBalance obj (obj.data.balance + amount)

/-- `spaceObject.SubBalance`. -/
def subSpaceBalance (obj : SpaceObject) (amount : ℤ) : StateDB :=
  if amount = 0 then s else s.setSpaceBalance obj (obj.data.balance - amount)

/-- `AppendAddress`. -/
def appendAddress (obj : SpaceObject) (addr : Address) : StateDB :=
  s.touchSpace { obj with data := { obj.data with bindAddr := obj.data.bindAddr ++ [addr] } }

/-- `RemoveAddress`. -/
def removeAddress (obj : SpaceObject) (addr : Address) : StateDB :=
  s.touchSpace { obj with data :=
    { obj.data with bindAddr := obj.data.bindAddr.filter (fun a => decide (a ≠ addr)) } }

end Objects

section Operations

variable (keccak : HashFn) (get : Nodes) (s : StateDB)

/-- `getAccountObject`. -/
def getAccountObject (addr : Address) : Option (Lookup AccountObject × StateDB) :=
  match s.accountObjects addr with
  | some obj => some (.found obj, s)
  | none =>
    match s.trieAccount.tryGet keccak get addr.bytes with
    | .error .panic => none
    | .error (.missing _) => some (.failed, s)
    | .ok (enc, t) =>
      let s := { s with trieAccount := t }
      if enc.length = 0 then some (.absent, s)
      else
        match Account.decode enc with
        | none => some (.failed, s)
        | some acc =>
          let obj := newAccountObject addr acc
          some (.found obj, s.setAccountObject obj)

/-- `getSpaceObject`: the cache is keyed by the low 64 bits, the trie by all of them. -/
def getSpaceObject (id : ℕ) : Option (Lookup SpaceObject × StateDB) :=
  match s.spaceObjects (u64 id) with
  | some obj => some (.found obj, s)
  | none =>
    match s.trieSpace.tryGet keccak get (BigEndian.toBytes id) with
    | .error .panic => none
    | .error (.missing _) => some (.failed, s)
    | .ok (enc, t) =>
      let s := { s with trieSpace := t }
      if enc.length = 0 then some (.absent, s)
      else
        match Space.decode enc with
        | none => some (.failed, s)
        | some space =>
          let obj := newSpaceObject id space
          some (.found obj, s.setSpaceObject obj)

/-- An operation on the account object, if there is one. -/
def withAccount (addr : Address) (f : StateDB → AccountObject → StateDB) : Option StateDB := do
  let (r, s) ← s.getAccountObject keccak get addr
  match r with
  | .found obj => some (f s obj)
  | _ => some s

/-- An operation on the space object, if there is one. -/
def withSpace (id : ℕ) (f : StateDB → SpaceObject → StateDB) : Option StateDB := do
  let (r, s) ← s.getSpaceObject keccak get id
  match r with
  | .found obj => some (f s obj)
  | _ => some s

/-- `GetBalance`; zero without an account. -/
def getBalance (addr : Address) : Option (ℤ × StateDB) := do
  let (r, s) ← s.getAccountObject keccak get addr
  match r with
  | .found obj => some (obj.data.balance, s)
  | _ => some (0, s)

/-- `AddBalance`. -/
def addBalance (addr : Address) (amount : ℤ) : Option StateDB :=
  s.withAccount keccak get addr fun s obj => s.addBalanceGas obj amount

/-- `SubBalance`. -/
def subBalance (addr : Address) (amount : ℤ) : Option StateDB :=
  s.withAccount keccak get addr fun s obj => s.subBalanceGas obj amount

/-- `SetBalance`. -/
def setBalance (addr : Address) (amount : ℤ) : Option StateDB :=
  s.withAccount keccak get addr fun s obj => s.setBalanceGas obj amount

/-- `SetAttribute`. -/
def setAttribute (addr : Address) (key value : Bytes) : Option StateDB :=
  s.withAccount keccak get addr fun s obj => s.setObjAttribute obj key value

/-- `DelAttribute`. -/
def delAttribute (addr : Address) (key : Bytes) : Option StateDB :=
  s.withAccount keccak get addr fun s obj => s.delObjAttribute obj key

/-- `GetSpaceBalanceByID`; zero without a space. -/
def getSpaceBalanceByID (id : ℕ) : Option (ℤ × StateDB) := do
  let (r, s) ← s.getSpaceObject keccak get id
  match r with
  | .found obj => some (obj.data.balance, s)
  | _ => some (0, s)

/-- `AddSpaceBalanceByID`. -/
def addSpaceBalanceByID (id : ℕ) (amount : ℤ) : Option StateDB :=
  s.withSpace keccak get id fun s obj => s.addSpaceBalance obj amount

/-- `SubSpaceBalanceByID`. -/
def subSpaceBalanceByID (id : ℕ) (amount : ℤ) : Option StateDB :=
  s.withSpace keccak get id fun s obj => s.subSpaceBalance obj amount

/-- `getSpaceObjectByAddr`. -/
def getSpaceObjectByAddr (addr : Address) : Option (Lookup SpaceObject × StateDB) := do
  let (r, s) ← s.getAccountObject keccak get addr
  match r with
  | .found obj => s.getSpaceObject keccak get obj.data.bindSpaceId
  | .absent => some (.absent, s)
  | .failed => some (.failed, s)

/-- An operation on the space an account is bound to, if there is one. -/
def withSpaceOf (addr : Address) (f : StateDB → SpaceObject → StateDB) : Option StateDB := do
  let (r, s) ← s.getSpaceObjectByAddr keccak get addr
  match r with
  | .found obj => some (f s obj)
  | _ => some s

/-- `AddSpaceBalanceByAddress`. -/
def addSpaceBalanceByAddress (addr : Address) (amount : ℤ) : Option StateDB :=
  s.withSpaceOf keccak get addr fun s obj => s.addSpaceBalance obj amount

/-- `SubSpaceBalanceByAddress`. -/
def subSpaceBalanceByAddress (addr : Address) (amount : ℤ) : Option StateDB :=
  s.withSpaceOf keccak get addr fun s obj => s.subSpaceBalance obj amount

/-- `SetSpaceBalanceByAddress`. -/
def setSpaceBalanceByAddress (addr : Address) (amount : ℤ) : Option StateDB :=
  s.withSpaceOf keccak get addr fun s obj => s.setSpaceBalance obj amount

/-- `createAccountObject`: a lookup without error makes a new object, whatever it found. -/
def createAccountObject (walletid : UInt64) (addr : Address) : Option (Bool × StateDB) := do
  let (r, s) ← s.getAccountObject keccak get addr
  match r with
  | .failed => some (false, s)
  | _ => some (true, s.setAccountObject (newAccountObject addr ⟨0, 0, walletid, [], [], []⟩))

/-- `CreateSpaceObject`: whether it is new. -/
def createSpaceObject (id : ℕ) : Option (Bool × StateDB) := do
  let (r, s) ← s.getSpaceObject keccak get id
  match r with
  | .found _ => some (false, s)
  | _ => some (true, s.setSpaceObject (newSpaceObject id ⟨0, 0, []⟩))

/-- `unassociateSpaceAndAccount`, both pointers being in the caches. -/
def unassociateSpaceAndAccount (space : UInt64) (addr : Address) : Option StateDB := do
  let acc ← s.accountObjects addr
  let s := s.setSpaceID acc 0
  let sp ← s.spaceObjects space
  some (s.removeAddress sp addr)

/-- The first part of `associateSpaceAndAccount`: a nonempty account is taken from the space it was
bound to. -/
def leaveSpace (acc : AccountObject) : Option StateDB :=
  if acc.empty then some s
  else do
    let (prev, s) ← s.getSpaceObject keccak get acc.data.bindSpaceId
    match prev with
    | .found prev => s.unassociateSpaceAndAccount (u64 prev.id) acc.address
    | _ => some s

/-- `associateSpaceAndAccount`, both pointers being in the caches. -/
def associateSpaceAndAccount (space : UInt64) (addr : Address) : Option StateDB := do
  let acc ← s.accountObjects addr
  let s ← s.leaveSpace keccak get acc
  let acc ← s.accountObjects addr
  let sp ← s.spaceObjects space
  let s := s.setSpaceID acc sp.id
  let sp ← s.spaceObjects space
  some (s.appendAddress sp addr)

/-- `BindAddr`. -/
def bindAddr (id : ℕ) (walletid : UInt64) (addr : Address) : Option (UInt64 × StateDB) := do
  let (space, s) ← s.getSpaceObject keccak get id
  match space with
  | .failed => some (walletid, s)
  | .absent =>
    let (acc, s) ← s.getAccountObject keccak get addr
    match acc with
    | .failed => do
      let (made, s) ← s.createAccountObject keccak get walletid addr
      some (if made then walletid + 1 else walletid, s)
    | _ => some (walletid, s)
  | .found sp =>
    let (acc, s) ← s.getAccountObject keccak get addr
    match acc with
    | .found _ => do
      let s ← s.associateSpaceAndAccount keccak get (u64 sp.id) addr
      some (walletid, s)
    | .absent => some (walletid, s)
    | .failed => do
      let (made, s) ← s.createAccountObject keccak get walletid addr
      if made then
        let s ← s.associateSpaceAndAccount keccak get (u64 sp.id) addr
        some (walletid + 1, s)
      else some (walletid, s)

/-- `UnbindAddr`. -/
def unbindAddr (id : ℕ) (addr : Address) : Option StateDB := do
  let (space, s) ← s.getSpaceObject keccak get id
  match space with
  | .found sp =>
    let (acc, s) ← s.getAccountObject keccak get addr
    match acc with
    | .found _ => s.unassociateSpaceAndAccount (u64 sp.id) addr
    | _ => some s
  | _ => some s

/-- `CreateSpaceAndBindAddr`. -/
def createSpaceAndBindAddr (id : ℕ) (walletid : UInt64) (addr : Address) :
    Option (UInt64 × StateDB) := do
  let (acc, s) ← s.getAccountObject keccak get addr
  match acc with
  | .found _ => do
    let (isNew, s) ← s.createSpaceObject keccak get id
    let s ← if isNew then s.associateSpaceAndAccount keccak get (u64 id) addr else some s
    some (walletid, s)
  | _ => do
    let (made, s) ← s.createAccountObject keccak get walletid addr
    let (isNew, s) ← s.createSpaceObject keccak get id
    let s ← if isNew && made then s.associateSpaceAndAccount keccak get (u64 id) addr else some s
    some (if made then walletid + 1 else walletid, s)

end Operations

end StateDB

end Gocoin.State
