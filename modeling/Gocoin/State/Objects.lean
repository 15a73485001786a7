import Mathlib.Data.List.AList
import Gocoin.Common.Types
import Gocoin.Machinery.RlpValue

/-!
# State/Objects — accounts and spaces

`state/account_object.go` and `state/space_object.go`: the consensus data of accounts and spaces,
their stored form, and the objects the state keeps in memory.  An account's attributes are a map in
memory and two parallel lists in the database; which order the lists get is up to the iteration
order of the map, a permutation of its entries.
-/

namespace Gocoin.State

open Rlp

/-- `rlp.EncodeToBytes`: an encoding longer than any slice cannot be made, and the attempt
panics. -/
def encodeToBytes (it : Item) : Option Bytes :=
  let enc := Rlp.encode it
  if enc.length < 2 ^ 63 then some enc else none

/-! ## Accounts -/

/-- `Account`: the stored form. -/
structure Account where
  bindSpaceId : ℕ
  balance : ℤ
  walletID : UInt64
  codeHash : Bytes
  accountkey : List Bytes
  accountValue : List Bytes
  deriving DecidableEq

/-- The attribute map of an account. -/
abbrev Attributes := AList (fun _ : Bytes => Bytes)

/-- The attributes of two parallel lists: as many as both have, the later of two equal keys wins. -/
def Attributes.ofLists (ks vs : List Bytes) : Attributes :=
  (ks.zip vs).foldl (fun m e => m.insert e.1 e.2) ∅

/-- The keys and the values, in the order of an iteration over the entries. -/
abbrev Entries := List (Sigma fun _ : Bytes => Bytes)

/-- `accountObject`; `onDirty` says whether the callback is still armed. -/
structure AccountObject where
  address : Address
  data : Account
  accountAttribute : Attributes
  onDirty : Bool

/-- `newAccountObject`. -/
def newAccountObject (address : Address) (acc : Account) : AccountObject where
  address := address
  data := acc
  accountAttribute := .ofLists acc.accountkey acc.accountValue
  onDirty := true

namespace Account

/-- The list `rlp` makes of an account; a negative balance has no encoding. -/
def item (acc : Account) : Option Item :=
  (Item.ofInt? acc.balance).map fun balance =>
    .list [.ofNat acc.bindSpaceId, balance, .ofNat acc.walletID.toNat, .str acc.codeHash,
      .ofStrings acc.accountkey, .ofStrings acc.accountValue]

/-- The account of such a list. -/
def ofItem : Item → Option Account
  | .list [id, balance, wallet, code, ks, vs] => do
    let bindSpaceId ← id.nat?
    let balance ← balance.nat?
    let walletID ← wallet.uint64?
    let codeHash ← code.bytes?
    let accountkey ← ks.strings?
    let accountValue ← vs.strings?
    some ⟨bindSpaceId, balance, walletID, codeHash, accountkey, accountValue⟩
  | _ => none

/-- `rlp.DecodeBytes` into an `Account`. -/
def decode (b : Bytes) : Option Account := (Rlp.decode b).bind ofItem

end Account

namespace AccountObject

/-- `EncodeRLP`, the attributes iterated in the given order. -/
def encodeRLP (obj : AccountObject) (order : Entries) : Option Bytes :=
  ({ obj.data with
      accountkey := order.map Sigma.fst
      accountValue := order.map Sigma.snd }.item).bind encodeToBytes

/-- `empty`. -/
def empty (obj : AccountObject) : Bool :=
  decide (obj.data.bindSpaceId = 0) && decide (obj.accountAttribute.entries = []) &&
    decide (obj.data.balance = 0)

end AccountObject

/-! ## Spaces -/

/-- `Space`: the stored form. -/
structure Space where
  nonce : UInt64
  balance : ℤ
  bindAddr : List Address
  deriving DecidableEq

/-- `spaceObject`. -/
structure SpaceObject where
  id : ℕ
  data : Space
  onDirty : Bool

/-- `newSpaceObject`. -/
def newSpaceObject (id : ℕ) (space : Space) : SpaceObject := ⟨id, space, true⟩

/-- The address of an item: exactly 20 bytes. -/
def addressOfItem (it : Item) : Option Address :=
  it.bytes?.bind fun b => if h : b.length = 20 then some ⟨b, h⟩ else none

namespace Space

/-- The list `rlp` makes of a space; a negative balance has no encoding. -/
def item (sp : Space) : Option Item :=
  (Item.ofInt? sp.balance).map fun balance =>
    .list [.ofNat sp.nonce.toNat, balance, .list (sp.bindAddr.map fun a => .str a.bytes)]

/-- The space of such a list. -/
def ofItem : Item → Option Space
  | .list [nonce, balance, binds] => do
    let nonce ← nonce.uint64?
    let balance ← balance.nat?
    let binds ← binds.elems?
    let bindAddr ← binds.mapM addressOfItem
    some ⟨nonce, balance, bindAddr⟩
  | _ => none

/-- `rlp.DecodeBytes` into a `Space`. -/
def decode (b : Bytes) : Option Space := (Rlp.decode b).bind ofItem

end Space

namespace SpaceObject

/-- `EncodeRLP`. -/
def encodeRLP (obj : SpaceObject) : Option Bytes := obj.data.item.bind encodeToBytes

/-- `empty`. -/
def empty (obj : SpaceObject) : Bool :=
  decide (obj.data.nonce = 0) && decide (obj.data.balance = 0) &&
    decide (obj.data.bindAddr = [])

end SpaceObject

end Gocoin.State
