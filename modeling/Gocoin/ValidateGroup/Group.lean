import Gocoin.Common.Types
import Gocoin.Machinery.RlpValue

/-!
# ValidateGroup/Group — the member groups

`validategroup/validategroup.go`.  There are three groups of the same making — the space consensus
group, the coin group and the transaction group — and the settlement group, which only grows.  A
member that applies is appended to the new members of its group; at an epoch the new members join
the threshold members, and the threshold members of the epoch before become the group.  The groups
are kept in memory and written through to the database under fixed keys; the members of the space
group are also written under their hash and under the hash a block header names.  As the three
groups differ only in keys, each operation is one definition (`MemberGroup`) that the methods of
`ValidateGroup` apply.
-/

namespace Gocoin

open Rlp

/-- `GroupMember`. -/
structure GroupMember where
  address : Address
  time : ℤ
  deriving DecidableEq

/-- What the program takes from outside this repository, or leaves to the runtime: the hash
function, signature recovery, the wallet's recovery, the group signature check, the order an
unstable sort by time leaves members of equal time in, and the longest byte slice that `make` can
allocate. -/
structure Prims where
  keccak : Bytes → Hash
  ecrecover : Hash → Bytes → Option Bytes
  signSender : Hash → Bytes → Option Address
  blsVerify : Bytes → Bytes → Bytes → Bool
  sortByTime : List GroupMember → List GroupMember
  maxAlloc : ℕ

/-- The sort loses no member and adds none. -/
def Prims.Sorts (P : Prims) : Prop := ∀ l, (P.sortByTime l).Perm l

/-- `rlpHash`; what cannot be encoded is hashed as the empty string. -/
def rlpHash (keccak : HashFn) (it : Option Item) : Hash := keccak ((it.map Rlp.encode).getD [])

/-- `encodeBlockNumber`: eight bytes, big endian. -/
def encodeBlockNumber (number : UInt64) : Bytes :=
  (FixedBytes.ofBytes 8 (BigEndian.toBytes number.toNat)).bytes

@[simp] theorem length_encodeBlockNumber (number : UInt64) :
    (encodeBlockNumber number).length = 8 := FixedBytes.length_eq _

/-- Different block numbers have different keys. -/
theorem encodeBlockNumber_injective : Function.Injective encodeBlockNumber := by
  intro m n h
  have hread : ∀ x : UInt64, BigEndian.ofBytes (encodeBlockNumber x) = x.toNat := by
    intro x
    have hlen : (BigEndian.toBytes x.toNat).length ≤ 8 :=
      BigEndian.length_toBytes_le (lt_of_lt_of_eq x.toNat_lt (by norm_num))
    rw [encodeBlockNumber, FixedBytes.bytes_ofBytes_of_le hlen,
      BigEndian.ofBytes_replicate_append, BigEndian.ofBytes_toBytes]
  rw [← UInt64.toNat_inj, ← hread m, h, hread n]

namespace ValidateGroup

/-! ## Keys -/

/-- `LastGroupMembers`. -/
def groupMembersKey : Bytes :=
  [0x4c, 0x61, 0x73, 0x74, 0x47, 0x72, 0x6f, 0x75, 0x70, 0x4d, 0x65, 0x6d, 0x62, 0x65, 0x72, 0x73]

/-- `thresholdMembers`. -/
def thresholdMembersKey : Bytes :=
  [0x74, 0x68, 0x72, 0x65, 0x73, 0x68, 0x6f, 0x6c, 0x64, 0x4d, 0x65, 0x6d, 0x62, 0x65, 0x72, 0x73]

/-- `coinMembers`. -/
def coinMembersKey : Bytes := [0x63, 0x6f, 0x69, 0x6e, 0x4d, 0x65, 0x6d, 0x62, 0x65, 0x72, 0x73]

/-- `coinnewGroupMembers`. -/
def coingroupMembersKey : Bytes :=
  [0x63, 0x6f, 0x69, 0x6e, 0x6e, 0x65, 0x77, 0x47, 0x72, 0x6f, 0x75, 0x70, 0x4d, 0x65, 0x6d, 0x62,
    0x65, 0x72, 0x73]

/-- `thresholdCoinMembers`. -/
def thresholdCoinMembersKey : Bytes :=
  [0x74, 0x68, 0x72, 0x65, 0x73, 0x68, 0x6f, 0x6c, 0x64, 0x43, 0x6f, 0x69, 0x6e, 0x4d, 0x65, 0x6d,
    0x62, 0x65, 0x72, 0x73]

/-- `transactionMembers`. -/
def transactionMembersKey : Bytes :=
  [0x74, 0x72, 0x61, 0x6e, 0x73, 0x61, 0x63, 0x74, 0x69, 0x6f, 0x6e, 0x4d, 0x65, 0x6d, 0x62, 0x65,
    0x72, 0x73]

/-- `newTxMembers`. -/
def newTxMembersKey : Bytes :=
  [0x6e, 0x65, 0x77, 0x54, 0x78, 0x4d, 0x65, 0x6d, 0x62, 0x65, 0x72, 0x73]

/-- `thresholdTxMembers`. -/
def thresholdTxMembersKey : Bytes :=
  [0x74, 0x68, 0x72, 0x65, 0x73, 0x68, 0x6f, 0x6c, 0x64, 0x54, 0x78, 0x4d, 0x65, 0x6d, 0x62, 0x65,
    0x72, 0x73]

/-- `StellMembers`. -/
def stellMembersKey : Bytes :=
  [0x53, 0x74, 0x65, 0x6c, 0x6c, 0x4d, 0x65, 0x6d, 0x62, 0x65, 0x72, 0x73]

/-! ## Members in the database -/

/-- The list `rlp` makes of members; a negative time has no encoding. -/
def membersItem (ms : List GroupMember) : Option Item :=
  (ms.mapM fun m => (Item.ofInt? m.time).map fun t => Item.list [.str m.address.bytes, t]).map .list

/-- The `Write…` functions: an encoding error is printed and nothing is written. -/
def writeMembers (db : Db) (key : Bytes) (ms : List GroupMember) : Db :=
  match membersItem ms with
  | some it => db.put key (Rlp.encode it)
  | none => db

/-- `WriteGroupConst`: the members under a raw hash. -/
def writeGroupConst (db : Db) (hash : Hash) (ms : List GroupMember) : Db :=
  writeMembers db hash.bytes ms

/-! ## Derived randomness -/

section Rand

variable (keccak : HashFn)

/-- `RandLength`. -/
def randLength : ℕ := 32

/-- `RandFromBytes`. -/
def randFromBytes (b : Bytes) : Bytes := (keccak b).bytes

/-- `DerivedRand`; a seed that is too short to be sliced panics. -/
def derivedRand (r idx : Bytes) : Option Bytes :=
  if r.length < randLength then none
  else some (randFromBytes keccak (keccak (r.take randLength ++ idx)).bytes)

/-- `strconv.Itoa` of a nonnegative number. -/
def itoa (i : ℕ) : Bytes :=
  if i = 0 then [0x30] else (Nat.digits 10 i).reverse.map fun d => UInt8.ofNat (0x30 + d)

/-- `Deri`. -/
def deri (r : Bytes) (i : ℕ) : Option Bytes := derivedRand keccak r (itoa i)

/-- `Modulo`; the modulus zero panics. -/
def modulo (r : Bytes) (n : ℕ) : Option ℕ := if n = 0 then none else some (BigEndian.ofBytes r % n)

/-- The exchange of two places of a slice. -/
def swap (l : List ℕ) (i j : ℕ) : Option (List ℕ) := do
  let x ← l[i]?
  let y ← l[j]?
  some ((l.set i y).set j x)

/-- The loop of `RandomPerm`, `i` places done and `todo` to go. -/
def permFrom (r : Bytes) (n : ℕ) : ℕ → ℕ → List ℕ → Option (List ℕ)
  | 0, _, l => some l
  | todo + 1, i, l => do
    let d ← deri keccak r i
    let j ← modulo d (n - i)
    let l ← swap l i (j + i)
    permFrom r n todo (i + 1) l

/-- `RandomPerm`: the first `k` places of a random permutation of `0, …, n - 1`. -/
def randomPerm (r : Bytes) (n k : ℕ) : Option (List ℕ) :=
  (permFrom keccak r n k 0 (List.range n)).map fun l => l.take k

/-- `ValidateLimit`. -/
def validateLimit : ℕ := 10

/-- `blockNumberLimet`. -/
def blockNumberLimet : UInt64 := 10

/-- All members below the limit, else as many as the limit, chosen at random for an epoch. -/
def selectMembers (ms : List GroupMember) (epochNumber : UInt64) : Option (List Address) :=
  if 0 < ms.length ∧ ms.length < validateLimit then some (ms.map GroupMember.address)
  else do
    let r := randFromBytes keccak (encodeBlockNumber epochNumber)
    let idx ← randomPerm keccak r ms.length validateLimit
    idx.mapM fun i => (ms[i]?).map GroupMember.address

end Rand

/-! ## One group -/

/-- A group: its members, those that applied, those of the next epoch, the addresses selected for an
epoch and the addresses ever seen. -/
structure MemberGroup where
  groupmembers : List GroupMember
  newgroupmembers : List GroupMember
  thresholdgroupmembers : List GroupMember
  selected : List Address
  membersAddress : List Address

/-- The body of the `Add…` functions: an address counts once, and a member joins only when it is
later than the last one. -/
def addMember (db : Db) (key : Bytes) (ms : List GroupMember) (seen : List Address)
    (m : GroupMember) : List GroupMember × List Address × Db :=
  if m.address ∈ seen then (ms, seen, db)
  else
    let push := (ms ++ [m], m.address :: seen, writeMembers db key (ms ++ [m]))
    match ms.getLast? with
    | some last => if last.time < m.time then push else (ms, m.address :: seen, db)
    | none => push

namespace MemberGroup

/-- `Add`. -/
def add (g : MemberGroup) (db : Db) (key : Bytes) (m : GroupMember) : MemberGroup × Db :=
  let (ms, seen, db) := addMember db key g.newgroupmembers g.membersAddress m
  ({ g with newgroupmembers := ms, membersAddress := seen }, db)

/-- The common part of the resets: the threshold members, when there are three, become the group,
and the new members join the threshold members. -/
def reset (sort : List GroupMember → List GroupMember) (g : MemberGroup) (db : Db)
    (thresholdKey newKey : Bytes) : MemberGroup × Bool × Db :=
  let updateValidate := decide (3 ≤ g.thresholdgroupmembers.length)
  let members := if updateValidate then g.thresholdgroupmembers else g.groupmembers
  if g.newgroupmembers ≠ [] then
    let threshold := g.thresholdgroupmembers ++ g.newgroupmembers
    ({ g with groupmembers := sort members, thresholdgroupmembers := threshold,
              newgroupmembers := [], selected := [] },
      updateValidate, (writeMembers db thresholdKey threshold).delete newKey)
  else ({ g with groupmembers := sort members, selected := [] }, updateValidate, db)

section Reset

variable (sort : List GroupMember → List GroupMember) (g : MemberGroup) (db : Db)
  (thresholdKey newKey : Bytes)

/-- A reset fills the group from a threshold list of three or more, and sorts it. -/
@[simp] theorem groupmembers_reset :
    (g.reset sort db thresholdKey newKey).1.groupmembers
      = sort (if 3 ≤ g.thresholdgroupmembers.length then g.thresholdgroupmembers
          else g.groupmembers) := by
  unfold reset
  split <;> simp

/-- …it leaves no new members, -/
@[simp] theorem newgroupmembers_reset :
    (g.reset sort db thresholdKey newKey).1.newgroupmembers = [] := by
  unfold reset
  split
  · rfl
  · next h => exact not_ne_iff.mp h

/-- …promotes them to the threshold list, -/
@[simp] theorem thresholdgroupmembers_reset :
    (g.reset sort db thresholdKey newKey).1.thresholdgroupmembers
      = g.thresholdgroupmembers ++ g.newgroupmembers := by
  unfold reset
  split
  · rfl
  · next h => rw [not_ne_iff.mp h, List.append_nil]

/-- …forgets nobody who has been seen, -/
@[simp] theorem membersAddress_reset :
    (g.reset sort db thresholdKey newKey).1.membersAddress = g.membersAddress := by
  unfold reset
  split <;> rfl

/-- …drops the selection, -/
@[simp] theorem selected_reset : (g.reset sort db thresholdKey newKey).1.selected = [] := by
  unfold reset
  split <;> rfl

/-- …and reports whether the group was filled. -/
@[simp] theorem updateValidate_reset :
    (g.reset sort db thresholdKey newKey).2.1 = decide (3 ≤ g.thresholdgroupmembers.length) := by
  unfold reset
  split <;> rfl

/-- In the database the threshold list is written before the new members are deleted. -/
@[simp] theorem db_reset :
    (g.reset sort db thresholdKey newKey).2.2
      = if g.newgroupmembers ≠ [] then
          (writeMembers db thresholdKey
            (g.thresholdgroupmembers ++ g.newgroupmembers)).delete newKey
        else db := by
  unfold reset
  split <;> rfl

end Reset

/-- The `Select…Thresholds` functions. -/
def selectThresholds (keccak : HashFn) (g : MemberGroup) (number : UInt64) :
    Option (List Address) :=
  selectMembers keccak g.thresholdgroupmembers (number / blockNumberLimet + 1)

/-- The `Select…` functions: the selection of epoch zero is remembered until a reset, every other
one is made anew (the field that should hold the epoch is never assigned). -/
def select (keccak : HashFn) (g : MemberGroup) (number : UInt64) :
    Option (List Address × MemberGroup) :=
  let epochNumber := number / blockNumberLimet
  if epochNumber = 0 ∧ g.selected ≠ [] then some (g.selected, g)
  else if g.groupmembers = [] then some ([], { g with selected := [] })
  else do
    let addrs ← selectMembers keccak g.groupmembers epochNumber
    some (addrs, { g with selected := addrs })

end MemberGroup

end ValidateGroup

open ValidateGroup

/-- `ValidateGroup`. -/
structure ValidateGroup where
  space : MemberGroup
  coin : MemberGroup
  transaction : MemberGroup
  stellgroupmembers : List GroupMember
  stellAddresses : List Address

namespace ValidateGroup

/-- `Add`. -/
def add (vg : ValidateGroup) (db : Db) (m : GroupMember) : ValidateGroup × Db :=
  let (g, db) := vg.space.add db groupMembersKey m
  ({ vg with space := g }, db)

/-- `AddCoin`. -/
def addCoin (vg : ValidateGroup) (db : Db) (m : GroupMember) : ValidateGroup × Db :=
  let (g, db) := vg.coin.add db coingroupMembersKey m
  ({ vg with coin := g }, db)

/-- `AddTransaction`. -/
def addTransaction (vg : ValidateGroup) (db : Db) (m : GroupMember) : ValidateGroup × Db :=
  let (g, db) := vg.transaction.add db newTxMembersKey m
  ({ vg with transaction := g }, db)

/-- `AddStell`. -/
def addStell (vg : ValidateGroup) (db : Db) (m : GroupMember) : ValidateGroup × Db :=
  let (ms, seen, db) := addMember db stellMembersKey vg.stellgroupmembers vg.stellAddresses m
  ({ vg with stellgroupmembers := ms, stellAddresses := seen }, db)

/-- `IsStellAddress`. -/
def isStellAddress (vg : ValidateGroup) (addr : Address) : Bool := decide (addr ∈ vg.stellAddresses)

/-- `Hash`. -/
def hash (keccak : HashFn) (vg : ValidateGroup) : Hash :=
  rlpHash keccak (membersItem vg.space.groupmembers)

section Resets

variable (P : Prims)

/-- `Reset` outside genesis: the members are written under the hash the block names and, when that
is another one, under their own hash. -/
def reset (vg : ValidateGroup) (db : Db) (hash : Hash) : ValidateGroup × Db :=
  let (g, updateValidate, db) := vg.space.reset P.sortByTime db thresholdMembersKey groupMembersKey
  let tmphash := rlpHash P.keccak (membersItem g.groupmembers)
  let db := if updateValidate then
      let db := writeGroupConst db hash g.groupmembers
      if tmphash = hash then db else writeGroupConst db tmphash g.groupmembers
    else db
  ({ vg with space := g }, db)

variable (vg : ValidateGroup)

/-- `Reset` at genesis: the new members join the group at once, and the group is written when the
hash is that of the first member's address. -/
def resetInit (db : Db) (hash : Hash) : ValidateGroup × Db :=
  if vg.space.newgroupmembers ≠ [] then
    let members := P.sortByTime (vg.space.groupmembers ++ vg.space.newgroupmembers)
    let db := db.delete groupMembersKey
    let tmphash := rlpHash P.keccak ((members.head?).map fun m => .str m.address.bytes)
    let db := if tmphash = hash then writeGroupConst db hash members else db
    ({ vg with space :=
        { vg.space with groupmembers := members, newgroupmembers := [], selected := [] } }, db)
  else ({ vg with space := { vg.space with selected := [] } }, db)

/-- `ResetCoinGroup`. -/
def resetCoinGroup (db : Db) : ValidateGroup × Db :=
  let (g, updateValidate, db) :=
    vg.coin.reset P.sortByTime db thresholdCoinMembersKey coingroupMembersKey
  let db := if updateValidate then writeMembers db coinMembersKey g.groupmembers else db
  ({ vg with coin := g }, db)

/-- `ResetTxGroup`. -/
def resetTxGroup (db : Db) : ValidateGroup × Db :=
  let (g, updateValidate, db) :=
    vg.transaction.reset P.sortByTime db thresholdTxMembersKey newTxMembersKey
  let db := if updateValidate then writeMembers db transactionMembersKey g.groupmembers else db
  ({ vg with transaction := g }, db)

/-- `SelectConsensus`. -/
def selectConsensus (number : UInt64) : Option (List Address × ValidateGroup) := do
  let (addrs, g) ← vg.space.select P.keccak number
  some (addrs, { vg with space := g })

/-- `SelectValidate`. -/
def selectValidate (number : UInt64) : Option (List Address × ValidateGroup) := do
  let (addrs, g) ← vg.coin.select P.keccak number
  some (addrs, { vg with coin := g })

/-- `SelectTxConsensus`. -/
def selectTxConsensus (number : UInt64) : Option (List Address × ValidateGroup) := do
  let (addrs, g) ← vg.transaction.select P.keccak number
  some (addrs, { vg with transaction := g })

end Resets

end ValidateGroup

end Gocoin
