import Gocoin.Machinery.Binary32
import Gocoin.Machinery.Quicksort
import Gocoin.Trie.Encoding
import Gocoin.ValidateGroup.Group

/-!
# Vrf/Vrf — who proposes and who validates

`vrf/vrf.go`.  A `Vrf` holds the addresses of a group in the order of their hex strings.
`ValidateBlock` ranks an address behind the one that the hash of the last block draws;
`ValidateCoin` and `MultipleValidateCoin` deal a list of coins out to the group, short runs of
consecutive ids going to one address, and `CheckValidateCoin` looks up whose coins they are.
-/

namespace Gocoin

open Rlp

/-! ## The order of addresses -/

/-- The digits of `hex.EncodeToString`. -/
def hexDigit (a : Fin 17) : UInt8 := if a.val < 10 then 0x30 + Trie.nib a else 0x57 + Trie.nib a

/-- `hex.EncodeToString`. -/
def encodeToString (b : Bytes) : Bytes := (Trie.toNibbles b).map hexDigit

/-- The nibble of a hash that decides about the case of the digit at a place. -/
def caseNibble (hash : Hash) (i : ℕ) : UInt8 :=
  let hashByte := hash.bytes.getD (i / 2) 0
  if i % 2 = 0 then hashByte >>> 4 else hashByte &&& 0xf

/-- `Hex` of an address: a letter is a capital where the hash of the digits says so. -/
def hex (keccak : HashFn) (a : Address) : Bytes :=
  let unchecksummed := encodeToString a.bytes
  let hash := keccak unchecksummed
  [0x30, 0x78] ++ unchecksummed.mapIdx fun i c =>
    if 0x39 < c ∧ 7 < caseNibble hash i then c - 32 else c

/-- Strings are compared byte by byte. -/
def hexKey (keccak : HashFn) (a : Address) : List ℕ := (hex keccak a).map UInt8.toNat

/-- `sortByHex`. -/
def sortByHex (keccak : HashFn) (addresses : List Address) (l r : ℤ) : Option (List Address) :=
  Quicksort.sortRange (hexKey keccak) 0 (addresses.length - 1) (addresses.length + 1) addresses l r

/-- `SortAddresses`. -/
def sortAddresses (keccak : HashFn) (addresses : List Address) : Option (List Address) :=
  sortByHex keccak addresses 0 (addresses.length - 1)

/-- `Vrf`. -/
structure Vrf where
  groupID : UInt64
  address : Address
  groupAddress : List Address
  coinValidateInfo : UInt64 → Option Address

namespace Vrf

section

variable (P : Prims)

/-- `NewVrf`, on a copy of the addresses. -/
def newVrf (id : UInt64) (addr : Address) (groupaddrs : List Address) : Option Vrf :=
  (sortAddresses P.keccak groupaddrs).map fun g => ⟨id, addr, g, fun _ => none⟩

/-! ## Blocks -/

/-- The loop `sum = sum << 1`, from one. -/
def doubled (k : ℕ) : ℕ := (fun sum => sum <<< 1)^[k] 1

/-- `coefficient / float32(sum)`, from `1.0`. -/
def coefficient (sortIndex : ℕ) : ℚ := Binary32.div 1 (Binary32.ofInt (doubled sortIndex))

/-- The loops of `ValidateBlock`: the place of an address behind the one that is drawn, at most
ten. -/
def sortIndex (addrs : List Address) (number : UInt64) (blockhash : Hash) (address : Address) : ℕ :=
  let hash := rlpHash P.keccak (some (.list [.ofNat number.toNat, .str blockhash.bytes]))
  let index := BigEndian.ofBytes hash.bytes % addrs.length
  min 10 (addrs.zipIdx.foldl (fun k a =>
    if a.1 = address then if a.2 < index then addrs.length - index + a.2 else a.2 - index else k) 0)

/-- `ValidateBlock`: the coefficient, a `float32`, and the place.  A group without addresses is a
division by zero. -/
def validateBlock (f : Vrf) (number : UInt64) (blockhash : Hash) (address : Address) :
    Option (ℚ × ℕ) :=
  if f.groupAddress = [] then none
  else
    let sortIndex := Vrf.sortIndex P f.groupAddress number blockhash address
    some (coefficient sortIndex, sortIndex)

/-! ## Coins -/

/-- `validateAddress`. -/
def validateAddress (f : Vrf) (hash : Hash) : Option Address :=
  if f.groupAddress = [] then none
  else f.groupAddress[BigEndian.ofBytes hash.bytes % f.groupAddress.length]?

/-- `multiplevalidateAddress`; the index wraps once. -/
def multiplevalidateAddress (f : Vrf) (times : ℤ) (hash : Hash) : Option Address :=
  if f.groupAddress = [] then none
  else
    let n : ℤ := f.groupAddress.length
    let index := ((BigEndian.ofBytes hash.bytes % f.groupAddress.length : ℕ) : ℤ) + times
    let index := if n ≤ index then index - n else index
    Quicksort.cell f.groupAddress index

/-- The variables of the loop over the coins. -/
structure Scan where
  validateCid : List UInt64
  continuity : ℕ
  oldcid : UInt64
  addFlag : Bool
  addr : Address
  coinValidateInfo : UInt64 → Option Address

/-- The loop starts; what an earlier call left in the map is deleted. -/
def Scan.start : Scan := ⟨[], 0, 0, false, .zero 20, fun _ => none⟩

/-- What a coin is hashed to. -/
def coinHash (txhash blockhash : Hash) (cid : UInt64) : Hash :=
  rlpHash P.keccak (some (.list [.ofNat cid.toNat, .str txhash.bytes, .str blockhash.bytes]))

/-- The end of the loop's body: an address is drawn for the coin. -/
def Scan.drawn (address : Address) (s : Scan) (cid : UInt64) (addr : Address) : Scan :=
  { s with
    oldcid := cid
    addFlag := decide (addr = address)
    addr
    coinValidateInfo := Function.update s.coinValidateInfo cid (some addr)
    validateCid := if addr = address then s.validateCid ++ [cid] else s.validateCid }

/-- A coin that goes to the address of the one before it. -/
def Scan.carried (s : Scan) (cid : UInt64) : Scan :=
  { s with
    continuity := s.continuity + 1
    oldcid := cid
    coinValidateInfo := Function.update s.coinValidateInfo cid (some s.addr)
    validateCid := if s.addFlag then s.validateCid ++ [cid] else s.validateCid }

/-- The body of the loop.  At most `limit` coins are carried before one is drawn again; the counter
is not reset where a run of ids ends. -/
def Scan.step (address : Address) (limit : ℕ) (draw : UInt64 → Option Address) (s : Scan)
    (cid : UInt64) : Option Scan :=
  if 0 < s.oldcid ∧ s.oldcid + 1 = cid then
    if limit < s.continuity + 1 then
      (draw cid).map ({ s with continuity := 0 }.drawn address cid)
    else some (s.carried cid)
  else (draw cid).map (s.drawn address cid)

/-- `ValidateCoin`: the coins to validate, and the map of who validates what. -/
def validateCoin (f : Vrf) (cids : List UInt64) (txhash blockhash : Hash) :
    Option (List UInt64 × Vrf) :=
  (cids.foldlM (Scan.step f.address 4
    fun cid => f.validateAddress (coinHash P txhash blockhash cid)) Scan.start).map
    fun s => (s.validateCid, { f with coinValidateInfo := s.coinValidateInfo })

/-- `CheckValidateCoin`: whether all these coins are the address's, by the map of the last
`ValidateCoin`. -/
def checkValidateCoin (f : Vrf) (cids : List UInt64) (addr : Address) : Bool :=
  if cids.length < 1 then false
  else cids.all fun cid =>
    match f.coinValidateInfo cid with
    | some v => decide (v = addr)
    | none => false

/-- `MultipleValidateCoin`; it keeps no map. -/
def multipleValidateCoin (f : Vrf) (times : ℤ) (cids : List UInt64) (txhash blockhash : Hash) :
    Option (List UInt64) :=
  (cids.foldlM (Scan.step f.address 5
    fun cid => f.multiplevalidateAddress times (coinHash P txhash blockhash cid)) Scan.start).map
    Scan.validateCid

end

end Vrf

end Gocoin
