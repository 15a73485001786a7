import Gocoin.Machinery.Rlp

/-!
# Machinery/RlpValue — integers and strings as items

The items of natural numbers (shortest big-endian string), of integers (negative ones have none),
of byte strings and of lists of byte strings, and how they are read back: a number with a leading
zero byte, or one too large for its machine word, is refused.
-/

namespace Rlp

open BigEndian

namespace Item

/-- A natural number. -/
def ofNat (n : ℕ) : Item := .str (toBytes n)

/-- An integer; there is no item for a negative one. -/
def ofInt? (z : ℤ) : Option Item := if z < 0 then none else some (ofNat z.toNat)

/-- A list of byte strings. -/
def ofStrings (l : List Bytes) : Item := .list (l.map .str)

/-- The byte string of an item. -/
def bytes? : Item → Option Bytes
  | .str b => some b
  | .list _ => none

/-- The elements of an item. -/
def elems? : Item → Option (List Item)
  | .str _ => none
  | .list xs => some xs

/-- The number of an item, without leading zeros. -/
def nat? : Item → Option ℕ
  | .str b => if b.head? = some 0 then none else some (ofBytes b)
  | .list _ => none

/-- …that fits into 64 bits. -/
def uint64? (it : Item) : Option UInt64 :=
  it.nat?.bind fun n => if n < 2 ^ 64 then some (UInt64.ofNat n) else none

/-- …that fits into 32 bits. -/
def uint32? (it : Item) : Option UInt32 :=
  it.nat?.bind fun n => if n < 2 ^ 32 then some (UInt32.ofNat n) else none

/-- The byte strings of a list. -/
def strings? (it : Item) : Option (List Bytes) := it.elems?.bind fun xs => xs.mapM bytes?

/-- A value that has been written is read back. -/
@[simp] theorem bytes?_str (b : Bytes) : (str b).bytes? = some b := rfl

@[simp] theorem elems?_list (xs : List Item) : (list xs).elems? = some xs := rfl

@[simp] theorem nat?_ofNat (n : ℕ) : (ofNat n).nat? = some n := by
  rw [ofNat, nat?, if_neg (head?_toBytes n), ofBytes_toBytes]

@[simp] theorem uint64?_ofNat (w : UInt64) : (ofNat w.toNat).uint64? = some w := by
  rw [uint64?, nat?_ofNat, Option.bind_some, if_pos w.toNat_lt, UInt64.ofNat_toNat]

@[simp] theorem uint32?_ofNat (w : UInt32) : (ofNat w.toNat).uint32? = some w := by
  rw [uint32?, nat?_ofNat, Option.bind_some, if_pos w.toNat_lt, UInt32.ofNat_toNat]

@[simp] theorem strings?_ofStrings (l : List Bytes) : (ofStrings l).strings? = some l := by
  have h : (l.map Item.str).mapM bytes? = some l := by
    induction l with
    | nil => rfl
    | cons b l ih => simp [ih]
  rw [ofStrings, strings?, elems?_list, Option.bind_some, h]

variable {z : ℤ} {it : Item} {n : ℕ}

/-- A number that is not negative is written as a natural number… -/
theorem ofInt?_of_nonneg (h : 0 ≤ z) : ofInt? z = some (ofNat z.toNat) := if_neg (not_lt.mpr h)

theorem eq_of_ofInt? (h : ofInt? z = some it) : 0 ≤ z ∧ it = ofNat z.toNat := by
  unfold ofInt? at h
  split at h
  · cases h
  · next hz =>
    cases h
    exact ⟨not_lt.mp hz, rfl⟩

/-- …and only a negative one cannot be written. -/
theorem ofInt?_eq_none : ofInt? z = none ↔ z < 0 := by
  unfold ofInt?
  split <;> simp_all

/-- Different numbers are written differently. -/
theorem ofNat_injective {m : ℕ} (h : ofNat m = ofNat n) : m = n :=
  toBytes_injective (Item.str.inj h)

@[simp] theorem ofNat_inj {m : ℕ} : ofNat m = ofNat n ↔ m = n :=
  ⟨ofNat_injective, congrArg ofNat⟩

/-- An item is read as a number only when it is the item of that number. -/
theorem eq_ofNat_of_nat? (h : it.nat? = some n) : it = ofNat n := by
  cases it with
  | list xs => cases h
  | str b =>
    rw [nat?] at h
    split at h
    · cases h
    · next hb =>
      cases h
      rw [ofNat, toBytes_ofBytes hb]

/-- What reads as a number of 64 bits is what is written for it. -/
theorem eq_ofNat_of_uint64? {w : UInt64} (h : it.uint64? = some w) : it = ofNat w.toNat := by
  obtain ⟨n, hn, h⟩ := Option.bind_eq_some_iff.mp h
  split at h
  · next hlt =>
    cases h
    rw [UInt64.toNat_ofNat_of_lt' hlt]
    exact eq_ofNat_of_nat? hn
  · cases h

theorem eq_ofNat_of_uint32? {w : UInt32} (h : it.uint32? = some w) : it = ofNat w.toNat := by
  obtain ⟨n, hn, h⟩ := Option.bind_eq_some_iff.mp h
  split at h
  · next hlt =>
    cases h
    rw [UInt32.toNat_ofNat_of_lt' hlt]
    exact eq_ofNat_of_nat? hn
  · cases h

/-- Only a string reads as bytes. -/
theorem eq_str_of_bytes? {b : Bytes} (h : it.bytes? = some b) : it = .str b := by
  cases it with
  | list xs => cases h
  | str c =>
    cases h
    rfl

end Item

/-- A number of 64 bits is short. -/
theorem length_encode_ofNat_le {n : ℕ} (h : n < 2 ^ 64) : (encode (.ofNat n)).length ≤ 17 := by
  have hlen : (toBytes n).length ≤ 8 := length_toBytes_le_eight h
  have hle := length_encodeString_le (b := toBytes n) (by omega)
  rw [Item.ofNat, encode]
  omega

/-- The first item of a byte string; what comes behind it is not looked at. -/
def first (b : Bytes) : Option Item := (decodeItem (2 * b.length + 2) b).map Prod.fst

/-- What decodes as a whole starts with its value. -/
theorem first_of_decode {b : Bytes} {it : Item} (h : decode b = some it) : first b = some it := by
  unfold decode at h
  split at h
  · next x hx =>
    rw [first, hx]
    exact h
  · cases h

theorem first_encode {it : Item} (hsize : (encode it).length < 2 ^ 64) :
    first (encode it) = some it := first_of_decode (decode_encode hsize)

end Rlp
