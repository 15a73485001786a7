import Mathlib.Data.List.Forall2
import Gocoin.Machinery.RlpValue

/-!
# Rlp/Encbuf — the writer of `rlp/encode.go`

The encoder works in two phases.  The writers append the string data of a value to one buffer and
note, beside it, where a list starts; the header of a list is not written before its end is known,
and then only its size is filled in.  `toBytes` weaves the two together at the end.  What comes out
is the encoding of the value (`toBytes_push`): the deferred headers are the headers.
-/

namespace Gocoin

open Rlp BigEndian

/-- `listhead`: the place of a header in the string data, and the size of what it heads. -/
structure Listhead where
  offset : ℕ
  size : ℕ

/-- `encbuf`. -/
structure Encbuf where
  str : Bytes
  lheads : List Listhead
  lhsize : ℕ

/-- `intsize`. -/
def intsize (i : ℕ) : ℕ := if i < 256 then 1 else intsize (i / 256) + 1

/-- `headsize`. -/
def headsize (size : ℕ) : ℕ := if size < 56 then 1 else 1 + intsize size

namespace Encbuf

/-- The buffer after `reset`. -/
def empty : Encbuf := ⟨[], [], 0⟩

/-- `size`. -/
def size (w : Encbuf) : ℕ := w.str.length + w.lhsize

/-- `append(w.str, …)`. -/
def append (b : Bytes) (w : Encbuf) : Encbuf := { w with str := w.str ++ b }

/-- `encodeStringHeader`. -/
def encodeStringHeader (size : ℕ) (w : Encbuf) : Encbuf :=
  if size < 56 then w.append [UInt8.ofNat (0x80 + size)]
  else w.append (UInt8.ofNat (0xB7 + (toBytes size).length) :: toBytes size)

/-- `encodeString`; a single small byte needs no header. -/
def encodeString : Bytes → Encbuf → Encbuf
  | [x], w => if x.toNat ≤ 0x7F then w.append [x] else (w.encodeStringHeader 1).append [x]
  | b, w => (w.encodeStringHeader b.length).append b

/-- `list`: a new header, whose size holds the size of the headers so far; its place among the
headers stands for the pointer. -/
def list (w : Encbuf) : ℕ × Encbuf :=
  (w.lheads.length, { w with lheads := w.lheads ++ [⟨w.str.length, w.lhsize⟩] })

/-- `listEnd`. -/
def listEnd (lh : ℕ) (w : Encbuf) : Encbuf :=
  match w.lheads[lh]? with
  | none => w
  | some head =>
    let size := w.size - head.offset - head.size
    { w with lheads := w.lheads.set lh { head with size }, lhsize := w.lhsize + headsize size }

/-- The loop of `toBytes`, from a position in the string data on. -/
def weave (str : Bytes) : ℕ → List Listhead → Bytes
  | strpos, [] => str.drop strpos
  | strpos, head :: heads =>
    (str.take head.offset).drop strpos ++ puthead 0xC0 0xF7 head.size ++ weave str head.offset heads

/-- `toBytes`. -/
def toBytes (w : Encbuf) : Bytes := weave w.str 0 w.lheads

end Encbuf

/-- A writer: an error leaves nothing. -/
abbrev Writer := Encbuf → Option Encbuf

/-- `writeUint`. -/
def writeUint (i : ℕ) : Writer := fun w =>
  if i = 0 then some (w.append [0x80])
  else if i < 128 then some (w.append [UInt8.ofNat i])
  else some (w.append (UInt8.ofNat (0x80 + (toBytes i).length) :: toBytes i))

/-- `writeBigInt`. -/
def writeBigInt (i : ℤ) : Writer := fun w =>
  if i < 0 then none
  else if i = 0 then some (w.append [0x80])
  else some (w.encodeString (toBytes i.toNat))

/-- `writeBytes`, and `writeByteArray`. -/
def writeBytes (b : Bytes) : Writer := fun w => some (w.encodeString b)

/-- The writer of a pointer to a byte array. -/
def writePtr (b : Option Bytes) : Writer :=
  match b with
  | none => fun w => some (w.append [0x80])
  | some b => writeBytes b

/-- Writers one after the other. -/
def writeFields : List Writer → Writer
  | [], w => some w
  | f :: fs, w => (f w).bind (writeFields fs)

/-- The writer of a struct, and of a slice. -/
def writeList (fields : List Writer) : Writer := fun w =>
  let (lh, w) := w.list
  (writeFields fields w).map (Encbuf.listEnd lh)

/-- `EncodeToBytes`. -/
def encodeToBytes (f : Writer) : Option Bytes := (f .empty).map Encbuf.toBytes

/-! ## What a writer adds

Behind a writer the buffer has the string data of the value at its end, and beside it a header for
each list of the value, at the place where the list starts and with the size it has at its end. -/

mutual

/-- The string data of an item. -/
def strData : Item → Bytes
  | .str b => Rlp.encodeString b
  | .list xs => strDatas xs

/-- …and of the elements of a list. -/
def strDatas : List Item → Bytes
  | [] => []
  | x :: xs => strData x ++ strDatas xs

end

mutual

/-- The headers of an item whose string data starts at an offset. -/
def headsOf : ℕ → Item → List Listhead
  | _, .str _ => []
  | offset, .list xs => ⟨offset, (encodeItems xs).length⟩ :: headsOfAll offset xs

/-- …and of the elements of a list. -/
def headsOfAll : ℕ → List Item → List Listhead
  | _, [] => []
  | offset, x :: xs => headsOf offset x ++ headsOfAll (offset + (strData x).length) xs

end

mutual

/-- The bytes all headers of an item take. -/
def headSizes : Item → ℕ
  | .str _ => 0
  | .list xs => headsize (encodeItems xs).length + headSizesAll xs

/-- …and those of the elements of a list. -/
def headSizesAll : List Item → ℕ
  | [] => 0
  | x :: xs => headSizes x + headSizesAll xs

end

variable {i : ℕ} {fs : List Writer} {its : List Item}

theorem intsize_eq (h : 0 < i) : intsize i = (toBytes i).length := by
  have hdigits : (toBytes i).length = (Nat.digits 256 i).length := by
    rw [toBytes, List.length_reverse, List.length_map]
  rw [hdigits]
  clear hdigits
  induction i using Nat.strong_induction_on with
  | _ i ih =>
    rw [intsize, Nat.digits_def' (by norm_num) h, List.length_cons]
    split
    · next hlt => rw [Nat.div_eq_of_lt hlt, Nat.digits_zero, List.length_nil]
    · rw [ih (i / 256) (by omega) (by omega)]

theorem length_puthead (smalltag largetag size : ℕ) :
    (puthead smalltag largetag size).length = headsize size := by
  unfold puthead headsize
  split
  · rfl
  · rw [List.length_cons, intsize_eq (by omega), Nat.add_comm]

mutual

theorem length_encode_eq : ∀ x : Item, (encode x).length = (strData x).length + headSizes x
  | .str b => by rw [encode, strData, headSizes, Nat.add_zero]
  | .list xs => by
      rw [encode, List.length_append, length_puthead, strData, headSizes]
      have := length_encodeItems_eq xs
      omega

theorem length_encodeItems_eq : ∀ xs : List Item,
    (encodeItems xs).length = (strDatas xs).length + headSizesAll xs
  | [] => rfl
  | x :: xs => by
      have h := length_encode_eq x
      have hs := length_encodeItems_eq xs
      rw [encodeItems, strDatas, headSizesAll, List.length_append, List.length_append]
      omega

end

namespace Encbuf

/-- The buffer with one more item. -/
def push (it : Item) (w : Encbuf) : Encbuf :=
  ⟨w.str ++ strData it, w.lheads ++ headsOf w.str.length it, w.lhsize + headSizes it⟩

/-- …and with a sequence of items. -/
def pushAll (its : List Item) (w : Encbuf) : Encbuf :=
  ⟨w.str ++ strDatas its, w.lheads ++ headsOfAll w.str.length its, w.lhsize + headSizesAll its⟩

@[simp] theorem pushAll_nil (w : Encbuf) : w.pushAll [] = w := by
  simp [pushAll, strDatas, headsOfAll, headSizesAll]

theorem pushAll_cons (it : Item) (its : List Item) (w : Encbuf) :
    w.pushAll (it :: its) = (w.push it).pushAll its := by
  simp [pushAll, push, strDatas, headsOfAll, headSizesAll, Nat.add_assoc]

theorem append_encodeString (b : Bytes) (w : Encbuf) :
    w.append (Rlp.encodeString b) = w.push (.str b) := by
  simp [push, append, strData, headsOf, headSizes]

theorem encodeStringHeader_eq (size : ℕ) (w : Encbuf) :
    w.encodeStringHeader size = w.append (puthead 0x80 0xB7 size) := by
  unfold encodeStringHeader puthead
  split <;> rfl

theorem encodeString_eq (b : Bytes) (w : Encbuf) : w.encodeString b = w.push (.str b) := by
  rw [← append_encodeString]
  rcases b with - | ⟨x, - | ⟨y, b⟩⟩
  · simp [encodeString, Rlp.encodeString, encodeStringHeader_eq, append]
  · unfold encodeString Rlp.encodeString
    by_cases hx : x.toNat ≤ 0x7F
    · simp only [if_pos hx]
    · simp only [if_neg hx, encodeStringHeader_eq, append, List.append_assoc]
  · simp [encodeString, Rlp.encodeString, encodeStringHeader_eq, append]

/-- **A list is closed with the size of its elements**, and the headers of its elements stand
behind its own. -/
theorem listEnd_pushAll (its : List Item) (w : Encbuf) :
    (w.list.2.pushAll its).listEnd w.list.1 = w.push (.list its) := by
  have hsize := length_encodeItems_eq its
  have hhead : (w.list.2.pushAll its).lheads[w.lheads.length]?
      = some ⟨w.str.length, w.lhsize⟩ := by
    simp [list, pushAll]
  have hset : (w.lheads ++ [(⟨w.str.length, w.lhsize⟩ : Listhead)] ++
      headsOfAll w.str.length its).set
      w.lheads.length ⟨w.str.length, (encodeItems its).length⟩
      = w.lheads ++ headsOf w.str.length (.list its) := by
    simp [headsOf]
  have hlen : (w.list.2.pushAll its).size - w.str.length - w.lhsize
      = (encodeItems its).length := by
    simp only [size, pushAll, list, List.length_append]
    omega
  unfold listEnd
  rw [show w.list.1 = w.lheads.length from rfl, hhead]
  show Encbuf.mk _ _ (_ + headsize ((w.list.2.pushAll its).size - w.str.length - w.lhsize)) = _
  rw [hlen, push, strData, headSizes, ← hset]
  simp only [pushAll, list, Encbuf.mk.injEq, true_and]
  omega

end Encbuf

/-! ## Weaving the headers in -/

/-- The headers all start at or behind a place. -/
def Behind (q : ℕ) (heads : List Listhead) : Prop := ∀ h ∈ heads, q ≤ h.offset

mutual

theorem behind_headsOf : ∀ (offset : ℕ) (x : Item), Behind offset (headsOf offset x)
  | _, .str _ => by simp [Behind, headsOf]
  | offset, .list xs => by
      intro h hmem
      rw [headsOf, List.mem_cons] at hmem
      rcases hmem with rfl | hmem
      · exact le_rfl
      · exact behind_headsOfAll offset xs h hmem

theorem behind_headsOfAll : ∀ (offset : ℕ) (xs : List Item), Behind offset (headsOfAll offset xs)
  | _, [] => by simp [Behind, headsOfAll]
  | offset, x :: xs => by
      intro h hmem
      rw [headsOfAll, List.mem_append] at hmem
      rcases hmem with hmem | hmem
      · exact behind_headsOf offset x h hmem
      · exact (Nat.le_add_right _ _).trans (behind_headsOfAll _ xs h hmem)

end

namespace Encbuf

/-- String data before the next header is copied. -/
theorem weave_skip (a b c : Bytes) {heads : List Listhead}
    (h : Behind (a.length + b.length) heads) :
    weave (a ++ (b ++ c)) a.length heads
      = b ++ weave (a ++ (b ++ c)) (a.length + b.length) heads := by
  cases heads with
  | nil => simp [weave, List.drop_append]
  | cons head heads =>
    have hle : a.length + b.length ≤ head.offset := h head List.mem_cons_self
    obtain ⟨n, hn⟩ : ∃ n, head.offset = a.length + b.length + n :=
      ⟨head.offset - (a.length + b.length), by omega⟩
    have htake : (a ++ (b ++ c)).take head.offset = a ++ (b ++ c.take n) := by
      rw [hn, Nat.add_assoc, List.take_length_add_append, List.take_length_add_append]
    rw [weave, weave, htake]
    simp [List.drop_append]

mutual

/-- **The headers of an item are woven into its string data.** -/
theorem weave_headsOf : ∀ (x : Item) (a c : Bytes) (heads : List Listhead),
    Behind (a.length + (strData x).length) heads →
      weave (a ++ (strData x ++ c)) a.length (headsOf a.length x ++ heads)
        = encode x ++ weave (a ++ (strData x ++ c)) (a.length + (strData x).length) heads
  | .str b, a, c, heads, h => by
      rw [headsOf, List.nil_append, encode]
      exact weave_skip a (strData (.str b)) c h
  | .list xs, a, c, heads, h => by
      rw [headsOf, List.cons_append, weave, encode, strData]
      rw [weave_headsOfAll xs a c heads (by rwa [strData] at h)]
      simp

theorem weave_headsOfAll : ∀ (xs : List Item) (a c : Bytes) (heads : List Listhead),
    Behind (a.length + (strDatas xs).length) heads →
      weave (a ++ (strDatas xs ++ c)) a.length (headsOfAll a.length xs ++ heads)
        = encodeItems xs ++ weave (a ++ (strDatas xs ++ c)) (a.length + (strDatas xs).length) heads
  | [], a, c, heads, _ => by simp [headsOfAll, strDatas, encodeItems]
  | x :: xs, a, c, heads, h => by
      have hbehind : Behind (a.length + (strData x).length)
          (headsOfAll (a.length + (strData x).length) xs ++ heads) := by
        intro head hmem
        rcases List.mem_append.mp hmem with hmem | hmem
        · exact behind_headsOfAll _ xs head hmem
        · have := h head hmem
          rw [strDatas, List.length_append] at this
          omega
      have hx := weave_headsOf x a (strDatas xs ++ c) _ hbehind
      have hxs := weave_headsOfAll xs (a ++ strData x) c heads (by
        rw [strDatas, List.length_append] at h
        rwa [List.length_append, Nat.add_assoc])
      rw [List.length_append, List.append_assoc] at hxs
      rw [headsOfAll, strDatas, encodeItems, List.append_assoc, List.append_assoc, hx, hxs,
        List.length_append, Nat.add_assoc, List.append_assoc]

end

/-- **The buffer of an item is its encoding.** -/
theorem toBytes_push (it : Item) : (empty.push it).toBytes = encode it := by
  have h := weave_headsOf it [] [] [] (by simp [Behind])
  simpa [toBytes, push, empty, weave] using h

end Encbuf

/-! ## Writers -/

/-- The writer adds an item. -/
def Writes (f : Writer) (it : Item) : Prop := ∀ w : Encbuf, f w = some (w.push it)

theorem Writes.encodeToBytes {f : Writer} {it : Item} (h : Writes f it) :
    encodeToBytes f = some (encode it) := by
  rw [Gocoin.encodeToBytes, h, Option.map_some, Encbuf.toBytes_push]

theorem writes_bytes (b : Bytes) : Writes (writeBytes b) (.str b) := fun w => by
  rw [writeBytes, Encbuf.encodeString_eq]

theorem writes_uint (h : i < 2 ^ 64) : Writes (writeUint i) (.ofNat i) := by
  intro w
  have hlen := length_toBytes_le_eight h
  rw [Item.ofNat, ← Encbuf.append_encodeString, writeUint]
  split
  · next h0 => rw [h0]; rfl
  · next h0 =>
    split
    · next hsmall =>
      have hbytes : toBytes i = [UInt8.ofNat i] := by
        rw [toBytes, Nat.digits_of_lt 256 i h0 (by omega)]
        rfl
      rw [hbytes, encodeString_byte (by rw [toNat_ofNat (by omega)]; omega)]
    · next hlarge =>
      have hne : ¬ OwnEncoding (toBytes i) := by
        rintro ⟨x, hx, hle⟩
        have hi := ofBytes_toBytes i
        rw [hx] at hi
        have : i = x.toNat := by
          rw [← hi]
          simp [ofBytes]
        omega
      rw [encodeString_eq hne, puthead_of_lt (by omega)]
      rfl

theorem writes_bigInt {i : ℤ} (h : 0 ≤ i) : Writes (writeBigInt i) (.ofNat i.toNat) := by
  intro w
  rw [writeBigInt, if_neg (not_lt.mpr h)]
  split
  · next h0 =>
    rw [h0, Item.ofNat, ← Encbuf.append_encodeString]
    rfl
  · rw [Encbuf.encodeString_eq]
    rfl

theorem writes_ptr (b : Option Bytes) : Writes (writePtr b) (.str (b.getD [])) := by
  cases b with
  | none => exact fun w => congrArg some (Encbuf.append_encodeString [] w)
  | some b => exact writes_bytes b

theorem writeFields_eq (h : List.Forall₂ Writes fs its) :
    ∀ w, writeFields fs w = some (w.pushAll its) := by
  induction h with
  | nil => exact fun w => by rw [writeFields, Encbuf.pushAll_nil]
  | cons hf _ ih =>
    exact fun w => by rw [writeFields, hf, Option.bind_some, ih, Encbuf.pushAll_cons]

/-- **A list of writers writes a list.** -/
theorem writes_list (h : List.Forall₂ Writes fs its) :
    Writes (writeList fs) (.list its) := fun w => by
  show (writeFields fs w.list.2).map (Encbuf.listEnd w.list.1) = _
  rw [writeFields_eq h, Option.map_some, Encbuf.listEnd_pushAll]

end Gocoin
