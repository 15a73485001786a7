import Gocoin.Machinery.BigEndian

/-!
# Machinery/Rlp — the recursive length prefix format

An item is a byte string or a list of items.  `encode` writes it with the shortest possible length
headers; `split` takes the first encoded value off a byte string, rejecting every header that is
not the shortest one, and `decode` rebuilds the item.  On the items whose encoding is shorter than
`2 ^ 64` bytes — the length field has at most eight bytes — decoding undoes encoding
(`decode_encode`), hence the encoding is injective (`encode_injective`).
-/

namespace Rlp

open BigEndian

/-- A value of the format. -/
inductive Item where
  | str (b : Bytes)
  | list (xs : List Item)

/-- The three ways a value starts. -/
inductive Kind where
  | byte
  | string
  | list
  deriving DecidableEq, Repr

/-! ## Writing -/

/-- A string or list header for a payload of `size` bytes. -/
def puthead (smalltag largetag size : ℕ) : Bytes :=
  if size < 56 then [UInt8.ofNat (smalltag + size)]
  else UInt8.ofNat (largetag + (toBytes size).length) :: toBytes size

/-- A string; a single byte below `0x80` is its own encoding. -/
def encodeString : Bytes → Bytes
  | [x] => if x.toNat ≤ 0x7F then [x] else puthead 0x80 0xB7 1 ++ [x]
  | b => puthead 0x80 0xB7 b.length ++ b

mutual

/-- The encoding of an item. -/
def encode : Item → Bytes
  | .str b => encodeString b
  | .list xs => puthead 0xC0 0xF7 (encodeItems xs).length ++ encodeItems xs

/-- The concatenated encodings of the elements of a list. -/
def encodeItems : List Item → Bytes
  | [] => []
  | x :: xs => encode x ++ encodeItems xs

end

/-! ## Reading -/

/-- The value of a long length field; sizes below 56 and leading zeros are not canonical. -/
def readSize (b : Bytes) (slen : ℕ) : Option ℕ :=
  if b.length < slen then none
  else if ofBytes (b.take slen) < 56 ∨ b.head? = some 0 then none
  else some (ofBytes (b.take slen))

/-- The kind of the first value, the size of its tag and the size of its content. -/
def readKind : Bytes → Option (Kind × ℕ × ℕ)
  | [] => none
  | b :: tail =>
    let fit (k : Kind) (tagsize contentsize : ℕ) : Option (Kind × ℕ × ℕ) :=
      if contentsize > tail.length + 1 - tagsize then none else some (k, tagsize, contentsize)
    if b.toNat < 0x80 then fit .byte 0 1
    else if b.toNat < 0xB8 then
      if b.toNat - 0x80 = 1 ∧ tail.head?.any (fun x => decide (x.toNat < 128)) = true then none
      else fit .string 1 (b.toNat - 0x80)
    else if b.toNat < 0xC0 then
      (readSize tail (b.toNat - 0xB7)).bind (fit .string (b.toNat - 0xB7 + 1))
    else if b.toNat < 0xF8 then fit .list 1 (b.toNat - 0xC0)
    else (readSize tail (b.toNat - 0xF7)).bind (fit .list (b.toNat - 0xF7 + 1))

/-- The content of the first value and the bytes after it. -/
def split (b : Bytes) : Option (Kind × Bytes × Bytes) :=
  (readKind b).map fun r => (r.1, (b.drop r.2.1).take r.2.2, b.drop (r.2.1 + r.2.2))

/-- …where the first value has to be a string. -/
def splitString (b : Bytes) : Option (Bytes × Bytes) :=
  match split b with
  | some (.list, _) | none => none
  | some (_, content, rest) => some (content, rest)

/-- …where the first value has to be a list. -/
def splitList (b : Bytes) : Option (Bytes × Bytes) :=
  match split b with
  | some (.list, content, rest) => some (content, rest)
  | _ => none

mutual

/-- The first item of a byte string.  The fuel bounds the depth; `decode` supplies enough. -/
def decodeItem : ℕ → Bytes → Option (Item × Bytes)
  | 0, _ => none
  | fuel + 1, b =>
    match split b with
    | none => none
    | some (.list, content, rest) => (decodeItems fuel content).map fun xs => (.list xs, rest)
    | some (_, content, rest) => some (.str content, rest)

/-- All items of a byte string. -/
def decodeItems : ℕ → Bytes → Option (List Item)
  | _, [] => some []
  | 0, _ => none
  | fuel + 1, b =>
    match decodeItem fuel b with
    | none => none
    | some (x, rest) => (decodeItems fuel rest).map fun xs => x :: xs

end

/-- The item a byte string is the encoding of; trailing bytes are an error. -/
def decode (b : Bytes) : Option Item :=
  match decodeItem (2 * b.length + 2) b with
  | some (x, []) => some x
  | _ => none

/-! ## Sizes -/

variable {size n smalltag largetag : ℕ} {b content rest : Bytes} {x y : Item} {xs ys : List Item}

/-- A short header is one byte… -/
theorem puthead_of_lt (h : size < 56) :
    puthead smalltag largetag size = [UInt8.ofNat (smalltag + size)] := if_pos h

/-- …and a long one names the bytes of the size. -/
theorem puthead_of_le (h : 56 ≤ size) :
    puthead smalltag largetag size
      = UInt8.ofNat (largetag + (toBytes size).length) :: toBytes size := if_neg (by omega)

theorem length_puthead_pos (smalltag largetag size : ℕ) :
    0 < (puthead smalltag largetag size).length := by
  rw [puthead]
  split <;> simp

/-- A single byte below `0x80`. -/
def OwnEncoding (b : Bytes) : Prop := ∃ x : UInt8, b = [x] ∧ x.toNat ≤ 0x7F

/-- Every string but a single small byte is written with a header. -/
theorem encodeString_eq (h : ¬ OwnEncoding b) :
    encodeString b = puthead 0x80 0xB7 b.length ++ b := by
  match b with
  | [] => rfl
  | [x] => exact if_neg fun hx => h ⟨x, rfl, hx⟩
  | _ :: _ :: _ => rfl

theorem encodeString_byte {x : UInt8} (h : x.toNat ≤ 0x7F) : encodeString [x] = [x] := if_pos h

/-- A string is not written shorter than it is. -/
theorem length_le_encodeString (b : Bytes) : b.length ≤ (encodeString b).length := by
  by_cases h : OwnEncoding b
  · obtain ⟨x, rfl, hx⟩ := h
    rw [encodeString_byte hx]
  · rw [encodeString_eq h, List.length_append]
    omega

theorem length_encode_pos (x : Item) : 0 < (encode x).length := by
  cases x with
  | str b =>
    rw [encode]
    by_cases h : OwnEncoding b
    · obtain ⟨x, rfl, hx⟩ := h
      simp [encodeString_byte hx]
    · rw [encodeString_eq h, List.length_append]
      have := length_puthead_pos 0x80 0xB7 b.length
      omega
  | list xs =>
    rw [encode, List.length_append]
    have := length_puthead_pos 0xC0 0xF7 (encodeItems xs).length
    omega

/-- A list is written longer than its items. -/
theorem length_encode_list (xs : List Item) :
    (encodeItems xs).length < (encode (.list xs)).length := by
  rw [encode, List.length_append]
  have := length_puthead_pos 0xC0 0xF7 (encodeItems xs).length
  omega

theorem length_encode_le_of_mem : ∀ {xs : List Item}, x ∈ xs →
    (encode x).length ≤ (encodeItems xs).length
  | y :: ys, h => by
      rw [encodeItems, List.length_append]
      rcases List.mem_cons.mp h with rfl | h
      · omega
      · have := length_encode_le_of_mem h
        omega

/-- The size of the items is the sum of their sizes. -/
theorem length_encodeItems (xs : List Item) :
    (encodeItems xs).length = (xs.map fun x => (encode x).length).sum := by
  induction xs with
  | nil => rfl
  | cons x xs ih => rw [encodeItems, List.length_append, ih, List.map_cons, List.sum_cons]

theorem length_encode_list_congr (h : (encodeItems xs).length = (encodeItems ys).length) :
    (encode (.list xs)).length = (encode (.list ys)).length := by
  rw [encode, encode, List.length_append, List.length_append, h]

theorem length_toBytes_le_eight (h : n < 2 ^ 64) : (toBytes n).length ≤ 8 :=
  length_toBytes_le (by norm_num; omega)

theorem length_puthead_le (smalltag largetag : ℕ) (h : size < 2 ^ 64) :
    (puthead smalltag largetag size).length ≤ 9 := by
  rw [puthead]
  split
  · simp
  · rw [List.length_cons]
    have := length_toBytes_le_eight h
    omega

/-- A header adds at most nine bytes… -/
theorem length_encodeString_le (h : b.length < 2 ^ 64) :
    (encodeString b).length ≤ b.length + 9 := by
  by_cases hb : OwnEncoding b
  · obtain ⟨x, rfl, hx⟩ := hb
    simp [encodeString_byte hx]
  · rw [encodeString_eq hb, List.length_append]
    have := length_puthead_le 0x80 0xB7 h
    omega

/-- …also to a list. -/
theorem length_encode_list_le (h : (encodeItems xs).length < 2 ^ 64) :
    (encode (.list xs)).length ≤ (encodeItems xs).length + 9 := by
  rw [encode, List.length_append]
  have := length_puthead_le 0xC0 0xF7 h
  omega

theorem length_encodeItems_le {m : ℕ} (h : ∀ x ∈ xs, (encode x).length ≤ m) :
    (encodeItems xs).length ≤ xs.length * m := by
  induction xs with
  | nil => simp [encodeItems]
  | cons x xs ih =>
    rw [encodeItems, List.length_append, List.length_cons, Nat.succ_mul]
    have hx := h x List.mem_cons_self
    have hxs := ih fun y hy => h y (List.mem_cons_of_mem x hy)
    omega

/-- The order of the items does not matter to the size. -/
theorem length_encode_list_perm (h : xs.Perm ys) :
    (encode (.list xs)).length = (encode (.list ys)).length :=
  length_encode_list_congr (by rw [length_encodeItems, length_encodeItems, (h.map _).sum_eq])

theorem encodeItems_append (xs ys : List Item) :
    encodeItems (xs ++ ys) = encodeItems xs ++ encodeItems ys := by
  induction xs with
  | nil => rfl
  | cons x xs ih => rw [List.cons_append, encodeItems, encodeItems, ih, List.append_assoc]

/-! ## Reading a header back -/

theorem toNat_ofNat (h : n < 256) : (UInt8.ofNat n).toNat = n := UInt8.toNat_ofNat_of_lt' h

/-- A canonical length field is read back as the length. -/
theorem readSize_toBytes (h : 56 ≤ n) (rest : Bytes) :
    readSize (toBytes n ++ rest) (toBytes n).length = some n := by
  have hpos := length_toBytes_pos (n := n) (by omega)
  have hhead : (toBytes n ++ rest).head? ≠ some 0 := by
    rw [List.head?_append_of_ne_nil _ (List.length_pos_iff.mp hpos)]
    exact head?_toBytes n
  rw [readSize, if_neg (by simp), List.take_left', if_neg, ofBytes_toBytes]
  · rw [ofBytes_toBytes]
    exact fun hor => hor.elim (by omega) hhead
  · rfl

/-- **A string header is read back.** -/
theorem readKind_string (hsize : content.length < 2 ^ 64) (hbyte : ¬ OwnEncoding content) :
    readKind (puthead 0x80 0xB7 content.length ++ (content ++ rest))
      = some (.string, (puthead 0x80 0xB7 content.length).length, content.length) := by
  rcases Nat.lt_or_ge content.length 56 with hlt | hge
  · have hb : (UInt8.ofNat (0x80 + content.length)).toNat = 0x80 + content.length :=
      toNat_ofNat (by omega)
    have hone : ¬ (0x80 + content.length - 0x80 = 1 ∧
        (content ++ rest).head?.any (fun x => decide (x.toNat < 128)) = true) := by
      rintro ⟨h1, h2⟩
      obtain ⟨x, rfl⟩ := List.length_eq_one_iff.mp (show content.length = 1 by omega)
      simp only [List.cons_append, List.head?_cons, Option.any_some, decide_eq_true_eq] at h2
      exact hbyte ⟨x, rfl, by omega⟩
    simp only [puthead_of_lt hlt, List.cons_append, List.nil_append, readKind, hb]
    rw [if_neg (by omega), if_pos (by omega), if_neg hone, if_neg]
    · simp
    · simp only [List.length_append]
      omega
  · have h8 := length_toBytes_le_eight hsize
    have hp := length_toBytes_pos (n := content.length) (by omega)
    have hb : (UInt8.ofNat (0xB7 + (toBytes content.length).length)).toNat
        = 0xB7 + (toBytes content.length).length := toNat_ofNat (by omega)
    simp only [puthead_of_le hge, List.cons_append, readKind, hb]
    rw [if_neg (by omega), if_neg (by omega), if_pos (by omega), Nat.add_sub_cancel_left,
      readSize_toBytes hge, Option.bind_some, if_neg]
    · simp
    · simp only [List.length_append]
      omega

/-- **A list header is read back.** -/
theorem readKind_list (hsize : content.length < 2 ^ 64) :
    readKind (puthead 0xC0 0xF7 content.length ++ (content ++ rest))
      = some (.list, (puthead 0xC0 0xF7 content.length).length, content.length) := by
  rcases Nat.lt_or_ge content.length 56 with hlt | hge
  · have hb : (UInt8.ofNat (0xC0 + content.length)).toNat = 0xC0 + content.length :=
      toNat_ofNat (by omega)
    simp only [puthead_of_lt hlt, List.cons_append, List.nil_append, readKind, hb]
    rw [if_neg (by omega), if_neg (by omega), if_neg (by omega), if_pos (by omega), if_neg]
    · simp
    · simp only [List.length_append]
      omega
  · have h8 := length_toBytes_le_eight hsize
    have hp := length_toBytes_pos (n := content.length) (by omega)
    have hb : (UInt8.ofNat (0xF7 + (toBytes content.length).length)).toNat
        = 0xF7 + (toBytes content.length).length := toNat_ofNat (by omega)
    simp only [puthead_of_le hge, List.cons_append, readKind, hb]
    rw [if_neg (by omega), if_neg (by omega), if_neg (by omega), if_neg (by omega),
      Nat.add_sub_cancel_left, readSize_toBytes hge, Option.bind_some, if_neg]
    · simp
    · simp only [List.length_append]
      omega

/-- Once the header is read, the content and the rest are cut at the right places. -/
theorem split_of_readKind {k : Kind} {tag : Bytes}
    (h : readKind (tag ++ (content ++ rest)) = some (k, tag.length, content.length)) :
    split (tag ++ (content ++ rest)) = some (k, content, rest) := by
  rw [split, h, Option.map_some]
  simp [List.drop_append]

/-! ## Decoding undoes encoding -/

/-- The kind an encoded string shows. -/
def strKind : Bytes → Kind
  | [x] => if x.toNat ≤ 0x7F then .byte else .string
  | _ => .string

theorem strKind_ne_list (b : Bytes) : strKind b ≠ .list := by
  unfold strKind
  split
  · split <;> simp
  · simp

/-- **The first value of an encoding followed by anything is that string.** -/
theorem split_encodeString (hsize : (encodeString b).length < 2 ^ 64) (rest : Bytes) :
    split (encodeString b ++ rest) = some (strKind b, b, rest) := by
  by_cases h : OwnEncoding b
  · obtain ⟨x, rfl, hx⟩ := h
    have hb : x.toNat < 0x80 := by omega
    simp [encodeString_byte hx, split, readKind, hb, strKind, hx]
  · have hk : strKind b = .string := by
      unfold strKind
      split
      · next x => exact if_neg fun hx => h ⟨x, rfl, hx⟩
      · rfl
    rw [encodeString_eq h, List.append_assoc, hk]
    exact split_of_readKind (readKind_string
      (lt_of_le_of_lt (length_le_encodeString b) hsize) h)

/-- **A list is split off** with its content… -/
theorem split_encode_list (hsize : (encode (.list xs)).length < 2 ^ 64) (rest : Bytes) :
    split (encode (.list xs) ++ rest) = some (.list, encodeItems xs, rest) := by
  have hlt := lt_trans (length_encode_list xs) hsize
  rw [encode, List.append_assoc]
  exact split_of_readKind (readKind_list hlt)

/-- The header of an encoded value says where the value ends. -/
theorem exists_readKind_encode (hsize : (encode x).length < 2 ^ 64) (rest : Bytes) :
    ∃ k tagsize size, readKind (encode x ++ rest) = some (k, tagsize, size) ∧
      tagsize + size = (encode x).length := by
  cases x with
  | str b =>
    rw [encode] at hsize ⊢
    by_cases h : OwnEncoding b
    · obtain ⟨x, rfl, hx⟩ := h
      rw [encodeString_byte hx]
      refine ⟨.byte, 0, 1, ?_, rfl⟩
      simp [readKind, show x.toNat < 0x80 by omega]
    · have hlt := lt_of_le_of_lt (length_le_encodeString b) hsize
      rw [encodeString_eq h, List.append_assoc, readKind_string hlt h, List.length_append]
      exact ⟨_, _, _, rfl, rfl⟩
  | list xs =>
    have hlt := lt_trans (length_encode_list xs) hsize
    rw [encode, List.append_assoc, readKind_list hlt, List.length_append]
    exact ⟨_, _, _, rfl, rfl⟩

/-- …as a string is. -/
theorem splitString_encode (hsize : (encodeString b).length < 2 ^ 64) (rest : Bytes) :
    splitString (encode (.str b) ++ rest) = some (b, rest) := by
  rw [encode, splitString, split_encodeString hsize]
  have hk := strKind_ne_list b
  cases h : strKind b <;> simp_all

theorem splitList_encode (hsize : (encode (.list xs)).length < 2 ^ 64) (rest : Bytes) :
    splitList (encode (.list xs) ++ rest) = some (encodeItems xs, rest) := by
  rw [splitList, split_encode_list hsize]

mutual

/-- One item, followed by anything. -/
theorem decodeItem_encode : ∀ (x : Item) (fuel : ℕ) (rest : Bytes),
    (encode x).length < 2 ^ 64 → 2 * (encode x).length + 1 ≤ fuel →
      decodeItem fuel (encode x ++ rest) = some (x, rest)
  | .str b, fuel, rest, hsize, hfuel => by
      obtain ⟨f, rfl⟩ : ∃ f, fuel = f + 1 := ⟨fuel - 1, by omega⟩
      rw [encode] at hsize ⊢
      rw [decodeItem, split_encodeString hsize]
      have hk := strKind_ne_list b
      cases h : strKind b <;> simp_all
  | .list xs, fuel, rest, hsize, hfuel => by
      obtain ⟨f, rfl⟩ : ∃ f, fuel = f + 1 := ⟨fuel - 1, by omega⟩
      have hlt := length_encode_list xs
      rw [decodeItem, split_encode_list hsize]
      simp only [decodeItems_encode xs f (by omega) (by omega), Option.map_some]

/-- The elements of a list. -/
theorem decodeItems_encode : ∀ (xs : List Item) (fuel : ℕ),
    (encodeItems xs).length < 2 ^ 64 → 2 * (encodeItems xs).length + 2 ≤ fuel →
      decodeItems fuel (encodeItems xs) = some xs
  | [], fuel, _, _ => by rw [encodeItems, decodeItems]
  | x :: xs, fuel, hsize, hfuel => by
      obtain ⟨f, rfl⟩ : ∃ f, fuel = f + 1 := ⟨fuel - 1, by omega⟩
      have hpos := length_encode_pos x
      rw [encodeItems, List.length_append] at hsize hfuel
      have hx := decodeItem_encode x f (encodeItems xs) (by omega) (by omega)
      have hne : encode x ++ encodeItems xs ≠ [] := fun h => by
        have := congrArg List.length h
        simp only [List.length_append, List.length_nil] at this
        omega
      rw [encodeItems, decodeItems]
      · rw [hx]
        simp only [decodeItems_encode xs f (by omega) (by omega), Option.map_some]
      · exact hne

end

/-- **Decoding undoes encoding.** -/
theorem decode_encode (hsize : (encode x).length < 2 ^ 64) : decode (encode x) = some x := by
  have h := decodeItem_encode x (2 * (encode x).length + 2) [] hsize (by omega)
  rw [List.append_nil] at h
  rw [decode, h]

/-- **No encoding begins another one.** -/
theorem encode_append_inj {a : Bytes} (hx : (encode x).length < 2 ^ 64)
    (hy : (encode y).length < 2 ^ 64) (h : encode x ++ a = encode y ++ b) : x = y ∧ a = b := by
  let fuel := 2 * (encode x).length + 2 * (encode y).length + 1
  have hdx := decodeItem_encode x fuel a hx (by omega)
  have hdy := decodeItem_encode y fuel b hy (by omega)
  rw [h, hdy] at hdx
  obtain ⟨rfl, rfl⟩ := Prod.mk.inj (Option.some.inj hdx)
  exact ⟨rfl, rfl⟩

/-- **The encoding is injective.** -/
theorem encode_injective (hx : (encode x).length < 2 ^ 64) (h : encode x = encode y) : x = y :=
  Option.some.inj ((decode_encode hx).symm.trans
    ((congrArg decode h).trans (decode_encode (h ▸ hx))))

end Rlp
