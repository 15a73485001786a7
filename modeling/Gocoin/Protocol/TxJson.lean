import Gocoin.Common.Hexutil
import Gocoin.Machinery.Json
import Gocoin.Protocol.Signing

/-!
# Protocol/TxJson — transactions as JSON texts

`protocol/tx_json.go` and the JSON methods of `protocol/tx.go`.  A transaction is copied into a
struct of its own, without the time, whose big integers and payload are hexadecimal strings and
whose recipient and hash are arrays of numbers; it is read back through the same struct.  So a text
reads back exactly when the integers are not negative and below `2 ^ 256`, and to the transaction
without its time (`unmarshal_marshal`, `range_of_unmarshal`).
-/

namespace Gocoin

open Hexutil
open Sample (prims)

/-! ## Writing -/

/-- The fields of the struct for JSON. -/
inductive TxField where
  | cost
  | recipient
  | amount
  | payload
  | v
  | r
  | s
  | hash
  deriving DecidableEq

/-- The name in a text: `cost`, `to`, `value`, `input`, `v`, `r`, `s` and `hash`. -/
def TxField.name : TxField → Bytes
  | .cost => [0x63, 0x6f, 0x73, 0x74]
  | .recipient => [0x74, 0x6f]
  | .amount => [0x76, 0x61, 0x6c, 0x75, 0x65]
  | .payload => [0x69, 0x6e, 0x70, 0x75, 0x74]
  | .v => [0x76]
  | .r => [0x72]
  | .s => [0x73]
  | .hash => [0x68, 0x61, 0x73, 0x68]

/-- A pointer to a byte array: an array of numbers. -/
def arrayJson {n : ℕ} : Option (FixedBytes n) → Json
  | none => .null
  | some a => .arr (a.bytes.map fun x => .num (Numeral.write 10 x.toNat))

/-- The members of the struct, in the order of its fields. -/
def Tx.members (tx : Tx) (hash : Option Hash) : List (TxField × Json) :=
  [(.cost, .str (encodeBig tx.cost)), (.recipient, arrayJson tx.recipient),
    (.amount, .str (encodeBig tx.amount)), (.payload, .str (marshalBytes tx.payload)),
    (.v, .str (encodeBig tx.v)), (.r, .str (encodeBig tx.r)), (.s, .str (encodeBig tx.s)),
    (.hash, arrayJson hash)]

/-- The struct as a value. -/
def Tx.json (tx : Tx) (hash : Option Hash) : Json :=
  .obj ((tx.members hash).map fun m => (m.1.name, m.2))

/-- `Txstruct.MarshalJSON`. -/
def Tx.marshalJSON (tx : Tx) (hash : Option Hash) : Bytes := (tx.json hash).render

/-- `Tx.MarshalJSON`. -/
def TxObject.marshalJSON (P : Prims) (t : TxObject) : Bytes × TxObject :=
  (t.data.marshalJSON (some (t.hashOf P).1), (t.hashOf P).2)

/-! ## Reading -/

/-- The errors of reading a transaction. -/
inductive JsonErr where
  /-- the text is no JSON -/
  | badText
  /-- a value of the wrong type -/
  | badType
  /-- a string that is no number or no byte string -/
  | hex (e : HexErr)
  /-- `missing required field '…' for txstruct` -/
  | missing (name : String)
  /-- `ErrInvalidSig` -/
  | invalidSig
  deriving DecidableEq

/-- The struct for JSON; nil where nothing was read. -/
structure TxShadow where
  cost : Option ℕ := none
  recipient : Option Address := none
  amount : Option ℕ := none
  payload : Option Bytes := none
  v : Option ℕ := none
  r : Option ℕ := none
  s : Option ℕ := none
  hash : Option Hash := none

/-- `(*hexutil.Big).UnmarshalJSON` behind a pointer. -/
def decodeHexBig : Json → Except JsonErr (Option ℕ)
  | .null => .ok none
  | .str raw => ((unmarshalBig raw).map some).mapError .hex
  | _ => .error (.hex .nonString)

/-- `(*hexutil.Bytes).UnmarshalJSON`; a null is no string. -/
def decodeHexBytes : Json → Except JsonErr (Option Bytes)
  | .str raw => ((unmarshalBytes raw).map some).mapError .hex
  | _ => .error (.hex .nonString)

/-- An element of a byte array; a null leaves it as it is. -/
def decodeJsonElem (old : UInt8) : Json → Except JsonErr UInt8
  | .null => .ok old
  | .num literal =>
    match Numeral.read 10 literal with
    | none => .error .badType
    | some n => if n < 256 then .ok (UInt8.ofNat n) else .error .badType
  | _ => .error .badType

/-- A byte array: elements too many are skipped, and those that are missing are zero. -/
def decodeJsonArray {n : ℕ} (old : FixedBytes n) (xs : List Json) :
    Except JsonErr (FixedBytes n) := do
  let bs ← (old.bytes.zip xs).mapM fun p => decodeJsonElem p.1 p.2
  return ⟨(bs ++ List.replicate n 0).take n, by simp⟩

/-- A pointer to a byte array. -/
def decodeJsonFixed {n : ℕ} (old : Option (FixedBytes n)) :
    Json → Except JsonErr (Option (FixedBytes n))
  | .null => .ok none
  | .arr xs => (decodeJsonArray (old.getD (FixedBytes.zero n)) xs).map some
  | _ => .error .badType

/-- The character behind a backslash. -/
def unescape (c : UInt8) : ℕ :=
  if c = 0x62 then 0x08 else if c = 0x66 then 0x0c else if c = 0x6e then 0x0a
  else if c = 0x72 then 0x0d else if c = 0x74 then 0x09 else c.toNat

/-- The characters of a name.  Of those outside ASCII only the long s is told from the others, since
it is the only one that passes for a letter of a field. -/
def unquote : ℕ → Bytes → List ℕ
  | 0, _ => []
  | _ + 1, [] => []
  | n + 1, c :: b =>
    if c = 0x5c then
      if b.head? = some 0x75 then
        (Numeral.read 16 (b.tail.take 4)).getD 0 :: unquote n (b.tail.drop 4)
      else unescape (b.headD 0) :: unquote n b.tail
    else if c = 0xc5 ∧ b.head? = some 0xbf then 0x17f :: unquote n b.tail
    else c.toNat :: unquote n b

/-- A letter without its case. -/
def foldCase (c : ℕ) : ℕ := if 0x41 ≤ c ∧ c ≤ 0x5a then c + 0x20 else if c = 0x17f then 0x73 else c

/-- The field of a name, in any case. -/
def TxField.ofName (raw : Bytes) : Option TxField :=
  [cost, recipient, amount, payload, v, r, s, hash].find? fun f =>
    f.name.map UInt8.toNat == (unquote raw.length raw).map foldCase

/-- A value for a field. -/
def TxShadow.set (d : TxShadow) (x : Json) : TxField → Except JsonErr TxShadow
  | .cost => do
    let z ← decodeHexBig x
    return { d with cost := z }
  | .recipient => do
    let a ← decodeJsonFixed d.recipient x
    return { d with recipient := a }
  | .amount => do
    let z ← decodeHexBig x
    return { d with amount := z }
  | .payload => do
    let b ← decodeHexBytes x
    return { d with payload := b }
  | .v => do
    let z ← decodeHexBig x
    return { d with v := z }
  | .r => do
    let z ← decodeHexBig x
    return { d with r := z }
  | .s => do
    let z ← decodeHexBig x
    return { d with s := z }
  | .hash => do
    let h ← decodeJsonFixed d.hash x
    return { d with hash := h }

/-- A member of an object; names of no field are skipped. -/
def TxShadow.member (d : TxShadow) (m : Bytes × Json) : Except JsonErr TxShadow :=
  match TxField.ofName m.1 with
  | none => .ok d
  | some f => d.set m.2 f

/-- `json.Unmarshal` into the struct. -/
def TxShadow.unmarshal (input : Bytes) : Except JsonErr TxShadow :=
  match Json.parse input with
  | none => .error .badText
  | some (.obj ms) => ms.foldlM TxShadow.member {}
  | some .null => .ok {}
  | some _ => .error .badType

/-- A required field. -/
def required {α : Type} (name : String) : Option α → Except JsonErr α
  | none => .error (.missing name)
  | some a => .ok a

/-- The checks of `Txstruct.UnmarshalJSON`, and the contents with their hash. -/
def TxShadow.toTx (dec : TxShadow) : Except JsonErr (Tx × Option Hash) := do
  let cost ← required "gas" dec.cost
  let amount ← required "value" dec.amount
  let payload ← required "input" dec.payload
  let v ← required "v" dec.v
  let r ← required "r" dec.r
  let s ← required "s" dec.s
  return (⟨cost, dec.recipient, amount, 0, payload, v, r, s⟩, dec.hash)

/-- `Txstruct.UnmarshalJSON`. -/
def Tx.unmarshalJSON (input : Bytes) : Except JsonErr (Tx × Option Hash) := do
  let dec ← TxShadow.unmarshal input
  dec.toTx

/-- `Tx.UnmarshalJSON`. -/
def TxObject.unmarshalJSON (input : Bytes) : Except JsonErr TxObject := do
  let (dec, hash) ← Tx.unmarshalJSON input
  if Tx.validateSignatureValues (u64 dec.v - 27).toUInt8 dec.r dec.s then
    return ⟨dec, hash, none, none⟩
  else .error .invalidSig

/-! ## The text of a transaction -/

theorem plain_digit {d : ℕ} (h : d < 16) :
    Numeral.digit d ≠ 0x22 ∧ Numeral.digit d ≠ 0x5c ∧ 0x20 ≤ Numeral.digit d := by
  interval_cases d <;> decide

theorem plainString_write (n : ℕ) : Json.PlainString (Numeral.write 16 n) := by
  intro c hc
  obtain ⟨d, hd, rfl⟩ := Numeral.mem_write (by norm_num) hc
  exact plain_digit hd

theorem plainString_encodeBig (z : ℤ) : Json.PlainString (encodeBig z) := by
  have hsign : Json.PlainString (if z < 0 then [0x2d] else []) := by
    split_ifs <;> decide
  have hmark : Json.PlainString [0x30, 0x78] := by decide
  rw [encodeBig]
  by_cases h0 : z = 0
  · rw [if_pos h0]
    decide
  · rw [if_neg h0]
    exact hsign.append (hmark.append (plainString_write _))

theorem plainString_marshalBytes (b : Bytes) : Json.PlainString (marshalBytes b) := by
  have hmark : Json.PlainString [0x30, 0x78] := by decide
  refine hmark.append fun c hc => ?_
  obtain ⟨d, hd, rfl⟩ := Numeral.mem_writeBytes hc
  exact plain_digit hd

/-- A byte in decimal is the literal of a number. -/
theorem validNumber_byte (x : UInt8) :
    Json.validNumber (Numeral.write 10 x.toNat) = true ∧
      ∀ c ∈ Numeral.write 10 x.toNat, Json.isNumberByte c = true := by
  have hall : ∀ n < 256, (Json.validNumber (Numeral.write 10 n) &&
      (Numeral.write 10 n).all Json.isNumberByte) = true := by decide +kernel
  have h := hall x.toNat x.toNat_lt
  rw [Bool.and_eq_true, List.all_eq_true] at h
  exact h

variable {n : ℕ} {z : ℤ} {tx : Tx} {hash : Option Hash}

theorem plain_arrayJson (a : Option (FixedBytes n)) : Json.Plain 2 (arrayJson a) := by
  cases a with
  | none => trivial
  | some a =>
    intro x hx
    obtain ⟨y, -, rfl⟩ := List.mem_map.mp hx
    exact validNumber_byte y

theorem plain_json (tx : Tx) (hash : Option Hash) : Json.Plain 3 (tx.json hash) := by
  have hname : ∀ f : TxField, Json.PlainString f.name := by
    intro f
    cases f <;> decide
  have hmem : ∀ m ∈ tx.members hash, Json.Plain 2 m.2 := by
    intro m hm
    simp only [Tx.members, List.mem_cons, List.not_mem_nil, or_false] at hm
    rcases hm with rfl | rfl | rfl | rfl | rfl | rfl | rfl | rfl
    · exact plainString_encodeBig _
    · exact plain_arrayJson _
    · exact plainString_encodeBig _
    · exact plainString_marshalBytes _
    · exact plainString_encodeBig _
    · exact plainString_encodeBig _
    · exact plainString_encodeBig _
    · exact plain_arrayJson _
  intro m hm
  obtain ⟨m', hm', rfl⟩ := List.mem_map.mp hm
  exact ⟨hname m'.1, hmem m' hm'⟩

/-- The text of a transaction is read as its value. -/
theorem parse_marshalJSON (tx : Tx) (hash : Option Hash) :
    Json.parse (tx.marshalJSON hash) = some (tx.json hash) := by
  refine Json.parse_render (plain_json tx hash) ?_
  rw [Tx.json, Json.render]
  simp [Json.renderMembers_eq, Tx.members, Json.commas, Json.renderMember]

/-! ## Fields read back -/

/-- The integers that can be read. -/
def InRange (z : ℤ) : Prop := 0 ≤ z ∧ z < 2 ^ 256

theorem decodeHexBig_encodeBig (h : InRange z) :
    decodeHexBig (.str (encodeBig z)) = .ok (some z.toNat) := by
  rw [decodeHexBig, unmarshalBig_encodeBig, if_neg (not_lt.mpr h.1), if_pos h.2]
  rfl

theorem inRange_of_decodeHexBig {n : Option ℕ} (h : decodeHexBig (.str (encodeBig z)) = .ok n) :
    InRange z := by
  rw [decodeHexBig, unmarshalBig_encodeBig] at h
  by_cases hneg : z < 0
  · rw [if_pos hneg] at h
    cases h
  by_cases hlt : z < 2 ^ 256
  · exact ⟨not_lt.mp hneg, hlt⟩
  · rw [if_neg hneg, if_neg hlt] at h
    cases h

theorem decodeHexBytes_marshalBytes (b : Bytes) :
    decodeHexBytes (.str (marshalBytes b)) = .ok (some b) := by
  rw [decodeHexBytes, unmarshalBytes_marshalBytes]
  rfl

theorem decodeJsonElem_write (old x : UInt8) :
    decodeJsonElem old (.num (Numeral.write 10 x.toNat)) = .ok x := by
  simp only [decodeJsonElem, Numeral.read_write (by norm_num : 2 ≤ 10) (by norm_num),
    if_pos x.toNat_lt, UInt8.ofNat_toNat]

theorem mapM_decodeJsonElem {olds bs : Bytes} (h : bs.length = olds.length) :
    (olds.zip (bs.map fun x => Json.num (Numeral.write 10 x.toNat))).mapM
      (fun p => decodeJsonElem p.1 p.2) = .ok bs := by
  induction bs generalizing olds with
  | nil =>
    rw [List.map_nil, List.zip_nil_right]
    rfl
  | cons x bs ih =>
    cases olds with
    | nil => cases h
    | cons y olds =>
      rw [List.map_cons, List.zip_cons_cons, List.mapM_cons, decodeJsonElem_write,
        ih (Nat.succ.inj h)]
      rfl

theorem decodeJsonFixed_arrayJson (old a : Option (FixedBytes n)) :
    decodeJsonFixed old (arrayJson a) = .ok a := by
  cases a with
  | none => rfl
  | some a =>
    have hlen : a.bytes.length = (old.getD (FixedBytes.zero n)).bytes.length := by
      rw [a.length_eq, FixedBytes.length_eq]
    have htake : (a.bytes ++ List.replicate n 0).take n = a.bytes := by
      rw [List.take_append_of_le_length a.length_eq.ge, List.take_of_length_le a.length_eq.le]
    rw [arrayJson, decodeJsonFixed, decodeJsonArray, mapM_decodeJsonElem hlen]
    simp only [bind, Except.bind, pure, Except.pure, Except.map]
    exact congrArg (fun b => Except.ok (some b)) (FixedBytes.ext_bytes htake)

theorem ofName_name (f : TxField) : TxField.ofName f.name = some f := by
  cases f <;> rfl

theorem member_name (d : TxShadow) (f : TxField) (x : Json) : d.member (f.name, x) = d.set x f := by
  rw [TxShadow.member, ofName_name]

/-- The integers of a transaction can be read. -/
structure Tx.InRange (tx : Tx) : Prop where
  cost : Gocoin.InRange tx.cost
  amount : Gocoin.InRange tx.amount
  v : Gocoin.InRange tx.v
  r : Gocoin.InRange tx.r
  s : Gocoin.InRange tx.s

/-- The members in their order, each with its own reader. -/
theorem unmarshal_json (tx : Tx) (hash : Option Hash) :
    TxShadow.unmarshal (tx.marshalJSON hash) = do
      let cost ← decodeHexBig (.str (encodeBig tx.cost))
      let amount ← decodeHexBig (.str (encodeBig tx.amount))
      let v ← decodeHexBig (.str (encodeBig tx.v))
      let r ← decodeHexBig (.str (encodeBig tx.r))
      let s ← decodeHexBig (.str (encodeBig tx.s))
      return ⟨cost, tx.recipient, amount, some tx.payload, v, r, s, hash⟩ := by
  simp only [TxShadow.unmarshal, parse_marshalJSON, Tx.json, Tx.members, List.map_cons,
    List.map_nil, List.foldlM_cons, List.foldlM_nil, member_name, TxShadow.set,
    decodeJsonFixed_arrayJson, decodeHexBytes_marshalBytes, bind_assoc, pure_bind]
  rfl

theorem exists_ok_of_bind {ε α β : Type} {x : Except ε α} {f : α → Except ε β} {b : β}
    (h : x >>= f = .ok b) : ∃ a, x = .ok a ∧ f a = .ok b := by
  cases x with
  | error e => cases h
  | ok a => exact ⟨a, rfl, h⟩

/-- **A transaction reads back without its time**, when its integers are in range. -/
theorem unmarshal_marshal (h : tx.InRange) (hash : Option Hash) :
    Tx.unmarshalJSON (tx.marshalJSON hash) = .ok ({ tx with txtime := 0 }, hash) := by
  have hcost : ((tx.cost.toNat : ℕ) : ℤ) = tx.cost := Int.toNat_of_nonneg h.cost.1
  have hamount : ((tx.amount.toNat : ℕ) : ℤ) = tx.amount := Int.toNat_of_nonneg h.amount.1
  rw [Tx.unmarshalJSON, unmarshal_json, decodeHexBig_encodeBig h.cost,
    decodeHexBig_encodeBig h.amount, decodeHexBig_encodeBig h.v, decodeHexBig_encodeBig h.r,
    decodeHexBig_encodeBig h.s]
  simp only [bind, Except.bind, pure, Except.pure, TxShadow.toTx, required, hcost, hamount,
    Int.toNat_natCast]

/-- A text that is read is that of a transaction in range. -/
theorem range_of_unmarshal {d : Tx × Option Hash}
    (h : Tx.unmarshalJSON (tx.marshalJSON hash) = .ok d) : tx.InRange := by
  rw [Tx.unmarshalJSON, unmarshal_json] at h
  obtain ⟨dec, hdec, -⟩ := exists_ok_of_bind h
  obtain ⟨_, hcost, hdec⟩ := exists_ok_of_bind hdec
  obtain ⟨_, hamount, hdec⟩ := exists_ok_of_bind hdec
  obtain ⟨_, hv, hdec⟩ := exists_ok_of_bind hdec
  obtain ⟨_, hr, hdec⟩ := exists_ok_of_bind hdec
  obtain ⟨_, hs, -⟩ := exists_ok_of_bind hdec
  exact ⟨inRange_of_decodeHexBig hcost, inRange_of_decodeHexBig hamount, inRange_of_decodeHexBig hv,
    inRange_of_decodeHexBig hr, inRange_of_decodeHexBig hs⟩

/-- What `Tx.UnmarshalJSON` accepts of the text of a transaction. -/
theorem unmarshalJSON_eq_ok {t : TxObject} :
    TxObject.unmarshalJSON (tx.marshalJSON hash) = .ok t ↔
      tx.InRange ∧ Tx.validateSignatureValues (u64 tx.v - 27).toUInt8 tx.r tx.s = true ∧
        t = ⟨{ tx with txtime := 0 }, hash, none, none⟩ := by
  constructor
  · intro h
    obtain ⟨d, hd, hrest⟩ := exists_ok_of_bind h
    have hrange := range_of_unmarshal hd
    rw [unmarshal_marshal hrange] at hd
    obtain rfl := Except.ok.inj hd
    simp only at hrest
    cases hval : Tx.validateSignatureValues (u64 tx.v - 27).toUInt8 tx.r tx.s with
    | false =>
      rw [hval] at hrest
      cases hrest
    | true =>
      rw [hval] at hrest
      exact ⟨hrange, rfl, (Except.ok.inj hrest).symm⟩
  · rintro ⟨hrange, hval, rfl⟩
    rw [TxObject.unmarshalJSON, unmarshal_marshal hrange]
    simp only [bind, Except.bind, hval]
    rfl

/-! ## Identity -/

/-- The order of the group is below `2 ^ 256`. -/
theorem secp256k1N_lt : (Tx.secp256k1N : ℤ) < 2 ^ 256 := by
  norm_num [Tx.secp256k1N]

/-- The last byte in range, before and after the narrowing. -/
theorem narrow_eq (V : ℕ) :
    ((u64 V - 27).toUInt8 = 0 ∨ (u64 V - 27).toUInt8 = 1) ↔ V % 256 = 27 ∨ V % 256 = 28 := by
  have hV : (u64 V).toNat = V % 2 ^ 64 := by
    rw [u64, UInt64.toNat_ofNat']
  have h27 : (27 : UInt64).toNat = 27 := rfl
  have hbyte : (u64 V - 27).toUInt8.toNat = (V + 229) % 256 := by
    rw [UInt64.toNat_toUInt8, UInt64.toNat_sub, hV, h27]
    omega
  have h0 : (0 : UInt8).toNat = 0 := rfl
  have h1 : (1 : UInt8).toNat = 1 := rfl
  rw [← UInt8.toNat_inj, ← UInt8.toNat_inj, hbyte, h0, h1]
  omega

/-- **JSON keeps the identity of a transaction** exactly when the cost and the amount are not
negative, the time is zero, and the memos of the hash and of the sender, if there are any, are those
of the contents. -/
theorem json_roundTrip_iff (P : Prims) (t : TxObject) (hv : t.data.v = 27 ∨ t.data.v = 28)
    (hr : 1 ≤ t.data.r ∧ t.data.r < Tx.secp256k1N) (hs : 1 ≤ t.data.s ∧ t.data.s < Tx.secp256k1N)
    (hcost : t.data.cost < 2 ^ 256) (hamount : t.data.amount < 2 ^ 256) :
    (∃ t', TxObject.unmarshalJSON (t.marshalJSON P).1 = .ok t' ∧
      (t'.hashOf P).1 = (t.hashOf P).1 ∧ (t'.senderOf P).1 = (t.senderOf P).1 ∧
      t'.data = t.data) ↔
    0 ≤ t.data.cost ∧ 0 ≤ t.data.amount ∧ t.data.txtime = 0 ∧
      (∀ h ∈ t.hash, h = t.data.hash P) ∧ ∀ a ∈ t.sender, t.data.senderErr P = .ok a := by
  rw [TxObject.marshalJSON]
  constructor
  · rintro ⟨t', hread, hhash, hsender, hdata⟩
    obtain ⟨hrange, -, rfl⟩ := unmarshalJSON_eq_ok.mp hread
    rw [TxObject.fst_hashOf, TxObject.fst_hashOf, hdata] at hhash
    rw [TxObject.fst_senderOf, TxObject.fst_senderOf, hdata] at hsender
    refine ⟨hrange.cost.1, hrange.amount.1, (congrArg Tx.txtime hdata).symm, fun h hh => ?_,
      fun a ha => ?_⟩
    · rw [Option.mem_def] at hh
      rw [hh] at hhash
      exact hhash.symm
    · rw [Option.mem_def] at ha
      rw [ha] at hsender
      exact hsender
  · rintro ⟨hcost0, hamount0, htime, hmemo, hfrom⟩
    have hsmall : ∀ n : ℕ, n < Tx.secp256k1N → InRange n := fun n hn =>
      ⟨Int.natCast_nonneg n, lt_trans (by exact_mod_cast hn) secp256k1N_lt⟩
    have hrange : t.data.InRange :=
      ⟨⟨hcost0, hcost⟩, ⟨hamount0, hamount⟩, ⟨Int.natCast_nonneg _, by rcases hv with h | h <;>
        rw [h] <;> norm_num⟩, hsmall _ hr.2, hsmall _ hs.2⟩
    have hval : Tx.validateSignatureValues (u64 t.data.v - 27).toUInt8 t.data.r t.data.s = true :=
      (Tx.validateSignatureValues_eq_true ..).mpr
        ⟨hr, hs, (narrow_eq _).mpr (by rcases hv with h | h <;> rw [h] <;> decide)⟩
    have hdata : { t.data with txtime := 0 } = t.data := by
      rw [← htime]
    refine ⟨_, unmarshalJSON_eq_ok.mpr ⟨hrange, hval, rfl⟩, ?_, ?_, hdata⟩
    · rw [TxObject.fst_hashOf, TxObject.fst_hashOf, hdata]
      cases hh : t.hash with
      | none => rfl
      | some h => exact (hmemo h hh).symm
    · rw [TxObject.fst_senderOf, TxObject.fst_senderOf, hdata]
      cases ha : t.sender with
      | none => rfl
      | some a => exact hfrom a ha

/-- A transfer of 2 at a cost of 1, at a time and with a value of `V`. -/
def Sample.jsonTx (txtime : UInt64) (v : ℕ) : Tx where
  cost := 1
  recipient := some (Sample.address 7)
  amount := 2
  txtime := txtime
  payload := [5]
  v := v
  r := 1
  s := 1

open Sample (jsonTx)

theorem json_roundTrip_iff_timeless :
    ((jsonTx 0 27).v = 27 ∧ (1 ≤ (jsonTx 0 27).r ∧ 1 < Tx.secp256k1N) ∧
      (1 ≤ (jsonTx 0 27).s ∧ 1 < Tx.secp256k1N) ∧ (jsonTx 0 27).cost < 2 ^ 256 ∧
      (jsonTx 0 27).amount < 2 ^ 256) ∧
    ∃ t', TxObject.unmarshalJSON ((TxObject.ofData (jsonTx 0 27)).marshalJSON
        prims).1 = .ok t' ∧
      (t'.hashOf prims).1 = ((TxObject.ofData (jsonTx 0 27)).hashOf prims).1 ∧
      (t'.senderOf prims).1
        = ((TxObject.ofData (jsonTx 0 27)).senderOf prims).1 ∧
      t'.data = jsonTx 0 27 := by
  refine ⟨by decide +kernel, ?_⟩
  exact (json_roundTrip_iff prims (TxObject.ofData (jsonTx 0 27)) (.inl rfl)
    (by decide +kernel) (by decide +kernel) (by decide +kernel) (by decide +kernel)).mpr
    ⟨by decide, by decide, rfl, (by intro h hh; cases hh), (by intro a ha; cases ha)⟩

/-- With a time, the text reads back to a transaction at time zero with another hash. -/
theorem json_loses_time :
    ∃ t', TxObject.unmarshalJSON ((TxObject.ofData (jsonTx 1 27)).marshalJSON
        prims).1 = .ok t' ∧
      (t'.hashOf prims).1 ≠ ((TxObject.ofData (jsonTx 1 27)).hashOf prims).1 ∧
      t'.data.txtime = 0 ∧ t'.data ≠ jsonTx 1 27 := by
  have hval : Tx.validateSignatureValues (u64 (jsonTx 1 27).v - 27).toUInt8
      (jsonTx 1 27).r (jsonTx 1 27).s = true := by decide +kernel
  have hrange : (jsonTx 1 27).InRange := by
    constructor <;> exact ⟨by decide, by decide +kernel⟩
  exact ⟨_, unmarshalJSON_eq_ok.mpr ⟨hrange, hval, rfl⟩, by decide +kernel, rfl, by decide⟩

/-- **The two checks of a signature** differ exactly on the values of `V` of more than eight and at
most 256 bits whose last byte is 27 or 28. -/
theorem json_agrees_iff (P : Prims) (sighash : Hash) (tx : Tx) (hash : Option Hash)
    (hcost : InRange tx.cost) (hamount : InRange tx.amount) :
    ((∃ t, TxObject.unmarshalJSON (tx.marshalJSON hash) = .ok t) ↔
      Tx.recoverPlainErr P sighash tx.r tx.s tx.v ≠ .error .invalidSig) ↔
    ¬ (256 ≤ tx.v ∧ tx.v < 2 ^ 256 ∧ (tx.v % 256 = 27 ∨ tx.v % 256 = 28) ∧
      (1 ≤ tx.r ∧ tx.r < Tx.secp256k1N) ∧ (1 ≤ tx.s ∧ tx.s < Tx.secp256k1N)) := by
  have hN := secp256k1N_lt
  have haccept : (∃ t, TxObject.unmarshalJSON (tx.marshalJSON hash) = .ok t) ↔
      tx.v < 2 ^ 256 ∧ (tx.v % 256 = 27 ∨ tx.v % 256 = 28) ∧
        (1 ≤ tx.r ∧ tx.r < Tx.secp256k1N) ∧ (1 ≤ tx.s ∧ tx.s < Tx.secp256k1N) := by
    simp only [unmarshalJSON_eq_ok, exists_and_left, exists_eq, and_true,
      Tx.validateSignatureValues_eq_true, narrow_eq]
    constructor
    · rintro ⟨hrange, hr, hs, hv⟩
      exact ⟨by exact_mod_cast hrange.v.2, hv, hr, hs⟩
    · rintro ⟨hlt, hv, hr, hs⟩
      exact ⟨⟨hcost, hamount, ⟨Int.natCast_nonneg _, by exact_mod_cast hlt⟩,
        ⟨Int.natCast_nonneg _, by have := hr.2; omega⟩,
        ⟨Int.natCast_nonneg _, by have := hs.2; omega⟩⟩, hr, hs, hv⟩
  have hrecover : Tx.recoverPlainErr P sighash tx.r tx.s tx.v ≠ .error .invalidSig ↔
      tx.v < 256 ∧ (tx.v % 256 = 27 ∨ tx.v % 256 = 28) ∧
        (1 ≤ tx.r ∧ tx.r < Tx.secp256k1N) ∧ (1 ≤ tx.s ∧ tx.s < Tx.secp256k1N) := by
    rw [Ne, Tx.recoverPlainErr_eq_invalidSig, Tx.recoverSig]
    by_cases hv : 256 ≤ tx.v
    · rw [if_pos hv]
      exact iff_of_false (fun h => h rfl) fun h => absurd h.1 (not_lt.mpr hv)
    · rw [if_neg hv, ite_eq_right_iff]
      simp only [reduceCtorEq, imp_false, not_not, Tx.validateSignatureValues_eq_true, narrow_eq]
      constructor
      · rintro ⟨hr, hs, h⟩
        exact ⟨not_le.mp hv, h, hr, hs⟩
      · rintro ⟨-, h, hr, hs⟩
        exact ⟨hr, hs, h⟩
  rw [haccept, hrecover]
  have h256 : tx.v < 256 → tx.v < 2 ^ 256 := fun h => lt_trans h (by norm_num)
  by_cases hv : tx.v < 256
  · have := h256 hv
    refine iff_of_true ?_ fun h => absurd h.1 (not_le.mpr hv)
    simp only [hv, this]
  · simp only [hv, false_and, iff_false, not_lt.mp hv, true_and]

theorem json_agrees_iff_byte :
    (InRange (jsonTx 0 27).cost ∧ InRange (jsonTx 0 27).amount) ∧
    ((∃ t, TxObject.unmarshalJSON ((jsonTx 0 27).marshalJSON none) = .ok t) ↔
      Tx.recoverPlainErr prims (.zero 32) 1 1 27 ≠ .error .invalidSig) := by
  have hcost : InRange (jsonTx 0 27).cost := ⟨by decide, by decide +kernel⟩
  have hamount : InRange (jsonTx 0 27).amount := ⟨by decide, by decide +kernel⟩
  refine ⟨⟨hcost, hamount⟩, ?_⟩
  exact (json_agrees_iff prims (.zero 32) (jsonTx 0 27) none hcost
    hamount).mpr (by decide)

/-- `V = 283` is read from JSON and refused by the recovery. -/
theorem json_accepts_wide_v :
    (∃ t, TxObject.unmarshalJSON ((jsonTx 0 283).marshalJSON none) = .ok t) ∧
      Tx.recoverPlainErr prims (.zero 32) 1 1 283 = .error .invalidSig := by
  have hval : Tx.validateSignatureValues (u64 (jsonTx 0 283).v - 27).toUInt8
      (jsonTx 0 283).r (jsonTx 0 283).s = true := by decide +kernel
  have hrange : (jsonTx 0 283).InRange := by
    constructor <;> exact ⟨by decide, by decide +kernel⟩
  exact ⟨⟨_, unmarshalJSON_eq_ok.mpr ⟨hrange, hval, rfl⟩⟩, rfl⟩

end Gocoin
