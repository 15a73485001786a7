import Gocoin.Protocol.Wire

/-!
# Protocol/Size — the size of a transaction

A transaction remembers its size.  One that was received has it from the header of the list it was
decoded from (`ListSize`); one that was built here counts, at the first call of `Size`, the bytes
that the encoder hands to a writer piece by piece.  Both are the length of the encoding: the pieces
are what `toBytes` would weave (`flatten_toWriter`), and although an empty list may stand for the
empty string of a missing recipient, the two have the same length (`length_reencode`).

`StorageSize` is a floating-point number; sizes of byte strings are small enough for it to be exact,
so the model counts in natural numbers.
-/

namespace Gocoin

open Rlp

/-- `ListSize`. -/
def listSize (contentSize : ℕ) : ℕ := (headsize contentSize + contentSize) % 2 ^ 64

theorem listSize_eq {xs : List Item} (h : (encode (.list xs)).length < 2 ^ 64) :
    listSize (encodeItems xs).length = (encode (.list xs)).length := by
  rw [encode_list_eq, List.length_append, length_puthead] at h ⊢
  exact Nat.mod_eq_of_lt h

/-! ## Writing piece by piece -/

namespace Encbuf

/-- The loop of `toWriter`, from a position in the string data on: the pieces that are written. -/
def pieces (str : Bytes) : ℕ → List Listhead → List Bytes
  | strpos, [] => if strpos < str.length then [str.drop strpos] else []
  | strpos, head :: heads =>
    if strpos < head.offset then
      (str.take head.offset).drop strpos :: puthead 0xC0 0xF7 head.size
        :: pieces str head.offset heads
    else puthead 0xC0 0xF7 head.size :: pieces str strpos heads

/-- `toWriter`. -/
def toWriter (w : Encbuf) : List Bytes := pieces w.str 0 w.lheads

/-- The headers stand in the order of their places. -/
def Ordered (heads : List Listhead) : Prop := heads.Pairwise fun h h' => h.offset ≤ h'.offset

/-- The pieces of ordered headers are what `toBytes` weaves. -/
theorem flatten_pieces (str : Bytes) {strpos : ℕ} {heads : List Listhead}
    (hbehind : Behind strpos heads) (hordered : Ordered heads) :
    (pieces str strpos heads).flatten = weave str strpos heads := by
  induction heads generalizing strpos with
  | nil =>
    unfold pieces weave
    split
    · rw [List.flatten_singleton]
    · next h => rw [List.flatten_nil, List.drop_eq_nil_of_le (not_lt.mp h)]
  | cons head heads ih =>
    have hle : strpos ≤ head.offset := hbehind head List.mem_cons_self
    obtain ⟨hfirst, hrest⟩ := List.pairwise_cons.mp hordered
    rw [pieces, weave, ← ih hfirst hrest]
    split
    · rw [List.flatten_cons, List.flatten_cons, List.append_assoc]
    · next h =>
      obtain rfl : strpos = head.offset := le_antisymm hle (not_lt.mp h)
      have hnil : (str.take head.offset).drop head.offset = [] :=
        List.drop_eq_nil_of_le (List.length_take_le _ _)
      rw [List.flatten_cons, hnil, List.nil_append]

end Encbuf

mutual

theorem headsOf_offset_le : ∀ (offset : ℕ) (x : Item), ∀ h ∈ headsOf offset x,
    h.offset ≤ offset + (strData x).length
  | _, .str _ => by simp [headsOf]
  | offset, .list xs => by
      intro h hmem
      rw [headsOf, List.mem_cons] at hmem
      rcases hmem with rfl | hmem
      · exact Nat.le_add_right _ _
      · exact headsOfAll_offset_le offset xs h hmem

theorem headsOfAll_offset_le : ∀ (offset : ℕ) (xs : List Item), ∀ h ∈ headsOfAll offset xs,
    h.offset ≤ offset + (strDatas xs).length
  | _, [] => by simp [headsOfAll]
  | offset, x :: xs => by
      intro h hmem
      rw [headsOfAll, List.mem_append] at hmem
      rw [strDatas, List.length_append]
      rcases hmem with hmem | hmem
      · have := headsOf_offset_le offset x h hmem
        omega
      · have := headsOfAll_offset_le _ xs h hmem
        omega

end

mutual

/-- The headers of an item are noted in the order of their places. -/
theorem ordered_headsOf : ∀ (offset : ℕ) (x : Item), Encbuf.Ordered (headsOf offset x)
  | _, .str _ => .nil
  | offset, .list xs => by
      rw [headsOf]
      exact .cons (behind_headsOfAll offset xs) (ordered_headsOfAll offset xs)

theorem ordered_headsOfAll : ∀ (offset : ℕ) (xs : List Item), Encbuf.Ordered (headsOfAll offset xs)
  | _, [] => .nil
  | offset, x :: xs => by
      rw [headsOfAll]
      refine List.pairwise_append.mpr
        ⟨ordered_headsOf offset x, ordered_headsOfAll _ xs, fun h hmem h' hmem' => ?_⟩
      exact (headsOf_offset_le offset x h hmem).trans (behind_headsOfAll _ xs h' hmem')

end

/-- **The pieces make up the encoding.** -/
theorem Encbuf.flatten_toWriter (it : Item) :
    (Encbuf.empty.push it).toWriter.flatten = encode it := by
  have h := flatten_pieces (strData it) (behind_headsOf 0 it) (ordered_headsOf 0 it)
  rw [← toBytes_push]
  simpa [toWriter, toBytes, push, empty] using h

/-! ## `Size` -/

/-- The `writeCounter` behind some calls of `Write`. -/
def writeCounter (writes : List Bytes) : ℕ := writes.foldl (fun c b => c + b.length) 0

theorem writeCounter_eq (writes : List Bytes) : writeCounter writes = writes.flatten.length := by
  suffices h : ∀ c, writes.foldl (fun c b => c + b.length) c = c + writes.flatten.length by
    rw [writeCounter, h 0, Nat.zero_add]
  induction writes with
  | nil => exact fun c => rfl
  | cons b writes ih =>
    intro c
    rw [List.foldl_cons, ih, List.flatten_cons, List.length_append, Nat.add_assoc]

/-- What `Size` counts; the error of `Encode` is dropped, and then nothing has been written. -/
def Tx.countSize (tx : Tx) : ℕ :=
  ((tx.encodeRLP .empty).map fun w => writeCounter w.toWriter).getD 0

/-- The count is the length of the encoding. -/
theorem Tx.countSize_eq (tx : Tx) : tx.countSize = tx.size := by
  cases hit : tx.item with
  | some it =>
    rw [countSize, Tx.writes_encodeRLP hit, Option.map_some, Option.getD_some, writeCounter_eq,
      Encbuf.flatten_toWriter, size, hit]
    rfl
  | none =>
    have hnone : tx.encodeRLP .empty = none := by
      have h := tx.encodeToBytes_encodeRLP
      rw [hit, Option.map_none, encodeToBytes, Option.map_eq_none_iff] at h
      exact h
    rw [countSize, hnone, size, hit]
    rfl

/-- `Tx` with the memo of its size. -/
structure SizedTx where
  data : Tx
  size : Option ℕ
  deriving DecidableEq

namespace SizedTx

/-- A transaction that was built here. -/
def fresh (tx : Tx) : SizedTx := ⟨tx, none⟩

/-- `DecodeRLP`, with the size it stores. -/
def decodeRLP : Decoder SizedTx := do
  let (_, size) ← Stream.kindAhead.orValue (.byte, 0)
  let data ← Tx.decodeData
  pure ⟨data, some (listSize size)⟩

/-- `Size`: the memo, or the count, which is stored. -/
def getSize (tx : SizedTx) : ℕ × SizedTx :=
  match tx.size with
  | some size => (size, tx)
  | none => (tx.data.countSize, { tx with size := some tx.data.countSize })

/-- The header that is looked at is that of the list that is decoded. -/
theorem exists_of_decodeRLP {s s' : Stream} {tx : SizedTx} (h : decodeRLP s = .ok tx s') :
    Tx.decodeRLP s = .ok tx.data s' ∧
      ∃ k size s₁, Stream.kindAhead s = .ok (k, size) s₁ ∧ tx.size = some (listSize size) := by
  obtain ⟨⟨k, size⟩, s₁, hk, h⟩ := bind_eq_ok.mp h
  obtain ⟨data, s₂, hdata, h⟩ := bind_eq_ok.mp h
  cases h
  refine ⟨bind_eq_ok.mpr ⟨_, s₁, hk, hdata⟩, ?_⟩
  cases hahead : Stream.kindAhead s with
  | ok a s₃ =>
    rw [Decoder.orValue, hahead] at hk
    cases hk
    exact ⟨k, size, _, rfl, rfl⟩
  | error e s₃ =>
    rw [Decoder.orValue, hahead] at hk
    cases hk
    obtain ⟨_, _, hlist, -⟩ := bind_eq_ok.mp hdata
    obtain ⟨_, _, hahead', -⟩ := bind_eq_ok.mp (mapErr_eq_ok.mp hlist)
    rw [Stream.kindAhead_idem_error hahead] at hahead'
    cases hahead'

/-- A byte string is decoded to a transaction with and without the memo. -/
theorem decodeBytes_decodeRLP {b : Bytes} {tx : SizedTx} (h : decodeBytes decodeRLP b = .ok tx) :
    decodeBytes Tx.decodeRLP b = .ok tx.data := by
  obtain ⟨s, hd, hend⟩ := decodeBytes_eq_ok.mp h
  exact decodeBytes_eq_ok.mpr ⟨s, (exists_of_decodeRLP hd).1, hend⟩

end SizedTx

/-- **What is encoded again is as long as it was**, also where an empty list becomes an empty
string. -/
theorem length_reencode {it : Item} {tx : Tx} (h : Tx.ofItem it = some tx) :
    tx.size = (encode it).length := by
  obtain ⟨cost, recipient, rest, rfl, hrec, hitem⟩ := Tx.item_of_ofItem h
  have hlen : (encode (Tx.recipientItem tx.recipient)).length = (encode recipient).length := by
    obtain ⟨hiff, hnone⟩ := recipientItem_of_recipientOfItem hrec
    by_cases hl : recipient = .list []
    · rw [hnone hl, hl]
      rfl
    · rw [hiff.mpr hl]
  rw [Tx.size, hitem]
  refine length_encode_list_congr ?_
  simp only [encodeItems, List.length_append, hlen]

/-- **The size that is stored is the length of what was decoded**, and that of what would be
encoded. -/
theorem SizedTx.size_of_decodeBytes {b : Bytes} {tx : SizedTx} (hb : b.length < 2 ^ 64)
    (h : decodeBytes decodeRLP b = .ok tx) : tx.size = some b.length ∧ tx.data.size = b.length := by
  obtain ⟨it, rfl, htx⟩ :=
    exists_item_of_decodeBytes Tx.reads_decodeRLP (decodeBytes_decodeRLP h)
  refine ⟨?_, length_reencode htx⟩
  obtain ⟨cost, recipient, rest, rfl, -, -⟩ := Tx.item_of_ofItem htx
  have hsize : (encodeItems (cost :: recipient :: rest)).length < 2 ^ 64 := by
    rw [encode_list_eq, List.length_append] at hb
    omega
  have hahead := Stream.ahead_new (encode (.list (cost :: recipient :: rest)))
  nth_rewrite 2 [encode_list_eq] at hahead
  have hkind := Stream.kindAhead_eq rfl (.list _ hsize) hahead le_rfl
  obtain ⟨s, hd, -⟩ := decodeBytes_eq_ok.mp h
  obtain ⟨-, k, size, s₁, hkind', hmemo⟩ := exists_of_decodeRLP hd
  rw [hkind] at hkind'
  cases hkind'
  rw [hmemo, listSize_eq hb]

end Gocoin
