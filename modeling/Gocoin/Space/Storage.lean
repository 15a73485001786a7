import Gocoin.Protocol.Binding
import Gocoin.Space.Reopening

/-!
# Space/Storage — a block that is written and read

`WriteBlock` makes three entries of a block: its body and its header under number and hash, and the
number under the hash.  `GetBlock` reads header and body and hands them to `NewBlock`:

* the number and the header come back;
* a block without body is stored with an empty list for it, which is no body, so there is no block;
* `NewBlock` computes the root of the transactions again, which gives the one that is there, and
  leaves the extra data behind.

So a block that was built by `NewBlock` or `WithBody` comes back exactly when it has a body without
extra data (`getBlock_writeBlock_iff`).
-/

namespace Gocoin.Space

open Rlp

/-- `Block` as it is built: the body may be missing. -/
structure BuiltBlock where
  header : Header
  body : Option (List Tx × Bytes)
  deriving DecidableEq

namespace BuiltBlock

variable (keccak : HashFn)

/-- The root that goes into the header with the transactions. -/
def rootOf (txs : List Tx) : Option Hash :=
  if txs.length > 0 then deriveSha keccak txs else some Trie.emptyRoot

/-- `NewBlock`: without a body there are no transactions and no extra hash; with one, its extra data
stays behind. -/
def new (header : Header) : Option (List Tx × Bytes) → Option BuiltBlock
  | none => some ⟨{ header with txHash := Trie.emptyRoot, extraHash := .zero 32 }, none⟩
  | some body =>
    (newBlock keccak header body.1).map fun b => ⟨b.header, some (b.transactions, b.extraData)⟩

/-- `WithBody`. -/
def withBody (b : BuiltBlock) (txs : List Tx) (extraData : Bytes) : Option BuiltBlock :=
  (rootOf keccak txs).map fun txHash => ⟨{ b.header with txHash }, some (txs, extraData)⟩

/-- `SetSigner`; an empty signature is not set. -/
def setSigner (b : BuiltBlock) (sig : Bytes) : BuiltBlock :=
  if sig.length > 0 then { b with header := { b.header with sign := sig } } else b

/-- The list `rlp` makes of a pointer to a body: of `nil` the empty one. -/
def bodyItem (b : BuiltBlock) : Option Item :=
  match b.body with
  | none => some (.list [])
  | some (txs, extraData) => (txs.mapM Tx.item).map fun its => .list [.list its, .str extraData]

/-- `WriteBlock`: the body first, then the header; what cannot be encoded is an error. -/
def writeBlock (db : Db) (b : BuiltBlock) : Option Db := do
  let it ← b.bodyItem
  writeHeader keccak
    (db.put (blockBodyKey (b.header.hash keccak) (u64 b.header.number)) (encode it)) b.header

/-- The blocks that `NewBlock` or `WithBody` built, signed or not. -/
inductive Built (keccak : HashFn) : BuiltBlock → Prop
  | new {header : Header} {body : Option (List Tx × Bytes)} {b : BuiltBlock}
      (h : new keccak header body = some b) : Built keccak b
  | withBody {b b' : BuiltBlock} {txs : List Tx} {extraData : Bytes}
      (h : b.withBody keccak txs extraData = some b') : Built keccak b'
  | setSigner {b : BuiltBlock} (sig : Bytes) (h : Built keccak b) : Built keccak (b.setSigner sig)

variable {keccak : HashFn} {b : BuiltBlock}

theorem newBlock_eq (header : Header) (txs : List Tx) :
    newBlock keccak header txs
      = (rootOf keccak txs).map fun txHash => ⟨{ header with txHash }, txs, []⟩ := by
  unfold newBlock rootOf
  split
  · cases deriveSha keccak txs <;> rfl
  · rfl

/-- **The header has the root of the transactions.** -/
theorem Built.rootOf_eq (h : Built keccak b) {txs : List Tx} {extraData : Bytes}
    (hbody : b.body = some (txs, extraData)) : rootOf keccak txs = some b.header.txHash := by
  induction h with
  | @new header body b h =>
    cases body with
    | none =>
      cases h
      cases hbody
    | some body =>
      rw [BuiltBlock.new, newBlock_eq, Option.map_map, Option.map_eq_some_iff] at h
      obtain ⟨root, hroot, rfl⟩ := h
      cases hbody
      exact hroot
  | withBody h =>
    obtain ⟨root, hroot, rfl⟩ := Option.map_eq_some_iff.mp h
    cases hbody
    exact hroot
  | @setSigner b sig _ ih =>
    unfold BuiltBlock.setSigner at hbody ⊢
    split at hbody
    · next hsig =>
      rw [if_pos hsig]
      exact ih hbody
    · next hsig =>
      rw [if_neg hsig]
      exact ih hbody

/-- The three entries of a block that was written. -/
theorem exists_of_writeBlock {db db' : Db} (h : b.writeBlock keccak db = some db') :
    ∃ head body, b.header.item = some head ∧ b.bodyItem = some body ∧
      db'.get (numberKey (b.header.hash keccak)) = some (encodeBlockNumber (u64 b.header.number)) ∧
      db'.get (headerKey (b.header.hash keccak) (u64 b.header.number)) = some (encode head) ∧
      db'.get (blockBodyKey (b.header.hash keccak) (u64 b.header.number)) = some (encode body) := by
  obtain ⟨body, hbody, h⟩ := Option.bind_eq_some_iff.mp h
  obtain ⟨head, hhead, rfl⟩ := Option.map_eq_some_iff.mp h
  refine ⟨head, body, hhead, hbody, ?_, Db.get_put_self _ _ _, ?_⟩
  · rw [Db.get_put_of_ne _ (by simp [numberKey, headerKey, blockHashPrefix, headerPrefix]),
      Db.get_put_self]
  · rw [Db.get_put_of_ne _ (by simp [blockBodyKey, headerKey, bodyPrefix, headerPrefix]),
      Db.get_put_of_ne _ (by simp [blockBodyKey, numberKey, bodyPrefix, blockHashPrefix]),
      Db.get_put_self]

/-- **What `GetBlock` makes of a block that was written.** -/
theorem getBlock_of_writeBlock {P : Prims} {db db' : Db} (h : b.writeBlock P.keccak db = some db')
    (hhead : ∀ it ∈ b.header.item, (encode it).length < 2 ^ 64)
    (hbody : ∀ it ∈ b.bodyItem, (encode it).length < 2 ^ 64) :
    getBlock P db' (b.header.hash P.keccak) (u64 b.header.number) =
      match b.body with
      | none => some none
      | some body => (newBlock P.keccak b.header body.1).map some := by
  obtain ⟨head, body, hi, hb, -, hgh, hgb⟩ := exists_of_writeBlock h
  obtain ⟨x, xs, hx, hfirst⟩ := exists_cons_encode (hhead head hi)
  obtain ⟨y, ys, hy, hfirst'⟩ := exists_cons_encode (hbody body hb)
  have hheader : getHeader db' (b.header.hash P.keccak) (u64 b.header.number) = some b.header := by
    rw [getHeader, getHeaderRLP, hgh, hx]
    simp only [hfirst, Option.bind_some, Header.ofItem_item hi]
  have hread : getBody db' (b.header.hash P.keccak) (u64 b.header.number) = b.body := by
    rw [getBody, getBodyRLP, hgb, hy]
    simp only [hfirst', Option.bind_some]
    unfold bodyItem at hb
    cases hbb : b.body with
    | none =>
      rw [hbb] at hb
      cases hb
      rfl
    | some c =>
      rw [hbb] at hb
      obtain ⟨its, hits, rfl⟩ := Option.map_eq_some_iff.mp hb
      exact bodyOfItem_of_mapM hits c.2
  rw [getBlock, hheader, hread]
  cases b.body <;> rfl

/-- **When a stored block comes back unchanged.**  After a block that `NewBlock` or `WithBody` built
has been written, its number is found under its hash, and `GetBlock` gives the block — header,
transactions and extra data — exactly when it has a body and the body no extra data.  Otherwise
there is no block, or one without the extra data. -/
theorem getBlock_writeBlock_iff {P : Prims} {db db' : Db} (hb : Built P.keccak b)
    (h : b.writeBlock P.keccak db = some db')
    (hhead : ∀ it ∈ b.header.item, (encode it).length < 2 ^ 64)
    (hbody : ∀ it ∈ b.bodyItem, (encode it).length < 2 ^ 64) :
    getBlockNumber db' (b.header.hash P.keccak) = u64 b.header.number ∧
    ((∃ txs extraData, b.body = some (txs, extraData) ∧
        getBlock P db' (b.header.hash P.keccak) (u64 b.header.number)
          = some (some ⟨b.header, txs, extraData⟩)) ↔
      ∃ txs, b.body = some (txs, [])) ∧
    (b.body = none → getBlock P db' (b.header.hash P.keccak) (u64 b.header.number) = some none) ∧
    ∀ txs extraData, b.body = some (txs, extraData) →
      getBlock P db' (b.header.hash P.keccak) (u64 b.header.number)
        = some (some ⟨b.header, txs, []⟩) := by
  have hget := getBlock_of_writeBlock h hhead hbody
  have hsome : ∀ txs extraData, b.body = some (txs, extraData) →
      getBlock P db' (b.header.hash P.keccak) (u64 b.header.number)
        = some (some ⟨b.header, txs, []⟩) := by
    intro txs extraData hbb
    rw [hget, hbb]
    show (newBlock P.keccak b.header txs).map some = _
    rw [newBlock_eq, hb.rootOf_eq hbb]
    rfl
  refine ⟨?_, ⟨?_, ?_⟩, fun hnone => by rw [hget, hnone], hsome⟩
  · obtain ⟨-, -, -, -, hnumber, -, -⟩ := exists_of_writeBlock h
    exact getBlockNumber_of_get hnumber
  · rintro ⟨txs, extraData, hbb, hgb⟩
    rw [hsome txs extraData hbb, Option.some.injEq, Option.some.injEq, Block.mk.injEq] at hgb
    exact ⟨txs, by rw [hbb, ← hgb.2.2]⟩
  · rintro ⟨txs, hbb⟩
    exact ⟨txs, [], hbb, hsome txs [] hbb⟩

/-- What the examples below have to satisfy, as a check. -/
def storable (db : Db) (b : BuiltBlock) : Bool :=
  (b.writeBlock Sample.keccak db).isSome &&
    b.header.item.all (fun it => decide ((encode it).length < 2 ^ 64)) &&
    b.bodyItem.all fun it => decide ((encode it).length < 2 ^ 64)

theorem exists_writeBlock_of_storable (db : Db) (h : storable db b = true) :
    ∃ db', b.writeBlock Sample.prims.keccak db = some db' ∧
      (∀ it ∈ b.header.item, (encode it).length < 2 ^ 64) ∧
      ∀ it ∈ b.bodyItem, (encode it).length < 2 ^ 64 := by
  simp only [storable, Bool.and_eq_true, Option.all_eq_true, decide_eq_true_eq] at h
  obtain ⟨⟨hwrite, hhead⟩, hbody⟩ := h
  obtain ⟨db', hdb'⟩ := Option.isSome_iff_exists.mp hwrite
  exact ⟨db', hdb', hhead, hbody⟩

/-- A block with a transfer, signed after it was built, comes back. -/
theorem signed_transfer_comes_back :
    ∃ b db', Built Sample.keccak b ∧ b.writeBlock Sample.keccak .empty = some db' ∧
      b.header.sign = [1, 2] ∧ b.body = some ([Sample.transfer], []) ∧
      getBlock Sample.prims db' (b.header.hash Sample.keccak) (u64 b.header.number)
        = some (some ⟨b.header, [Sample.transfer], []⟩) := by
  have hcheck : ((new Sample.keccak (Sample.header 7 []) (some ([Sample.transfer], []))).map
      (setSigner · [1, 2])).any (fun b => storable .empty b &&
        decide (b.header.sign = [1, 2] ∧ b.body = some ([Sample.transfer], []))) = true := by
    decide +kernel
  obtain ⟨b, hb, hok⟩ := (Option.any_eq_true _ _).mp hcheck
  obtain ⟨b₀, hb₀, rfl⟩ := Option.map_eq_some_iff.mp hb
  rw [Bool.and_eq_true, decide_eq_true_eq] at hok
  obtain ⟨hok, hsign, hbody⟩ := hok
  obtain ⟨db', hdb', hhead, hsize⟩ := exists_writeBlock_of_storable _ hok
  have hbuilt : Built Sample.prims.keccak (b₀.setSigner [1, 2]) := .setSigner _ (.new hb₀)
  exact ⟨_, db', hbuilt, hdb', hsign, hbody,
    (getBlock_writeBlock_iff hbuilt hdb' hhead hsize).2.2.2 _ _ hbody⟩

/-- A block without transactions, with a byte of extra data. -/
def withExtra : BuiltBlock := ⟨{ Sample.header 7 [] with txHash := Trie.emptyRoot }, some ([], [1])⟩

/-- **The extra data is lost.**  A block that `WithBody` built with extra data comes back
without. -/
theorem extra_data_lost :
    Built Sample.keccak withExtra ∧ ∃ db', withExtra.writeBlock Sample.keccak .empty = some db' ∧
      getBlock Sample.prims db' (withExtra.header.hash Sample.keccak) (u64 withExtra.header.number)
        = some (some ⟨withExtra.header, [], []⟩) := by
  have hbuilt : withBody Sample.keccak ⟨Sample.header 7 [], none⟩ [] [1] = some withExtra := rfl
  obtain ⟨db', hdb', hhead, hsize⟩ :=
    exists_writeBlock_of_storable (b := withExtra) Db.empty (by decide +kernel)
  exact ⟨.withBody hbuilt, db', hdb', (getBlock_of_writeBlock hdb' hhead hsize).trans rfl⟩

end BuiltBlock

end Gocoin.Space
