import Gocoin.Machinery.Fold
import Gocoin.Protocol.Block

/-!
# Protocol/Decode — blocks read back

What `rlp` makes of the stored form of transactions, headers and bodies.  Every header and every
body that has an encoding is read back as it was (`Header.ofItem_item`, `bodyOfItem_bodyItem`); but
the block that `NewBlock` puts together of the two is another one when the header does not name the
root of its transactions, or when the body has extra data.
-/

namespace Gocoin

open Rlp Fold

/-- A byte array of an item: exactly as many bytes. -/
def FixedBytes.ofItem (n : ℕ) (it : Item) : Option (FixedBytes n) :=
  it.bytes?.bind fun b => if h : b.length = n then some ⟨b, h⟩ else none

@[simp] theorem FixedBytes.ofItem_str {n : ℕ} (a : FixedBytes n) :
    FixedBytes.ofItem n (.str a.bytes) = some a := by
  rw [FixedBytes.ofItem, Item.bytes?_str, Option.bind_some, dif_pos a.length_eq]

/-- A nonnegative integer is read back. -/
theorem nat?_of_ofInt? {z : ℤ} {it : Item} (h : Item.ofInt? z = some it) :
    ∃ n : ℕ, it.nat? = some n ∧ (n : ℤ) = z := by
  obtain ⟨hz, rfl⟩ := Item.eq_of_ofInt? h
  exact ⟨_, Item.nat?_ofNat _, Int.toNat_of_nonneg hz⟩

namespace Tx

/-- The recipient of an item: anything empty is no recipient. -/
def recipientOfItem : Item → Option (Option Address)
  | .str [] => some none
  | .list [] => some none
  | it => (FixedBytes.ofItem 20 it).map some

/-- The transaction of a list. -/
def ofItem : Item → Option Tx
  | .list [cost, recipient, amount, time, data, v, r, s] => do
    let cost ← cost.nat?
    let recipient ← recipientOfItem recipient
    let amount ← amount.nat?
    let txtime ← time.uint64?
    let payload ← data.bytes?
    let v ← v.nat?
    let r ← r.nat?
    let s ← s.nat?
    some ⟨cost, recipient, amount, txtime, payload, v, r, s⟩
  | _ => none

theorem recipientOfItem_recipientItem (addr : Option Address) :
    recipientOfItem (recipientItem addr) = some addr := by
  cases addr with
  | none => rfl
  | some a =>
    have hlen := a.length_eq
    show recipientOfItem (.str a.bytes) = some (some a)
    cases hb : a.bytes with
    | nil =>
      rw [hb] at hlen
      exact absurd hlen (by decide)
    | cons x xs =>
      rw [recipientOfItem, ← hb, FixedBytes.ofItem_str, Option.map_some]
      all_goals simp

/-- A transaction is read back. -/
theorem ofItem_item {tx : Tx} {it : Item} (h : tx.item = some it) : ofItem it = some tx := by
  simp only [item, bind_eq_some, Option.some.injEq] at h
  obtain ⟨cost, hcost, amount, hamount, rfl⟩ := h
  obtain ⟨c, hc, hc'⟩ := nat?_of_ofInt? hcost
  obtain ⟨a, ha, ha'⟩ := nat?_of_ofInt? hamount
  simp only [ofItem, hc, ha, recipientOfItem_recipientItem, Item.uint64?_ofNat, Item.bytes?_str,
    Item.nat?_ofNat, some_bind, hc', ha']

end Tx

/-- The header of a list. -/
def Header.ofItem : Item → Option Header
  | .list [uncleHash, number, idIndex, walletID, groupID, timestamp, gasUsed, version, percent, pk,
      sign, liquidationHash, extraIndex, spaceRoot, accRoot, groupRoot, coinRoot, txHash,
      consensusGroupHash, extraHash] => do
    let uncleHash ← FixedBytes.ofItem 32 uncleHash
    let number ← number.nat?
    let idIndex ← idIndex.nat?
    let walletID ← walletID.uint64?
    let groupID ← groupID.uint32?
    let timestamp ← timestamp.nat?
    let gasUsed ← gasUsed.nat?
    let version ← version.bytes?
    let percent ← percent.bytes?
    let pk ← pk.bytes?
    let sign ← sign.bytes?
    let liquidationHash ← liquidationHash.bytes?
    let extraIndex ← FixedBytes.ofItem 4 extraIndex
    let spaceRoot ← FixedBytes.ofItem 32 spaceRoot
    let accRoot ← FixedBytes.ofItem 32 accRoot
    let groupRoot ← FixedBytes.ofItem 32 groupRoot
    let coinRoot ← FixedBytes.ofItem 32 coinRoot
    let txHash ← FixedBytes.ofItem 32 txHash
    let consensusGroupHash ← FixedBytes.ofItem 32 consensusGroupHash
    let extraHash ← FixedBytes.ofItem 32 extraHash
    some { uncleHash, number, idIndex, walletID, groupID, timestamp, gasUsed, version, percent, pk,
           sign, liquidationHash, extraIndex, spaceRoot, accRoot, groupRoot, coinRoot, txHash,
           consensusGroupHash, extraHash }
  | _ => none

/-- **A header is read back.** -/
theorem Header.ofItem_item {h : Header} {it : Item} (hit : h.item = some it) :
    Header.ofItem it = some h := by
  simp only [Header.item, Option.map_eq_some_iff] at hit
  obtain ⟨gas, hgas, rfl⟩ := hit
  obtain ⟨g, hg, hg'⟩ := nat?_of_ofInt? hgas
  simp only [Header.ofItem, hg, hg', FixedBytes.ofItem_str, Item.nat?_ofNat, Item.uint64?_ofNat,
    Item.uint32?_ofNat, Item.bytes?_str, some_bind]

/-- The transactions and the extra data of a list. -/
def bodyOfItem : Item → Option (List Tx × Bytes)
  | .list [txs, extra] => do
    let xs ← txs.elems?
    let transactions ← xs.mapM Tx.ofItem
    let extraData ← extra.bytes?
    some (transactions, extraData)
  | _ => none

theorem bodyOfItem_of_mapM {txs : List Tx} {its : List Item} (h : txs.mapM Tx.item = some its)
    (extraData : Bytes) :
    bodyOfItem (.list [.list its, .str extraData]) = some (txs, extraData) := by
  have hread : its.mapM Tx.ofItem = some txs := by
    rw [mapM_eq_some_iff] at h ⊢
    exact (h.imp fun _ _ => Tx.ofItem_item).flip
  simp only [bodyOfItem, Item.elems?_list, hread, Item.bytes?_str, some_bind]

/-- **A body is read back.** -/
theorem bodyOfItem_bodyItem {b : Block} {it : Item} (h : b.bodyItem = some it) :
    bodyOfItem it = some (b.transactions, b.extraData) := by
  obtain ⟨its, hits, rfl⟩ := Option.map_eq_some_iff.mp h
  exact bodyOfItem_of_mapM hits b.extraData

/-- `NewBlock`: the root of the transactions is computed anew, and the extra data stays behind. -/
def newBlock (keccak : HashFn) (header : Header) (transactions : List Tx) : Option Block := do
  let txHash ← if transactions.length > 0 then deriveSha keccak transactions
    else some Trie.emptyRoot
  some ⟨{ header with txHash }, transactions, []⟩

end Gocoin
