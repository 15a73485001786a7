import Gocoin.Machinery.Ancestry
import Gocoin.Protocol.Binding
import Gocoin.Space.Reopening

/-!
# Space/Ancestor — the last common ancestor of two headers

`FindCommonAncestor` of `space/database_util.go`.  The parent of a header is looked up under its
`UncleHash` and its number less one, a number of 64 bits that wraps below zero.  The header of
higher number is lifted to the number of the other, and then both go up together until their hashes
are the same; a parent that is not found ends the search with `nil`.

In a database that only `WriteHeader` has written, an entry is found under a hash and a number
exactly when a header with both has been written (`getHeader_writeHeaders`).  So if no two headers
share a hash and parents are numbered one below, the lookup is the parent of a forest ranked by the
numbers, and the loops find the last common ancestor (`findCommonAncestor_last`).
-/

namespace Gocoin.Space

open Rlp Ancestry
open Sample (header)

/-! ## The search -/

/-- The parent of a header, as it is looked up. -/
def parentHeader (db : Db) (h : Header) : Option Header :=
  getHeader db h.uncleHash (u64 h.number - 1)

/-- `FindCommonAncestor`.  Without fuel a loop is still running; `nil` is an outcome. -/
def findCommonAncestor (keccak : HashFn) (db : Db) (fuel : ℕ) (a b : Header) :
    Option (Option Header) := do
  let bn := u64 b.number
  match ← climb (parentHeader db) (fun a => decide (u64 a.number > bn)) fuel a with
  | none => some none
  | some a =>
    let an := u64 a.number
    match ← climb (parentHeader db) (fun b => decide (an < u64 b.number)) fuel b with
    | none => some none
    | some b =>
      meet (parentHeader db) (fun a b => decide (a.hash keccak = b.hash keccak)) fuel a b

/-! ## Databases of headers -/

/-- The database after `WriteHeader` of some headers; a header that cannot be encoded leaves it as
it was. -/
def writeHeaders (keccak : HashFn) (hs : List Header) : Db :=
  hs.foldl (fun db h => (writeHeader keccak db h).getD db) Db.empty

/-- The headers that were written. -/
def Stored (hs : List Header) (h : Header) : Prop := h ∈ hs ∧ ∃ it, h.item = some it

variable {hash : Hash} {n : UInt64} {h c a b : Header}

theorem headerKey_inj {hash' : Hash} {n' : UInt64} (h : headerKey hash n = headerKey hash' n') :
    hash = hash' ∧ n = n' := by
  have htail := List.append_cancel_left h
  have hlen : (encodeBlockNumber n).length = (encodeBlockNumber n').length := by
    rw [length_encodeBlockNumber, length_encodeBlockNumber]
  obtain ⟨hnumber, hhash⟩ := List.append_inj htail hlen
  exact ⟨FixedBytes.ext_bytes hhash, encodeBlockNumber_injective hnumber⟩

theorem headerKey_ne_numberKey (hash hash' : Hash) (n : UInt64) :
    headerKey hash n ≠ numberKey hash' := by
  simp [headerKey, numberKey, headerPrefix, blockHashPrefix]

/-- What is found behind a write of a header. -/
theorem get_headerKey_of_writeHeader {keccak : HashFn} {db db' : Db}
    (hw : writeHeader keccak db h = some db') (hash : Hash) (n : UInt64) :
    ∃ it, h.item = some it ∧ db'.get (headerKey hash n) =
      if hash = h.hash keccak ∧ n = u64 h.number then some (encode it)
      else db.get (headerKey hash n) := by
  obtain ⟨it, hit, rfl⟩ := Option.map_eq_some_iff.mp hw
  refine ⟨it, hit, ?_⟩
  split
  · next heq =>
    rw [heq.1, heq.2, Db.get_put_self]
  · next hne =>
    rw [Db.get_put_of_ne _ fun heq => hne (headerKey_inj heq),
      Db.get_put_of_ne _ (headerKey_ne_numberKey _ _ _)]

variable {keccak : HashFn} {hs : List Header}

theorem writeHeaders_concat (hs : List Header) (h : Header) :
    writeHeaders keccak (hs ++ [h])
      = (writeHeader keccak (writeHeaders keccak hs) h).getD (writeHeaders keccak hs) := by
  rw [writeHeaders, List.foldl_append]
  rfl

/-- An entry is the encoding of a header with that hash and number. -/
theorem exists_of_get_headerKey {data : Bytes}
    (hget : (writeHeaders keccak hs).get (headerKey hash n) = some data) :
    ∃ h ∈ hs, ∃ it, h.item = some it ∧ h.hash keccak = hash ∧ u64 h.number = n ∧
      data = encode it := by
  induction hs using List.reverseRecOn with
  | nil => cases hget
  | append_singleton hs h ih =>
    rw [writeHeaders_concat] at hget
    have hold : (writeHeaders keccak hs).get (headerKey hash n) = some data →
        ∃ h' ∈ hs ++ [h], ∃ it, h'.item = some it ∧ h'.hash keccak = hash ∧ u64 h'.number = n ∧
          data = encode it := by
      intro hget
      obtain ⟨h', hmem, hrest⟩ := ih hget
      exact ⟨h', List.mem_append_left _ hmem, hrest⟩
    cases hw : writeHeader keccak (writeHeaders keccak hs) h with
    | none =>
      rw [hw] at hget
      exact hold hget
    | some db' =>
      rw [hw, Option.getD_some] at hget
      obtain ⟨it, hit, hvalue⟩ := get_headerKey_of_writeHeader hw hash n
      rw [hvalue] at hget
      split at hget
      · next heq =>
        exact ⟨h, by simp, it, hit, heq.1.symm, heq.2.symm, (Option.some.inj hget).symm⟩
      · exact hold hget

variable (keccak) in
/-- A header that was written has an entry. -/
theorem exists_get_headerKey (hh : Stored hs h) :
    ∃ data, (writeHeaders keccak hs).get (headerKey (h.hash keccak) (u64 h.number))
      = some data := by
  obtain ⟨hmem, it, hit⟩ := hh
  induction hs using List.reverseRecOn with
  | nil => cases hmem
  | append_singleton hs h' ih =>
    rw [writeHeaders_concat]
    cases hw : writeHeader keccak (writeHeaders keccak hs) h' with
    | none =>
      refine ih ((List.mem_append.mp hmem).resolve_right fun heq => ?_)
      obtain rfl := List.mem_singleton.mp heq
      rw [writeHeader, hit] at hw
      cases hw
    | some db' =>
      obtain ⟨it', hit', hvalue⟩ := get_headerKey_of_writeHeader hw (h.hash keccak) (u64 h.number)
      rw [Option.getD_some, hvalue]
      split
      · exact ⟨_, rfl⟩
      · next hne =>
        refine ih ((List.mem_append.mp hmem).resolve_right fun heq => hne ?_)
        obtain rfl := List.mem_singleton.mp heq
        exact ⟨rfl, rfl⟩

/-- What the headers of a database have to satisfy: no two of them share a hash, their numbers have
64 bits, and a parent that is there is numbered one below. -/
structure Numbered (keccak : HashFn) (hs : List Header) : Prop where
  size_lt : ∀ h ∈ hs, ∀ it, h.item = some it → (encode it).length < 2 ^ 64
  injOn : Set.InjOn keccak {e | ∃ h ∈ hs, ∃ it, h.item = some it ∧ e = encode it}
  number_lt : ∀ h, Stored hs h → h.number < 2 ^ 64
  parent_number : ∀ h p, Stored hs h → Stored hs p → p.hash keccak = h.uncleHash →
    p.number + 1 = h.number

/-- The conditions, header by header. -/
theorem numbered_iff : Numbered keccak hs ↔ ∀ h ∈ hs, ∀ it ∈ h.item,
    (encode it).length < 2 ^ 64 ∧ h.number < 2 ^ 64 ∧ ∀ p ∈ hs, ∀ it' ∈ p.item,
      (keccak (encode it) = keccak (encode it') → encode it = encode it') ∧
      (p.hash keccak = h.uncleHash → p.number + 1 = h.number) := by
  constructor
  · intro hN h hh it hit
    refine ⟨hN.size_lt h hh it hit, hN.number_lt h ⟨hh, it, hit⟩, fun p hp it' hit' => ⟨?_, ?_⟩⟩
    · exact fun heq => hN.injOn ⟨h, hh, it, hit, rfl⟩ ⟨p, hp, it', hit', rfl⟩ heq
    · exact hN.parent_number h p ⟨hh, it, hit⟩ ⟨hp, it', hit'⟩
  · intro hall
    refine ⟨fun h hh it hit => (hall h hh it hit).1, ?_, ?_, ?_⟩
    · rintro _ ⟨h, hh, it, hit, rfl⟩ _ ⟨p, hp, it', hit', rfl⟩ heq
      exact ((hall h hh it hit).2.2 p hp it' hit').1 heq
    · rintro h ⟨hh, it, hit⟩
      exact (hall h hh it hit).2.1
    · rintro h p ⟨hh, it, hit⟩ ⟨hp, it', hit'⟩
      exact ((hall h hh it hit).2.2 p hp it' hit').2

instance (keccak : HashFn) (hs : List Header) : Decidable (Numbered keccak hs) :=
  decidable_of_iff _ numbered_iff.symm

namespace Numbered

variable {h h' : Header}

section

variable (hN : Numbered keccak hs)
include hN

/-- Stored headers are told apart by their hashes. -/
theorem eq_of_hash_eq (hh : Stored hs h) (hh' : Stored hs h')
    (heq : h.hash keccak = h'.hash keccak) : h = h' := by
  obtain ⟨hmem, it, hit⟩ := hh
  obtain ⟨hmem', it', hit'⟩ := hh'
  rw [Header.hash, Header.hash, hit, hit'] at heq
  have henc : encode it = encode it' :=
    hN.injOn ⟨h, hmem, it, hit, rfl⟩ ⟨h', hmem', it', hit', rfl⟩ heq
  obtain rfl := encode_injective (hN.size_lt h hmem it hit) henc
  exact Option.some.inj ((Header.ofItem_item hit).symm.trans (Header.ofItem_item hit'))

/-- **What is found under a hash and a number**: the stored header that has both. -/
theorem getHeader_writeHeaders (hash : Hash) (n : UInt64) (h : Header) :
    getHeader (writeHeaders keccak hs) hash n = some h ↔
      Stored hs h ∧ h.hash keccak = hash ∧ u64 h.number = n := by
  have hread : ∀ h' ∈ hs, ∀ it, h'.item = some it →
      (writeHeaders keccak hs).get (headerKey hash n) = some (encode it) →
      getHeader (writeHeaders keccak hs) hash n = some h' := by
    intro h' hmem it hit hget
    obtain ⟨b, bs, hbytes, hfirst⟩ := exists_cons_encode (hN.size_lt h' hmem it hit)
    rw [getHeader, getHeaderRLP, hget, hbytes]
    simp only [hfirst, Option.bind_some, Header.ofItem_item hit]
  constructor
  · intro hget
    cases hdata : (writeHeaders keccak hs).get (headerKey hash n) with
    | none =>
      rw [getHeader, getHeaderRLP, hdata] at hget
      cases hget
    | some data =>
      obtain ⟨h', hmem, it, hit, hhash, hnumber, rfl⟩ := exists_of_get_headerKey hdata
      obtain rfl := Option.some.inj (hget.symm.trans (hread h' hmem it hit hdata))
      exact ⟨⟨hmem, it, hit⟩, hhash, hnumber⟩
  · rintro ⟨hh, rfl, rfl⟩
    obtain ⟨data, hdata⟩ := exists_get_headerKey keccak hh
    obtain ⟨h', hmem, it, hit, hhash, -, rfl⟩ := exists_of_get_headerKey hdata
    obtain rfl := hN.eq_of_hash_eq hh ⟨hmem, it, hit⟩ hhash.symm
    exact hread h hmem it hit hdata

/-- **The lookup finds the parent** of a stored header, and nothing else: below zero there is no
number. -/
theorem parentHeader_eq_some {p : Header} (hh : Stored hs h) :
    parentHeader (writeHeaders keccak hs) h = some p ↔
      Stored hs p ∧ p.hash keccak = h.uncleHash := by
  rw [parentHeader, hN.getHeader_writeHeaders]
  constructor
  · rintro ⟨hp, hhash, -⟩
    exact ⟨hp, hhash⟩
  · rintro ⟨hp, hhash⟩
    refine ⟨hp, hhash, ?_⟩
    rw [← hN.parent_number h p hh hp hhash, u64, u64, UInt64.ofNat_add]
    exact (UInt64.add_sub_cancel _ 1).symm

/-- The lookups go up a forest that is ranked by the numbers. -/
theorem ranked :
    Ranked (parentHeader (writeHeaders keccak hs)) (Stored hs) Header.number where
  mem hh hp := ((hN.parentHeader_eq_some hh).mp hp).1
  rank_parent hh hp := by
    obtain ⟨hp, hhash⟩ := (hN.parentHeader_eq_some hh).mp hp
    exact hN.parent_number _ _ hh hp hhash

/-- Numbers are compared as they are. -/
theorem u64_lt_iff (hh : Stored hs h) (hh' : Stored hs h') :
    u64 h.number < u64 h'.number ↔ h.number < h'.number := by
  rw [UInt64.lt_iff_toNat_lt, u64, u64, UInt64.toNat_ofNat_of_lt' (hN.number_lt h hh),
    UInt64.toNat_ofNat_of_lt' (hN.number_lt h' hh')]

end

end Numbered

/-! ## Ancestors -/

variable (keccak hs) in
/-- `p` is the parent of `h`, and stored. -/
def ParentOf (h p : Header) : Prop := Stored hs p ∧ p.hash keccak = h.uncleHash

variable (keccak hs) in
/-- `c` is reached from `h` by stored parents. -/
def AncestorOf (h c : Header) : Prop := Relation.ReflTransGen (ParentOf keccak hs) h c

variable (keccak hs) in
/-- The parent chains of both headers are stored down to `c`. -/
def CommonAncestor (a b c : Header) : Prop := AncestorOf keccak hs a c ∧ AncestorOf keccak hs b c

/-- From a stored header the lookups reach its ancestors. -/
theorem Numbered.ancestor_iff (hN : Numbered keccak hs) (hh : Stored hs h) :
    Ancestor (parentHeader (writeHeaders keccak hs)) h c ↔ AncestorOf keccak hs h c := by
  constructor
  · intro hc
    induction hc using Relation.ReflTransGen.head_induction_on with
    | refl => exact .refl
    | head hp _ ih =>
      have hparent := (hN.parentHeader_eq_some hh).mp hp
      exact .head hparent (ih hparent.1)
  · intro hc
    induction hc using Relation.ReflTransGen.head_induction_on with
    | refl => exact .refl _
    | head hp _ ih => exact .of_parent ((hN.parentHeader_eq_some hh).mpr hp) (ih hp.1)

theorem Numbered.common_iff (hN : Numbered keccak hs) (ha : Stored hs a) (hb : Stored hs b) :
    Common (parentHeader (writeHeaders keccak hs)) a b c
      ↔ CommonAncestor keccak hs a b c :=
  and_congr (hN.ancestor_iff ha) (hN.ancestor_iff hb)

/-- The search ends at the last common ancestor of the lookups. -/
theorem Numbered.exists_findCommonAncestor (hN : Numbered keccak hs) (ha : Stored hs a)
    (hb : Stored hs b) {fuel : ℕ} (hfa : a.number < fuel) (hfb : b.number < fuel) :
    ∃ r, findCommonAncestor keccak (writeHeaders keccak hs) fuel a b = some r ∧
      (∀ c, r = some c → Last (parentHeader (writeHeaders keccak hs)) a b c) ∧
      (r = none → ∀ d, ¬ Common (parentHeader (writeHeaders keccak hs)) a b d) := by
  have hR := hN.ranked
  simp only [findCommonAncestor]
  have habove : ∀ h, Stored hs h →
      (decide (u64 h.number > u64 b.number) = true ↔ b.number < h.number) := fun h hh => by
    rw [decide_eq_true_iff, gt_iff_lt, hN.u64_lt_iff hb hh]
  obtain ⟨r₁, hr₁, hsome₁, hnone₁⟩ := hR.climb_spec habove ha hfa
  simp only [hr₁, Option.bind_eq_bind, Option.bind_some]
  cases r₁ with
  | none =>
    refine ⟨none, rfl, nofun, fun _ d hd => hnone₁ rfl d (hR.rank_le hb hd.2).1 hd.1⟩
  | some a' =>
    obtain ⟨ha', hrank₁, hiff₁⟩ := hsome₁ a' rfl
    have hbelow : ∀ h, Stored hs h →
        (decide (u64 a'.number < u64 h.number) = true ↔ a'.number < h.number) := fun h hh => by
      rw [decide_eq_true_iff, hN.u64_lt_iff ha' hh]
    obtain ⟨r₂, hr₂, hsome₂, hnone₂⟩ := hR.climb_spec hbelow hb hfb
    have hcommon : ∀ d, Common (parentHeader (writeHeaders keccak hs)) a b d →
        Ancestor (parentHeader (writeHeaders keccak hs)) a' d ∧ d.number ≤ a'.number := by
      intro d hd
      have hda := (hiff₁ d (hR.rank_le hb hd.2).1).mp hd.1
      exact ⟨hda, (hR.rank_le ha' hda).1⟩
    simp only [hr₂, Option.bind_some]
    cases r₂ with
    | none =>
      exact ⟨none, rfl, nofun, fun _ d hd => hnone₂ rfl d (hcommon d hd).2 hd.2⟩
    | some b' =>
      obtain ⟨hb', hrank₂, hiff₂⟩ := hsome₂ b' rfl
      have hrank : a'.number = b'.number := by omega
      have hmeet : ∀ d, Common (parentHeader (writeHeaders keccak hs)) a b d
          ↔ Common (parentHeader (writeHeaders keccak hs)) a' b' d := by
        intro d
        constructor
        · intro hd
          obtain ⟨hda, hle⟩ := hcommon d hd
          exact ⟨hda, (hiff₂ d hle).mp hd.2⟩
        · intro hd
          have hle := (hR.rank_le ha' hd.1).1
          exact ⟨(hiff₁ d (by omega)).mpr hd.1, (hiff₂ d hle).mpr hd.2⟩
      have hsame : ∀ h h', Stored hs h → Stored hs h' →
          (decide (h.hash keccak = h'.hash keccak) = true ↔ h = h') := fun h h' hh hh' => by
        rw [decide_eq_true_iff]
        exact ⟨hN.eq_of_hash_eq hh hh', congrArg _⟩
      obtain ⟨r, hr, hsome, hnone⟩ :=
        hR.meet_spec hsame ha' hb' hrank (by omega : a'.number < fuel)
      refine ⟨r, hr, fun c hc => ?_, fun h d => ?_⟩
      · obtain ⟨hlast, hmax⟩ := hsome c hc
        exact ⟨(hmeet c).mpr hlast, fun d hd => hmax d ((hmeet d).mp hd)⟩
      · rw [hmeet]
        exact hnone h d

/-- **`FindCommonAncestor` is right.**  On a database that only `WriteHeader` wrote, without hash
collisions, with numbers of 64 bits and parents numbered one below, the search for two stored
headers ends — after as many turns of each loop as the numbers say — with their last common
ancestor, of which every other one is an ancestor with a smaller number; and with `nil` when their
chains are not stored down to a common header. -/
theorem findCommonAncestor_last (hN : Numbered keccak hs) {a b : Header} (ha : Stored hs a)
    (hb : Stored hs b) {fuel : ℕ} (hfa : a.number < fuel) (hfb : b.number < fuel) :
    ((∃ d, CommonAncestor keccak hs a b d) → ∃ c,
      findCommonAncestor keccak (writeHeaders keccak hs) fuel a b = some (some c) ∧
      CommonAncestor keccak hs a b c ∧ ∀ d, CommonAncestor keccak hs a b d →
        AncestorOf keccak hs c d ∧ (d = c ∨ d.number < c.number)) ∧
    ((¬ ∃ d, CommonAncestor keccak hs a b d) →
      findCommonAncestor keccak (writeHeaders keccak hs) fuel a b = some none) := by
  obtain ⟨r, hr, hsome, hnone⟩ := hN.exists_findCommonAncestor ha hb hfa hfb
  constructor
  · rintro ⟨d, hd⟩
    cases r with
    | none => exact absurd ((hN.common_iff ha hb).mpr hd) (hnone rfl d)
    | some c =>
      obtain ⟨hlast, hmax⟩ := hsome c rfl
      have hc : Stored hs c := hN.ranked.mem_of_ancestor ha hlast.1
      refine ⟨c, hr, (hN.common_iff ha hb).mp hlast, fun d hd => ?_⟩
      have hanc := hmax d ((hN.common_iff ha hb).mpr hd)
      obtain ⟨hle, heq⟩ := hN.ranked.rank_le hc hanc
      refine ⟨(hN.ancestor_iff hc).mp hanc, ?_⟩
      rcases lt_or_ge d.number c.number with hlt | hge
      · exact .inr hlt
      · exact .inl (heq hge).symm
  · intro hno
    cases r with
    | none => exact hr
    | some c => exact absurd ⟨c, (hN.common_iff ha hb).mp (hsome c rfl).1⟩ hno

/-- A child of a header. -/
def childOf (h : Header) (sign : Bytes) : Header :=
  { header (h.number + 1) sign with uncleHash := h.hash Sample.keccak }

/-- A first header with two branches, of two headers and of one, and a header beside them. -/
def fork : List Header :=
  let first := header 0 []
  [first, childOf first [1], childOf (childOf first [1]) [], childOf first [2], header 0 [9]]

/-- The branches of the fork meet in the first header, which is the last common ancestor of their
ends; the header beside them has no ancestor in common with them. -/
theorem findCommonAncestor_fork : let first := header 0 []
    let a := childOf (childOf first [1]) []
    let b := childOf first [2]
    Numbered Sample.keccak fork ∧
      (findCommonAncestor Sample.keccak (writeHeaders Sample.keccak fork) 3 a b
          = some (some first) ∧ CommonAncestor Sample.keccak fork a b first ∧
        ∀ d, CommonAncestor Sample.keccak fork a b d →
          AncestorOf Sample.keccak fork first d ∧ (d = first ∨ d.number < first.number)) ∧
      (¬ ∃ d, CommonAncestor Sample.keccak fork a (header 0 [9]) d) ∧
      findCommonAncestor Sample.keccak (writeHeaders Sample.keccak fork) 3 a (header 0 [9])
        = some none := by
  intro first a b
  have hN : Numbered Sample.keccak fork := by decide +kernel
  have hencoded : ∀ h ∈ fork, h.item ≠ none := by decide +kernel
  have hstored : ∀ h ∈ fork, Stored fork h := fun h hh =>
    ⟨hh, Option.ne_none_iff_exists'.mp (hencoded h hh)⟩
  have hfirst : first ∈ fork := by simp [fork, first]
  have hmiddle : childOf first [1] ∈ fork := by simp [fork, first]
  have hparent : ∀ {h : Header} (sign : Bytes), h ∈ fork →
      ParentOf Sample.keccak fork (childOf h sign) h := fun sign hh => ⟨hstored _ hh, rfl⟩
  have hcommon : CommonAncestor Sample.keccak fork a b first :=
    ⟨.head (hparent [] hmiddle) (.single (hparent [1] hfirst)), .single (hparent [2] hfirst)⟩
  have hresult : findCommonAncestor Sample.keccak (writeHeaders Sample.keccak fork) 3 a b
        = some (some first) ∧
      findCommonAncestor Sample.keccak (writeHeaders Sample.keccak fork) 3 a (header 0 [9])
        = some none := by
    decide +kernel
  have ha : Stored fork a := hstored a (by simp [fork, a, first])
  have hb : Stored fork b := hstored b (by simp [fork, b, first])
  have hc : Stored fork (header 0 [9]) := hstored _ (by simp [fork])
  have hmeet := findCommonAncestor_last hN ha hb (show a.number < 3 by decide)
    (show b.number < 3 by decide)
  have hbeside := findCommonAncestor_last hN ha hc (show a.number < 3 by decide)
    (show (0 : ℕ) < 3 by decide)
  have hnone : ¬ ∃ d, CommonAncestor Sample.keccak fork a (header 0 [9]) d := fun hd => by
    obtain ⟨c, hfound, -⟩ := hbeside.1 hd
    rw [hresult.2] at hfound
    cases hfound
  obtain ⟨c, hfound, hlast⟩ := hmeet.1 ⟨first, hcommon⟩
  obtain rfl : first = c := Option.some.inj (Option.some.inj (hresult.1.symm.trans hfound))
  exact ⟨hN, ⟨hfound, hlast⟩, hnone, hbeside.2 hnone⟩

end Gocoin.Space
