import Gocoin.Common.Sample
import Gocoin.Machinery.HashTree
import Gocoin.Machinery.Slice

/-!
# Common/Merkle — Merkle roots and proofs of lists of hashes

`common/merkle.go`.  `CalMerkel` computes the root of a list level by level and, where a proof list
is passed, appends the sibling of the followed index at each level; `VerigyMerkel` recomputes the
root from a proof; `Root` computes the root again, in two buffers that every level overwrites.
An empty list has no root: `CalMerkel` and `Root` do not return on it.

All three are the hash tree of `Machinery/HashTree` at `hashPair` (`calMerkel_eq`,
`verigyMerkel_eq`, `root_eq`), and what follows is read off the tree.
-/

namespace Gocoin.Merkle

variable (keccak : HashFn)

/-- `NewKeccak256`, two hashes written, `Sum`. -/
def hashPair (p : Hash × Hash) : Hash := keccak (p.1.bytes ++ p.2.bytes)

variable (tree : List Hash)

/-- A list of odd length with its last element appended again. -/
def evened : List Hash := if tree.length % 2 = 1 then tree ++ tree.getLast?.toList else tree

/-! ## `CalMerkel` and `VerigyMerkel` -/

/-- The loop over a level; `tree[i+1]` panics at the end of an odd list. -/
def hashLevel : List Hash → Option (List Hash)
  | [] => some []
  | [_] => none
  | a :: b :: tree => (hashLevel tree).map (hashPair keccak (a, b) :: ·)

/-- The element beside the index. -/
def sibling (id : UInt64) : Option Hash :=
  if id % 2 = 1 then tree[(id - 1).toNat]? else tree[(id + 1).toNat]?

/-- `*proofs = append(*proofs, …)`, if there is a proof list. -/
def collect (id : UInt64) :
    Option (List Hash) → Option (Option (List Hash))
  | none => some none
  | some proofs => (sibling tree id).map fun h => some (proofs ++ [h])

/-- `CalMerkel` in at most so many calls: the root and the proof list. -/
def calMerkelAux : ℕ → List Hash → Option (List Hash) → UInt64 → Option (Hash × Option (List Hash))
  | 0, _, _, _ => none
  | fuel + 1, tree, proofs, id =>
    if tree.length = 1 then tree.head?.map (·, proofs)
    else do
      let proofs ← collect (evened tree) id proofs
      let hash ← hashLevel keccak (evened tree)
      calMerkelAux fuel hash proofs (id / 2)

/-- `CalMerkel`: every call has a shorter list, so no more calls than elements are needed. -/
def calMerkel (proofs : Option (List Hash)) (id : UInt64) : Option (Hash × Option (List Hash)) :=
  calMerkelAux keccak tree.length tree proofs id

/-- `VerigyMerkel`. -/
def verigyMerkel (root : Hash) : List Hash → Hash → UInt64 → Bool
  | [], hash, _ => decide (hash = root)
  | h :: proofs, hash, idx =>
    if idx % 2 = 0 then verigyMerkel root proofs (hashPair keccak (hash, h)) (idx / 2)
    else verigyMerkel root proofs (hashPair keccak (h, hash)) (idx / 2)

/-- `MerkekRoot`. -/
def merkekRoot : Option Hash := (calMerkel keccak tree none 0).map Prod.fst

/-! ## `Root` -/

/-- The loop over a level, from result index `k` on. -/
def fillLevel : List Hash → ℕ → Slice Hash → Option (Slice Hash)
  | [], _, result => some result
  | [_], _, _ => none
  | a :: b :: tree, k, result => do
    let result ← result.set k (hashPair keccak (a, b))
    fillLevel tree (k + 1) result

/-- The buffers for the next round: the result is copied over the list from its start, with its last
element once more if it is odd, and is then cut to half of that. -/
def nextBuffers (room : ℕ → List Hash) (tree result : Slice Hash) :
    Option (Slice Hash × Slice Hash) := do
  let tree ← tree.reslice 0
  let tree := tree.append room result.elems
  let tree := if result.elems.length % 2 = 1
    then tree.append room result.elems.getLast?.toList else tree
  let result ← result.reslice (tree.elems.length / 2)
  pure (tree, result)

/-- The outer loop in at most so many rounds. -/
def rootLoop (room : ℕ → List Hash) : ℕ → Slice Hash → Slice Hash → Option Hash
  | 0, _, _ => none
  | fuel + 1, tree, result => do
    let result ← fillLevel keccak tree.elems 0 result
    if result.elems.length = 1 then result.elems.head?
    else do
      let next ← nextBuffers room tree result
      rootLoop room fuel next.1 next.2

/-- `Root` of a slice with any room behind it, under any allocator. -/
def root (room : ℕ → List Hash) (tree : Slice Hash) : Option Hash :=
  if tree.elems.length = 1 then tree.elems.head?
  else
    let n := tree.elems.length
    let tree := if tree.elems.length % 2 = 1
      then tree.append room tree.elems.getLast?.toList else tree
    rootLoop keccak room n tree (Slice.make (tree.elems.length / 2) (.zero 32))

/-! ## One level -/

variable {keccak}

variable {l : List Hash} {id : UInt64} {proofs : Option (List Hash)}

theorem evened_cons_cons (a b : Hash) (h : l ≠ []) : evened (a :: b :: l) = a :: b :: evened l := by
  have hlast : (a :: b :: l).getLast? = l.getLast? := by
    rw [List.getLast?_cons_of_ne_nil (List.cons_ne_nil b l), List.getLast?_cons_of_ne_nil h]
  unfold evened
  rw [hlast, List.length_cons, List.length_cons, Nat.add_assoc, Nat.add_mod_right]
  split <;> rfl

theorem evened_pair (a b : Hash) : evened [a, b] = [a, b] := by simp [evened]

theorem length_evened (h : l ≠ []) : (evened l).length / 2 = (HashTree.pairs l).length := by
  rw [HashTree.length_pairs]
  unfold evened
  split
  · rw [List.getLast?_eq_some_getLast h, List.length_append]
    rfl
  · omega

/-- **One level of the source is one level of the tree.** -/
theorem hashLevel_evened : ∀ l : List Hash,
    hashLevel keccak (evened l) = some (HashTree.above (hashPair keccak) l)
  | [] => rfl
  | [_] => rfl
  | [a, b] => by
      rw [evened_pair]
      rfl
  | a :: b :: c :: l => by
      rw [evened_cons_cons a b (List.cons_ne_nil c l), hashLevel, hashLevel_evened (c :: l)]
      rfl

theorem getElem?_evened_of_lt {i : ℕ} (hi : i < l.length) : (evened l)[i]? = l[i]? := by
  unfold evened
  split
  · exact List.getElem?_append_left hi
  · rfl

/-- The element beside an index of the list, in the list of even length, is its mate. -/
theorem getElem?_evened_succ : ∀ {l : List Hash} {i : ℕ}, i < l.length → i % 2 = 0 →
    (evened l)[i + 1]? = HashTree.mate l i
  | [], _, hi, _ => absurd hi (Nat.not_lt_zero _)
  | [_], 0, _, _ => rfl
  | [a, b], 0, _, _ => by
      rw [evened_pair]
      rfl
  | [_], _ + 1, hi, _ => absurd hi (by simp)
  | _ :: _ :: _, 1, _, h => absurd h (by decide)
  | [_, _], _ + 2, hi, _ => absurd hi (by simp)
  | a :: b :: c :: l, 0, _, _ => by
      rw [evened_cons_cons a b (List.cons_ne_nil c l)]
      rfl
  | a :: b :: c :: l, i + 2, hi, h => by
      rw [evened_cons_cons a b (List.cons_ne_nil c l)]
      exact getElem?_evened_succ (l := c :: l) (by simpa using hi) (by omega)

theorem getElem?_pred : ∀ {l : List Hash} {i : ℕ}, i < l.length → i % 2 = 1 →
    l[i - 1]? = HashTree.mate l i
  | [], _, hi, _ => absurd hi (Nat.not_lt_zero _)
  | [_], _ + 1, hi, _ => absurd hi (by simp)
  | _ :: _ :: _, 1, _, _ => rfl
  | _ :: _ :: l, i + 2, hi, h => by
      have hodd : i % 2 = 1 := by omega
      obtain ⟨i, rfl⟩ : ∃ j, i = j + 1 := ⟨i - 1, by omega⟩
      exact getElem?_pred (l := l) (i := i + 1)
        (Nat.lt_of_succ_lt_succ (Nat.lt_of_succ_lt_succ hi)) hodd

/-- **The sibling the source appends is the mate.** -/
theorem sibling_evened (hid : id.toNat < l.length) :
    sibling (evened l) id = HashTree.mate l id.toNat := by
  have hmod : id % 2 = 1 ↔ id.toNat % 2 = 1 := by
    rw [← UInt64.toNat_inj, UInt64.toNat_mod]
    rfl
  unfold sibling
  split_ifs with h
  · have hodd := hmod.mp h
    have hsub : (id - 1).toNat = id.toNat - 1 := by
      refine UInt64.toNat_sub_of_le id 1 (UInt64.le_iff_toNat_le.mpr ?_)
      show 1 ≤ id.toNat
      omega
    rw [hsub, getElem?_evened_of_lt (by omega), getElem?_pred hid hodd]
  · have heven : id.toNat % 2 = 0 := by
      have := mt hmod.mpr h
      omega
    have hadd : (id + 1).toNat = id.toNat + 1 := by
      have := id.toNat_lt
      rw [UInt64.toNat_add]
      exact Nat.mod_eq_of_lt (by simp; omega)
    rw [hadd, getElem?_evened_succ hid heven]

/-! ## The three functions are the tree -/

theorem toNat_div_two (id : UInt64) : (id / 2).toNat = id.toNat / 2 := UInt64.toNat_div ..

/-- What a call hands on as the proof list. -/
theorem collect_evened (hid : proofs = none ∨ id.toNat < l.length) :
    ∃ proofs', collect (evened l) id proofs = some proofs' ∧ (proofs = none → proofs' = none) ∧
      ∀ rest, proofs'.map (· ++ rest)
        = proofs.map (· ++ ((HashTree.mate l id.toNat).toList ++ rest)) := by
  cases proofs with
  | none => exact ⟨none, rfl, fun _ => rfl, fun _ => rfl⟩
  | some ps =>
    have hlt : id.toNat < l.length := by simpa using hid
    obtain ⟨s, hs, -⟩ := HashTree.exists_mate hlt
    refine ⟨some (ps ++ [s]), ?_, fun h => absurd h (by simp), fun rest => ?_⟩
    · rw [collect, sibling_evened hlt, hs]
      rfl
    · rw [hs]
      simp

/-- One call on more than one hash. -/
theorem calMerkelAux_succ (fuel : ℕ) (h2 : 2 ≤ l.length) {proofs' : Option (List Hash)}
    (hc : collect (evened l) id proofs = some proofs') :
    calMerkelAux keccak (fuel + 1) l proofs id
      = calMerkelAux keccak fuel (HashTree.above (hashPair keccak) l) proofs' (id / 2) := by
  rw [calMerkelAux, if_neg (by omega), hc, hashLevel_evened]
  rfl

/-- **`CalMerkel` is the root of the tree**, and appends the path of the index. -/
theorem calMerkelAux_eq {fuel : ℕ} (hne : l ≠ []) (hfuel : l.length ≤ fuel)
    (hid : proofs = none ∨ id.toNat < l.length) :
    calMerkelAux keccak fuel l proofs id = (HashTree.root (hashPair keccak) l).map
      fun r => (r, proofs.map (· ++ HashTree.path (hashPair keccak) l id.toNat)) := by
  induction l, hne using HashTree.level_induction (f := hashPair keccak)
    generalizing fuel proofs id with
  | single a =>
    obtain ⟨fuel, rfl⟩ : ∃ n, fuel = n + 1 := Nat.exists_eq_add_of_le' hfuel
    simp [calMerkelAux]
  | up l _ h2 ih =>
    obtain ⟨fuel, rfl⟩ : ∃ n, fuel = n + 1 := ⟨fuel - 1, by omega⟩
    obtain ⟨proofs', hc, hnone, hmap⟩ := collect_evened hid
    have hshort := HashTree.length_above_lt (hashPair keccak) h2
    have hid' : proofs' = none ∨ (id / 2).toNat < (HashTree.above (hashPair keccak) l).length := by
      rw [toNat_div_two]
      exact hid.imp hnone (HashTree.div_two_lt_length_above (hashPair keccak))
    rw [calMerkelAux_succ fuel h2 hc, ih (by omega) hid', HashTree.root_above h2, toNat_div_two,
      hmap, HashTree.path.eq_def _ l, if_pos h2]

theorem calMerkel_eq (hne : l ≠ []) (hid : proofs = none ∨ id.toNat < l.length) :
    calMerkel keccak l proofs id = (HashTree.root (hashPair keccak) l).map
      fun r => (r, proofs.map (· ++ HashTree.path (hashPair keccak) l id.toNat)) :=
  calMerkelAux_eq hne le_rfl hid

theorem merkekRoot_eq (hne : l ≠ []) : merkekRoot keccak l = HashTree.root (hashPair keccak) l := by
  rw [merkekRoot, calMerkel_eq hne (.inl rfl), Option.map_map]
  exact Option.map_id'

/-- **`VerigyMerkel` climbs.** -/
theorem verigyMerkel_eq (root : Hash) (proofs : List Hash) (hash : Hash) (idx : UInt64) :
    verigyMerkel keccak root proofs hash idx
      = decide (HashTree.climb (hashPair keccak) proofs hash idx.toNat = root) := by
  induction proofs generalizing hash idx with
  | nil => rfl
  | cons h proofs ih =>
    have hmod : idx % 2 = 0 ↔ idx.toNat % 2 = 0 := by
      rw [← UInt64.toNat_inj, UInt64.toNat_mod]
      rfl
    rw [verigyMerkel, HashTree.climb, HashTree.joined, ih, ih, toNat_div_two]
    by_cases h0 : idx.toNat % 2 = 0
    · rw [if_pos (hmod.mpr h0), if_pos h0]
    · rw [if_neg (mt hmod.mp h0), if_neg h0]

/-! ## The buffers of `Root` -/

/-- The inner loop fills the part of the result that is left. -/
theorem fillLevel_evened : ∀ (l done todo spare : List Hash),
    todo.length = (HashTree.pairs l).length →
    fillLevel keccak (evened l) done.length ⟨done ++ todo, spare⟩
      = some ⟨done ++ HashTree.above (hashPair keccak) l, spare⟩
  | [], done, todo, spare, h => by
      rw [List.eq_nil_of_length_eq_zero h]
      rfl
  | [a], done, todo, spare, h => by
      obtain ⟨b, rfl⟩ := List.length_eq_one_iff.mp h
      exact congrArg (· >>= fillLevel keccak [] _) (Slice.set_append_cons done [] _ b spare)
  | [a, b], done, todo, spare, h => by
      obtain ⟨c, rfl⟩ := List.length_eq_one_iff.mp h
      rw [evened_pair]
      exact congrArg (· >>= fillLevel keccak [] _) (Slice.set_append_cons done [] _ c spare)
  | a :: b :: c :: l, done, todo, spare, h => by
      obtain ⟨d, todo, rfl⟩ := List.exists_cons_of_length_eq_add_one h
      have hrec := fillLevel_evened (c :: l) (done ++ [hashPair keccak (a, b)]) todo spare
        (Nat.succ.inj h)
      rw [List.length_append, List.append_assoc, List.append_assoc] at hrec
      rw [evened_cons_cons a b (List.cons_ne_nil c l), fillLevel, Slice.set_append_cons]
      exact hrec

section

variable (room : ℕ → List Hash)
include room

/-- What the list buffer shows after the copy. -/
theorem elems_evened {s : Slice Hash} (h : s.elems = l) :
    (if l.length % 2 = 1 then s.append room l.getLast?.toList else s).elems = evened l := by
  unfold evened
  split <;> simp [h]

/-- **The buffers always have room**, and the next round starts as this one did. -/
theorem exists_nextBuffers (tree : Slice Hash) {m : List Hash} (hne : m ≠ []) (spare : List Hash) :
    ∃ tree' result', nextBuffers room tree ⟨m, spare⟩ = some (tree', result') ∧
      tree'.elems = evened m ∧ result'.elems.length = (HashTree.pairs m).length := by
  obtain ⟨tree₁, htree₁, hnil⟩ := Slice.exists_reslice (s := tree) (Nat.zero_le _)
  have helems : (tree₁.append room m).elems = m := by
    rw [Slice.elems_append, hnil, List.take_zero, List.nil_append]
  have hhalf := length_evened hne
  have hle : (HashTree.pairs m).length ≤ m.length := by
    have := List.length_pos_iff.mpr hne
    rw [HashTree.length_pairs]
    omega
  obtain ⟨result', hresult', htake⟩ := Slice.exists_reslice (s := ⟨m, spare⟩) hle
  rw [← hhalf, ← elems_evened room helems] at hresult'
  refine ⟨_, result', ?_, elems_evened room helems, ?_⟩
  · simp only [nextBuffers, htree₁, hresult', some_bind, Option.pure_def]
  · rw [htake, List.length_take, min_eq_left hle]

/-- **`Root` is the root of the tree**: at the start of a round the list buffer shows the level. -/
theorem rootLoop_eq {fuel : ℕ} (h2 : 2 ≤ l.length)
    (hfuel : l.length ≤ fuel + 1) {tree result : Slice Hash} (htree : tree.elems = evened l)
    (hresult : result.elems.length = (HashTree.pairs l).length) :
    rootLoop keccak room fuel tree result = HashTree.root (hashPair keccak) l := by
  induction fuel generalizing l tree result with
  | zero => exact absurd (h2.trans hfuel) (by decide)
  | succ fuel ih =>
    have hshort := HashTree.length_above_lt (hashPair keccak) h2
    have hne : HashTree.above (hashPair keccak) l ≠ [] :=
      HashTree.above_ne_nil (List.ne_nil_of_length_pos (Nat.zero_lt_of_lt h2))
    have hfill : fillLevel keccak tree.elems 0 result
        = some ⟨HashTree.above (hashPair keccak) l, result.spare⟩ := by
      rw [htree]
      exact fillLevel_evened l [] result.elems result.spare hresult
    rw [HashTree.root_above h2]
    simp only [rootLoop, hfill, some_bind]
    generalize HashTree.above (hashPair keccak) l = m at hshort hne
    by_cases h1 : m.length = 1
    · obtain ⟨r, rfl⟩ := List.length_eq_one_iff.mp h1
      rw [if_pos h1, HashTree.root_single]
      rfl
    · have hpos := List.length_pos_iff.mpr hne
      obtain ⟨tree', result', hnext, htree', hresult'⟩ :=
        exists_nextBuffers room tree hne result.spare
      rw [if_neg h1, hnext]
      exact ih (by omega) (by omega) htree' hresult'

theorem root_eq {tree : Slice Hash} (hne : tree.elems ≠ []) :
    root keccak room tree = HashTree.root (hashPair keccak) tree.elems := by
  by_cases h1 : tree.elems.length = 1
  · obtain ⟨r, hr⟩ := List.length_eq_one_iff.mp h1
    rw [root, if_pos h1, hr, HashTree.root_single]
    rfl
  · have hpos := List.length_pos_iff.mpr hne
    have helems := elems_evened room (s := tree) rfl
    rw [root, if_neg h1]
    refine rootLoop_eq room (by omega) (by omega) helems ?_
    rw [helems, ← length_evened hne]
    exact List.length_replicate

end

/-! ## Proofs -/

/-- **Proofs are complete**: what `CalMerkel` collects verifies against `MerkekRoot`, and the root
is the same whether or not a proof is collected. -/
theorem verigyMerkel_calMerkel (tree : List Hash) (id : UInt64) (hid : id.toNat < tree.length) :
    ∃ root proofs, calMerkel keccak tree (some []) id = some (root, some proofs) ∧
      merkekRoot keccak tree = some root ∧
      verigyMerkel keccak root proofs tree[id.toNat] id = true ∧
      ∀ id', calMerkel keccak tree none id' = some (root, none) := by
  have hne : tree ≠ [] := List.ne_nil_of_length_pos (Nat.zero_lt_of_lt hid)
  have hroot := HashTree.climb_path (f := hashPair keccak) hid
  refine ⟨_, HashTree.path (hashPair keccak) tree id.toNat, ?_, (merkekRoot_eq hne).trans hroot,
    ?_, fun id' => ?_⟩
  · rw [calMerkel_eq hne (.inr hid), hroot]
    rfl
  · rw [verigyMerkel_eq]
    exact decide_eq_true rfl
  · rw [calMerkel_eq hne (.inl rfl), hroot]
    rfl

/-- Three hashes, so that the lower level is padded. -/
def Sample.leaves : List Hash :=
  [FixedBytes.ofBytes 32 [1], FixedBytes.ofBytes 32 [2], FixedBytes.ofBytes 32 [3]]

open Gocoin.Merkle.Sample (leaves)

theorem verigyMerkel_calMerkel_leaves :
    ∃ root proofs, calMerkel Sample.keccak leaves (some []) 2 = some (root, some proofs) ∧
      merkekRoot Sample.keccak leaves = some root ∧
      verigyMerkel Sample.keccak root proofs (FixedBytes.ofBytes 32 [3]) 2 = true ∧
      ∀ id', calMerkel Sample.keccak leaves none id' = some (root, none) :=
  verigyMerkel_calMerkel leaves 2 (by decide)

/-- **Proofs are sound**: whatever verifies with as many siblings as `CalMerkel` collects is the
hash at that index.  No function from two hashes to one is injective, so injectivity is asked where
it matters: on the pairs hashed in the tree and in the verification. -/
theorem eq_of_verigyMerkel (tree : List Hash) (idx : UInt64) (hidx : idx.toNat < tree.length)
    (h : Hash) (proofs : List Hash) {root : Hash} (hroot : merkekRoot keccak tree = some root)
    {made : List Hash} (hmade : calMerkel keccak tree (some []) idx = some (root, some made))
    (hlen : proofs.length = made.length) (hok : verigyMerkel keccak root proofs h idx = true)
    (hinj : Set.InjOn (hashPair keccak) {p | p ∈ HashTree.joins (hashPair keccak) tree ∨
      p ∈ HashTree.climbJoins (hashPair keccak) proofs h idx.toNat}) :
    h = tree[idx.toNat] := by
  have hne : tree ≠ [] := List.ne_nil_of_length_pos (Nat.zero_lt_of_lt hidx)
  rw [merkekRoot_eq hne] at hroot
  rw [calMerkel_eq hne (.inr hidx), hroot] at hmade
  have hpath : HashTree.path (hashPair keccak) tree idx.toNat = made := by simpa using hmade
  rw [verigyMerkel_eq, decide_eq_true_eq] at hok
  refine HashTree.eq_of_climb_eq_root hidx ?_ (hroot.trans (congrArg some hok.symm)) hinj
  rw [hlen, ← hpath, HashTree.length_path hidx]

/-- The hashes of the sample tree above its leaves. -/
def Sample.nodes : Hash × Hash :=
  (hashPair Sample.keccak (FixedBytes.ofBytes 32 [1], FixedBytes.ofBytes 32 [2]),
    hashPair Sample.keccak (FixedBytes.ofBytes 32 [3], FixedBytes.ofBytes 32 [3]))

theorem eq_of_verigyMerkel_leaves : FixedBytes.ofBytes 32 [3] = leaves[(2 : UInt64).toNat] := by
  have hjoins : HashTree.joins (hashPair Sample.keccak) leaves
      = HashTree.pairs leaves ++ [Sample.nodes] := by
    rw [HashTree.joins_above (by decide), HashTree.joins_above (by decide), HashTree.joins.eq_def,
      if_neg (by decide)]
    rfl
  refine eq_of_verigyMerkel leaves 2 (by decide) (FixedBytes.ofBytes 32 [3])
    [FixedBytes.ofBytes 32 [3], Sample.nodes.1]
    (show merkekRoot Sample.keccak leaves
      = some (hashPair Sample.keccak Sample.nodes) by decide +kernel)
    (show calMerkel Sample.keccak leaves (some []) 2
      = some (hashPair Sample.keccak Sample.nodes,
        some [FixedBytes.ofBytes 32 [3], Sample.nodes.1]) by decide +kernel) rfl
    (by decide +kernel) ?_
  rw [hjoins]
  have hlist : ∀ p ∈ HashTree.pairs leaves ++ [Sample.nodes],
      ∀ q ∈ HashTree.pairs leaves ++ [Sample.nodes],
        hashPair Sample.keccak p = hashPair Sample.keccak q → p = q := by decide +kernel
  have hclimb : ∀ p ∈ HashTree.climbJoins (hashPair Sample.keccak)
      [FixedBytes.ofBytes 32 [3], Sample.nodes.1] (FixedBytes.ofBytes 32 [3]) (2 : UInt64).toNat,
      p ∈ HashTree.pairs leaves ++ [Sample.nodes] := by decide +kernel
  intro p hp q hq
  exact hlist p (hp.elim id (hclimb p)) q (hq.elim id (hclimb q))

/-- **The two roots agree**: `Root` returns, whatever room its buffers have, and returns what
`MerkekRoot` returns. -/
theorem root_eq_merkekRoot (room : ℕ → List Hash) (tree : Slice Hash) (hne : tree.elems ≠ []) :
    ∃ r, root keccak room tree = some r ∧ merkekRoot keccak tree.elems = some r := by
  obtain ⟨r, hr⟩ := HashTree.exists_root (f := hashPair keccak) hne
  exact ⟨r, (root_eq room hne).trans hr, (merkekRoot_eq hne).trans hr⟩

theorem root_eq_merkekRoot_leaves :
    ∃ r, root Sample.keccak (fun _ => []) ⟨leaves, []⟩ = some r ∧
      merkekRoot Sample.keccak leaves = some r :=
  root_eq_merkekRoot (fun _ => []) ⟨leaves, []⟩ (by decide)

end Gocoin.Merkle
