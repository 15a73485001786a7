import Gocoin.Trie.Trees
import Gocoin.Protocol.Wire

/-!
# Protocol/DeriveSha — the transaction root commits to the transactions

`DeriveSha` puts the encodings of the transactions into a trie, each under the encoding of its
position, and takes the root.  The keys are of different lengths but pairwise distinct, so the tree
of the trie lists the encodings (`Lists`) and is the only one that does; the loop builds it
(`exists_deriveFrom`) and `Hash` gives its root.  Equal roots are equal trees, hence equal lists
(`deriveSha_eq_iff`).
-/

namespace Gocoin

open Rlp Patricia Trie

/-! ## Positions -/

/-- The path of a position: its encoding, in nibbles. -/
def position (i : ℕ) : Nibbles := keybytesToHex (encode (.ofNat i))

theorem length_position_le {i : ℕ} (hi : i < 2 ^ 64) : (position i).length ≤ 35 := by
  have hlen := length_encode_ofNat_le hi
  rw [position, length_keybytesToHex]
  omega

theorem terminated_position (i : ℕ) : Terminated (position i) := terminated_keybytesToHex _

/-- **The positions have different paths.** -/
theorem position_inj {i j : ℕ} (hi : i < 2 ^ 64) : position i = position j ↔ i = j := by
  constructor
  · intro h
    have hlen := length_encode_ofNat_le hi
    exact Item.ofNat_injective (encode_injective (by omega) (keybytesToHex_injective h))
  · rintro rfl
    rfl

/-! ## Trees that list strings -/

/-- A canonical tree that holds a list: the strings under their positions, and nothing else. -/
structure Lists (t : PTree) (vs : List Bytes) : Prop where
  canonical : Tree.Canonical Value t
  get_position : ∀ i < 2 ^ 64, t.get (position i) = vs[i]?
  only : ∀ key v, t.get key = some v → ∃ i < 2 ^ 64, key = position i

namespace Lists

variable {t t' : PTree} {vs vs' : List Bytes}

theorem keysLE (h : Lists t vs) : KeysLE t := by
  intro key v hget
  obtain ⟨i, hi, rfl⟩ := h.only key v hget
  exact (length_position_le hi).trans (by norm_num)

theorem nil : Lists .nil [] := ⟨.inl rfl, fun _ _ => rfl, fun _ _ h => by cases h⟩

/-- **A list has one tree.** -/
theorem unique (h : Lists t vs) (h' : Lists t' vs) : t = t' := by
  refine h.canonical.ext_on h'.canonical h.only h'.only ?_
  rintro _ ⟨i, hi, rfl⟩
  rw [h.get_position i hi, h'.get_position i hi]

/-- **…and a tree one list**, among those that are not too long. -/
theorem list_unique (h : Lists t vs) (h' : Lists t vs') (hlen : vs.length ≤ 2 ^ 64)
    (hlen' : vs'.length ≤ 2 ^ 64) : vs = vs' := by
  refine List.ext_getElem? fun i => ?_
  by_cases hi : i < 2 ^ 64
  · rw [← h.get_position i hi, h'.get_position i hi]
  · rw [List.getElem?_eq_none (by omega), List.getElem?_eq_none (by omega)]

/-- The next string goes to the next position. -/
theorem insert (h : Lists t vs) (hlen : vs.length < 2 ^ 64) {v : Bytes} (hv : Value v) :
    Lists (t.insert v (position vs.length)) (vs ++ [v]) where
  canonical := .inr (Tree.wf_insert h.canonical (terminated_position _) hv)
  get_position i hi := by
    rw [Tree.get_insert h.canonical (terminated_position _), h.get_position i hi]
    by_cases he : i = vs.length
    · rw [if_pos ((position_inj hi).mpr he), he, List.getElem?_concat_length]
    · rw [if_neg (mt (position_inj hi).mp he)]
      rcases Nat.lt_or_gt_of_ne he with hlt | hgt
      · rw [List.getElem?_append_left hlt]
      · rw [List.getElem?_eq_none (by omega),
          List.getElem?_eq_none (by rw [List.length_append, List.length_singleton]; omega)]
  only key w hget := by
    rw [Tree.get_insert h.canonical (terminated_position _)] at hget
    split at hget
    · next he => exact ⟨vs.length, hlen, he⟩
    · exact h.only key w hget

end Lists

/-! ## The loop -/

/-- `GetRlp`: the encoding of a transaction, its error dropped. -/
def Tx.getRlp (tx : Tx) : Bytes := (encodeToBytes tx.encodeRLP).getD []

/-- The transactions can be encoded, and there are only as many as a slice holds. -/
structure Encodable (txs : List Tx) : Prop where
  length_lt : txs.length < 2 ^ 63
  encodes : ∀ tx ∈ txs, ∃ b, encodeToBytes tx.encodeRLP = some b ∧ b.length < 2 ^ 63

theorem encode_ne_nil (it : Item) : encode it ≠ [] := by
  intro h
  have hdec := decode_encode (x := it) (by rw [h]; norm_num)
  rw [h] at hdec
  cases hdec

variable {txs : List Tx} {tx : Tx}

/-- What has an encoding has a value for the trie. -/
theorem Encodable.value (h : Encodable txs) (htx : tx ∈ txs) : Value tx.getRlp := by
  obtain ⟨b, hb, hlen⟩ := h.encodes tx htx
  rw [Tx.getRlp, hb, Option.getD_some]
  refine ⟨?_, hlen⟩
  rw [Tx.encodeToBytes_encodeRLP, Option.map_eq_some_iff] at hb
  obtain ⟨it, -, rfl⟩ := hb
  exact encode_ne_nil it

theorem Encodable.tail (h : Encodable (tx :: txs)) : Encodable txs where
  length_lt := (Nat.lt_succ_self _).trans h.length_lt
  encodes tx' htx' := h.encodes tx' (List.mem_cons_of_mem tx htx')

variable {keccak : HashFn}

/-- **The loop lists the transactions** behind those that are listed already. -/
theorem exists_deriveFrom (henc : Encodable txs) {t : Trie} {tree : PTree} (vs : List Bytes)
    (hlen : vs.length + txs.length ≤ 2 ^ 64) (hl : Lists tree vs)
    (hr : Rep keccak (fun _ => none) true t.root tree) :
    ∃ t' tree', deriveFrom t vs.length txs = .ok t' ∧ Lists tree' (vs ++ txs.map Tx.getRlp) ∧
      Rep keccak (fun _ => none) true t'.root tree' := by
  induction txs generalizing t tree vs with
  | nil => exact ⟨t, tree, rfl, by rwa [List.map_nil, List.append_nil], hr⟩
  | cons tx txs ih =>
    rw [List.length_cons] at hlen
    have hv := henc.value List.mem_cons_self
    obtain ⟨t₁, ht₁, hr₁⟩ := hr.exists_tryUpdate hl.canonical hl.keysLE
      (encode (.ofNat vs.length)) hv
    obtain ⟨t', tree', ht', hl', hr'⟩ := ih henc.tail
      (vs ++ [tx.getRlp]) (by rw [List.length_append, List.length_singleton]; omega)
      (hl.insert (by omega) hv) hr₁
    refine ⟨t', tree', ?_, ?_, hr'⟩
    · rw [Tx.getRlp, Tx.encodeToBytes_encodeRLP] at ht₁
      rw [List.length_append, List.length_singleton] at ht'
      rw [deriveFrom, ht₁]
      exact ht'
    · rwa [List.append_assoc, List.singleton_append, ← List.map_cons] at hl'

variable (keccak) in
/-- **`DeriveSha` gives the root of the tree that lists the transactions.** -/
theorem exists_deriveSha (henc : Encodable txs) :
    ∃ tree, Lists tree (txs.map Tx.getRlp) ∧
      deriveSha keccak txs = some (rootHash keccak tree) := by
  have hlt := henc.length_lt
  have hnil : Rep keccak (fun _ => none) true (⟨.nil, 0, 0⟩ : Trie).root .nil := .nil
  obtain ⟨t, tree, ht, hl, hr⟩ :=
    exists_deriveFrom henc [] (by rw [List.length_nil]; omega) .nil hnil
  obtain ⟨t', ht', -⟩ := hr.exists_hash hl.canonical
  refine ⟨tree, by rwa [List.nil_append] at hl, ?_⟩
  rw [List.length_nil] at ht
  rw [deriveSha, ht]
  simp only [ht']

/-! ## Equal roots -/

/-- The encodings of the nodes of the trie that `DeriveSha` builds. -/
def txNodes (keccak : HashFn) (txs : List Tx) : Set Bytes :=
  {e | ∃ t, Lists t (txs.map Tx.getRlp) ∧ e ∈ encodings keccak t}

/-- **The transaction root commits to the transactions.**  For transactions that can be encoded
`DeriveSha` gives a root, and two lists have the same root exactly when they have the same length
and the same encoding at every position, as long as the hash has no collision on the nodes and none
of them hashes to the root of the empty trie. -/
theorem deriveSha_eq_iff {l₁ l₂ : List Tx} (h₁ : Encodable l₁) (h₂ : Encodable l₂)
    (hfree : Set.InjOn keccak (txNodes keccak l₁ ∪ txNodes keccak l₂))
    (hempty : ∀ e ∈ txNodes keccak l₁ ∪ txNodes keccak l₂, keccak e ≠ emptyRoot) :
    (∃ root, deriveSha keccak l₁ = some root) ∧
    (deriveSha keccak l₁ = deriveSha keccak l₂ ↔ l₁.length = l₂.length ∧
      ∀ i : ℕ, l₁[i]?.map (fun tx : Tx => encodeToBytes tx.encodeRLP)
        = l₂[i]?.map fun tx : Tx => encodeToBytes tx.encodeRLP) := by
  obtain ⟨t₁, hl₁, hsha₁⟩ := exists_deriveSha keccak h₁
  obtain ⟨t₂, hl₂, hsha₂⟩ := exists_deriveSha keccak h₂
  refine ⟨⟨_, hsha₁⟩, ?_⟩
  have hroots : deriveSha keccak l₁ = deriveSha keccak l₂ ↔
      l₁.map Tx.getRlp = l₂.map Tx.getRlp := by
    rw [hsha₁, hsha₂, Option.some.injEq]
    constructor
    · intro hroot
      have hsub₁ : encodings keccak t₁ ⊆ txNodes keccak l₁ := fun e he => ⟨t₁, hl₁, he⟩
      have hsub₂ : encodings keccak t₂ ⊆ txNodes keccak l₂ := fun e he => ⟨t₂, hl₂, he⟩
      have heq : t₁ = t₂ := rootHash_injective hfree hl₁.canonical hl₂.canonical hl₁.keysLE
        hl₂.keysLE (hsub₁.trans Set.subset_union_left) (hsub₂.trans Set.subset_union_right)
        (fun e he => hempty e (he.imp (fun h => hsub₁ h) fun h => hsub₂ h)) hroot
      have hlen₁ := h₁.length_lt
      have hlen₂ := h₂.length_lt
      exact hl₁.list_unique (heq ▸ hl₂) (by rw [List.length_map]; omega)
        (by rw [List.length_map]; omega)
    · intro hmap
      rw [hmap] at hl₁
      rw [hl₁.unique hl₂]
  have hsome : ∀ {l : List Tx}, Encodable l →
      l.map (fun tx : Tx => encodeToBytes tx.encodeRLP) = (l.map Tx.getRlp).map some := by
    intro l hl
    rw [List.map_map]
    refine List.map_congr_left fun tx htx => ?_
    obtain ⟨b, hb, -⟩ := hl.encodes tx htx
    rw [Function.comp_apply, Tx.getRlp, hb, Option.getD_some]
  rw [hroots]
  constructor
  · intro hmap
    refine ⟨by rw [← List.length_map Tx.getRlp, hmap, List.length_map], fun i => ?_⟩
    rw [← List.getElem?_map, ← List.getElem?_map, hsome h₁, hsome h₂, hmap]
  · rintro ⟨-, hget⟩
    refine List.map_injective_iff.mpr (Option.some_injective _) ?_
    rw [← hsome h₁, ← hsome h₂]
    refine List.ext_getElem? fun i => ?_
    rw [List.getElem?_map, List.getElem?_map, hget i]

/-! ## One transaction and another -/

/-- The one node of the trie of one transaction. -/
theorem txNodes_single (h : Encodable [tx]) :
    txNodes keccak [tx] ⊆ {enc keccak (.short (position 0) (.value tx.getRlp))} := by
  have hv := h.value (List.mem_singleton_self tx)
  have hleaf : Lists (.short (position 0) (.value tx.getRlp)) [tx.getRlp] := by
    have hins := Lists.nil.insert (by norm_num) hv
    rwa [List.length_nil, Tree.insert_nil _ (terminated_position 0).ne_nil] at hins
  rintro e ⟨t, ht, he⟩
  rw [ht.unique hleaf] at he
  rcases he with rfl | he
  · rfl
  · exact he.elim

theorem Sample.encodable_single
    (h : (encodeToBytes tx.encodeRLP).any fun b => decide (b.length < 2 ^ 63)) :
    Encodable [tx] where
  length_lt := by norm_num
  encodes tx' htx' := by
    rw [List.mem_singleton.mp htx']
    obtain ⟨b, hb, hlen⟩ := (Option.any_eq_true _ _).mp h
    exact ⟨b, hb, of_decide_eq_true hlen⟩

/-- Two transactions that differ have different roots. -/
theorem deriveSha_transfer_ne :
    deriveSha Sample.keccak [Sample.transfer]
      ≠ deriveSha Sample.keccak [{ Sample.transfer with txtime := 6 }] := by
  have h₁ : Encodable [Sample.transfer] := Sample.encodable_single (by decide +kernel)
  have h₂ : Encodable [{ Sample.transfer with txtime := 6 }] :=
    Sample.encodable_single (by decide +kernel)
  let e₁ := enc Sample.keccak (.short (position 0) (.value Sample.transfer.getRlp))
  let e₂ := enc Sample.keccak
    (.short (position 0) (.value ({ Sample.transfer with txtime := 6 } : Tx).getRlp))
  have hne : Sample.keccak e₁ ≠ Sample.keccak e₂ ∧ Sample.keccak e₁ ≠ emptyRoot ∧
      Sample.keccak e₂ ≠ emptyRoot := by decide +kernel
  have hsub : ∀ e ∈ txNodes Sample.keccak [Sample.transfer] ∪
      txNodes Sample.keccak [{ Sample.transfer with txtime := 6 }], e = e₁ ∨ e = e₂ := by
    rintro e (he | he)
    · exact .inl (txNodes_single h₁ he)
    · exact .inr (txNodes_single h₂ he)
  rw [ne_eq, (deriveSha_eq_iff h₁ h₂ ?_ ?_).2]
  · rintro ⟨-, hget⟩
    exact absurd (hget 0) (by decide +kernel)
  · intro e he e' he' heq
    rcases hsub e he with rfl | rfl
    all_goals rcases hsub e' he' with rfl | rfl
    · rfl
    · exact absurd heq hne.1
    · exact absurd heq.symm hne.1
    · rfl
  · intro e he
    rcases hsub e he with rfl | rfl
    · exact hne.2.1
    · exact hne.2.2

end Gocoin
