import Gocoin.Trie.Hasher

/-!
# Trie/Merkle — the trie as a tree with a hash

What a trie is, apart from how much of it is loaded and which hashes are cached: a radix tree over
nibbles with byte strings as values.  A tree has one encoding — subtrees whose encoding is shorter
than a hash are embedded, the others are named by the hash of theirs — and one root.  `Held` says
that a database holds all that can be named below a tree, and the encodings of two canonical trees
agree only when the trees do, as long as the hash has no collision on them (`enc_injective`).
-/

namespace Gocoin.Trie

open Patricia Rlp

/-- Tries as trees. -/
abbrev PTree := Tree 16 Bytes

/-- The values of a trie: nonempty byte strings of a size a machine can hold. -/
def Value (v : Bytes) : Prop := v ≠ [] ∧ v.length < 2 ^ 63

section Encoding

variable (H : HashFn)

/-- The element that stands for a subtree in the list of its parent. -/
def refItem : Item → Item
  | .str s => .str s
  | .list l =>
    if (encode (.list l)).length < 32 then .list l else .str (H (encode (.list l))).bytes

/-- The list of a tree. -/
def item : PTree → Item
  | .nil => .str []
  | .value v => .str v
  | .short k t => .list [.str (hexToCompact k), refItem H (item t)]
  | .full c => .list ((List.finRange 17).map fun i => refItem H (item (c i)))

/-- The encoding of a tree. -/
def enc (t : PTree) : Bytes := encode (item H t)

/-- The root of a tree. -/
def rootHash : PTree → Hash
  | .nil => emptyRoot
  | t => H (enc H t)

/-- The tree is a short or a full node. -/
def IsNode : PTree → Prop
  | .short _ _ => True
  | .full _ => True
  | _ => False

/-- The encodings of the nodes of a tree. -/
def encodings : PTree → Set Bytes
  | .nil => ∅
  | .value _ => ∅
  | .short k t => insert (enc H (.short k t)) (encodings t)
  | .full c => insert (enc H (.full c)) (⋃ i, encodings (c i))

end Encoding

variable (H : HashFn)

/-- The list of a full node: sixteen subtrees and the value. -/
theorem item_full (c : Fin 17 → PTree) :
    item H (.full c) = .list ((List.finRange 16).map
      (fun i => refItem H (item H (c i.castSucc))) ++
        [refItem H (item H (c (Fin.last 16)))]) := by
  rw [item, List.finRange_succ_last, List.map_append, List.map_map]
  rfl

variable {t t' : PTree} {k : Nibbles} {D : Set Bytes}

theorem exists_list_of_isNode (h : IsNode t) : ∃ l, item H t = .list l := by
  cases t with
  | nil => exact h.elim
  | value v => exact h.elim
  | short k t | full c => exact ⟨_, rfl⟩

theorem isNode_of_wf (h : Tree.Wf Value t) : IsNode t := by
  cases h <;> trivial

/-! ## Sizes -/

theorem encodeString_hash (h : Hash) : (encodeString h.bytes).length = 33 := by
  have hb : ¬ OwnEncoding h.bytes := by
    rintro ⟨x, hx, -⟩
    have := h.length_eq
    rw [hx] at this
    exact absurd this (by simp)
  rw [encodeString_eq hb, List.length_append, h.length_eq]
  rfl

theorem length_encode_refItem_le (l : List Item) : (encode (refItem H (.list l))).length ≤ 33 := by
  rw [refItem]
  split
  · omega
  · rw [encode, encodeString_hash]

theorem length_encode_ref_le (h : IsNode t) : (encode (refItem H (item H t))).length ≤ 33 := by
  obtain ⟨l, hl⟩ := exists_list_of_isNode H h
  rw [hl]
  exact length_encode_refItem_le H l

theorem length_packNibbles_le (flag : UInt8) (k : Nibbles) :
    2 * (packNibbles flag k).length ≤ k.length + 2 := by
  have hdec : ∀ l : Nibbles, 2 * (decodeNibbles l).length ≤ l.length := by
    intro l
    induction l using decodeNibbles.induct with
    | case1 a b rest ih =>
      rw [decodeNibbles, List.length_cons, List.length_cons, List.length_cons]
      omega
    | case2 l hl =>
      rw [decodeNibbles.eq_def]
      split
      · next a b rest => exact absurd rfl (hl a b rest)
      · simp
  rw [packNibbles.eq_def]
  split
  · split
    · next a rest _ =>
      rw [List.length_cons, List.length_cons]
      have := hdec rest
      omega
    · simp
  · rw [List.length_cons]
    have := hdec k
    omega

theorem length_hexToCompact_le (k : Nibbles) : 2 * (hexToCompact k).length ≤ k.length + 2 := by
  unfold hexToCompact
  split
  · refine (length_packNibbles_le 32 k.dropLast).trans ?_
    rw [List.length_dropLast]
    omega
  · exact length_packNibbles_le 0 k

/-- No key of the tree is longer than a machine can hold. -/
def KeysLE (t : PTree) : Prop := ∀ key v, t.get key = some v → key.length ≤ 2 ^ 63

theorem keysLE_nil : KeysLE .nil := fun _ _ h => by cases h

theorem KeysLE.of_short (h : KeysLE (.short k t)) : KeysLE t := by
  intro key v hget
  have hle := h (k ++ key) v (by rw [Tree.get_short_append, hget])
  rw [List.length_append] at hle
  omega

variable {c : Fin 17 → PTree} {key : Nibbles}

theorem KeysLE.of_full (h : KeysLE (.full c)) (a : Fin 17) : KeysLE (c a) := by
  intro key v hget
  have hle := h (a :: key) v hget
  rw [List.length_cons] at hle
  omega

theorem KeysLE.delete (h : KeysLE t) (hc : Tree.Canonical Value t) (hkey : Terminated key) :
    KeysLE (t.delete key) := by
  intro key' w hget
  rw [Tree.get_delete hc hkey] at hget
  split at hget
  · cases hget
  · exact h key' w hget

/-- Deleting below a branch keeps the keys of its children short. -/
theorem KeysLE.update_delete (h : KeysLE (.full c)) (hw : Tree.Wf Value (.full c)) {a : Fin 17}
    (hkey : Terminated (a :: key)) (i : Fin 17) :
    KeysLE (Function.update c a ((c a).delete key) i) := by
  by_cases hi : i = a
  · subst hi
    rw [Function.update_self]
    by_cases hlast : i = Fin.last 16
    · subst hlast
      obtain hnil | ⟨v, -, hval⟩ := hw.child_last
      · rw [hnil]
        exact keysLE_nil
      · rw [hval]
        exact keysLE_nil
    · exact (h.of_full i).delete (hw.child hlast) ((terminated_cons hlast key).mp hkey)
  · rw [Function.update_of_ne hi]
    exact h.of_full i

theorem KeysLE.length_le (h : KeysLE (.short k t)) (ht : ∃ key v, t.get key = some v) :
    k.length ≤ 2 ^ 63 := by
  obtain ⟨key, v, hget⟩ := ht
  have hle := h (k ++ key) v (by rw [Tree.get_short_append, hget])
  rw [List.length_append] at hle
  omega

theorem length_encode_pair_lt {a b : Item} (ha : (encode a).length ≤ 2 ^ 62 + 10)
    (hb : (encode b).length ≤ 2 ^ 63 + 9) : (encode (.list [a, b])).length < 2 ^ 64 := by
  have hlen : (encodeItems [a, b]).length = (encode a).length + (encode b).length := by
    simp [encodeItems]
  have hle := length_encode_list_le (show (encodeItems [a, b]).length < 2 ^ 64 by omega)
  omega

theorem length_encode_compact_le (h : k.length ≤ 2 ^ 63) :
    (encode (.str (hexToCompact k))).length ≤ 2 ^ 62 + 10 := by
  have hk := length_hexToCompact_le k
  have hle := length_encodeString_le (b := hexToCompact k) (by omega)
  rw [encode]
  omega

theorem length_encode_value_le {v : Bytes} (h : Value v) :
    (encode (.str v)).length ≤ 2 ^ 63 + 9 := by
  have hlt := h.2
  have hle := length_encodeString_le (b := v) (by omega)
  rw [encode]
  omega

/-- **The encodings of a tree fit into memory.** -/
theorem length_enc_lt (h : Tree.Wf Value t) (hk : KeysLE t) : (enc H t).length < 2 ^ 64 := by
  cases h with
  | @leaf k v hterm hv =>
    exact length_encode_pair_lt (length_encode_compact_le (hk.length_le ⟨[], v, rfl⟩))
      (length_encode_value_le hv)
  | @ext k c hne hlast hw =>
    refine length_encode_pair_lt (length_encode_compact_le (hk.length_le hw.exists_get)) ?_
    exact (length_encode_refItem_le H _).trans (by norm_num)
  | @full c htwo hc hlast =>
    have hw : Tree.Wf Value (.full c) := .full htwo hc hlast
    have hsixteen : (encodeItems ((List.finRange 16).map fun i =>
        refItem H (item H (c i.castSucc)))).length ≤ 16 * 33 := by
      refine (length_encodeItems_le (m := 33) ?_).trans (by simp)
      intro x hx
      obtain ⟨i, -, rfl⟩ := List.mem_map.mp hx
      obtain hnil | ⟨hi, -⟩ | ⟨-, hw⟩ := hw.child_or_nil i.castSucc
      · rw [hnil]
        exact (by decide : (encode (.str [])).length ≤ 33)
      · exact absurd hi (Fin.castSucc_ne_last i)
      · exact length_encode_ref_le H (isNode_of_wf hw)
    have hslot : (encode (refItem H (item H (c (Fin.last 16))))).length ≤ 2 ^ 63 + 9 := by
      obtain hnil | ⟨v, hv, hval⟩ := hw.child_last
      · rw [hnil]
        exact (by decide : (encode (.str [])).length ≤ 33).trans (by norm_num)
      · rw [hval]
        exact length_encode_value_le hv
    have hlen : (encodeItems ((List.finRange 16).map (fun i =>
        refItem H (item H (c i.castSucc))) ++
        [refItem H (item H (c (Fin.last 16)))])).length ≤ 16 * 33 + (2 ^ 63 + 9) := by
      rw [encodeItems_append, List.length_append]
      refine Nat.add_le_add hsixteen ?_
      simpa [encodeItems] using hslot
    rw [enc, item_full]
    have hle := length_encode_list_le (lt_of_le_of_lt hlen (by norm_num))
    omega

/-! ## The tree behind an encoding -/

theorem hexToCompact_injective {k' : Nibbles} (hk : Terminated k ∨ term ∉ k)
    (hk' : Terminated k' ∨ term ∉ k') (h : hexToCompact k = hexToCompact k') : k = k' := by
  have hu := compactToHex_hexToCompact hk
  rw [h, compactToHex_hexToCompact hk'] at hu
  exact (Option.some.inj hu).symm

/-- Two nodes with the same element have the same encoding. -/
theorem enc_eq_of_refItem {H : HashFn} (hD : Set.InjOn H D) (ht : IsNode t)
    (ht' : IsNode t') (hm : enc H t ∈ D) (hm' : enc H t' ∈ D)
    (h : refItem H (item H t) = refItem H (item H t')) :
    enc H t = enc H t' := by
  obtain ⟨l, hl⟩ := exists_list_of_isNode H ht
  obtain ⟨l', hl'⟩ := exists_list_of_isNode H ht'
  unfold enc at hm hm' ⊢
  rw [hl] at h hm ⊢
  rw [hl'] at h hm' ⊢
  simp only [refItem] at h
  split at h
  · split at h
    · rw [h]
    · cases h
  · split at h
    · cases h
    · exact hD hm hm' (FixedBytes.ext_bytes (Item.str.inj h))

theorem refItem_ne_nil (ht : IsNode t) : refItem H (item H t) ≠ .str [] := by
  obtain ⟨l, hl⟩ := exists_list_of_isNode H ht
  rw [hl, refItem]
  split
  · simp
  · intro h
    have hlen := (H (encode (.list l))).length_eq
    rw [Item.str.inj h] at hlen
    simp at hlen

variable {H : HashFn}

theorem enc_mem_encodings (h : IsNode t) : enc H t ∈ encodings H t := by
  cases t with
  | nil => exact h.elim
  | value v => exact h.elim
  | short k t | full c => exact Set.mem_insert _ _

theorem encodings_short (k : Nibbles) (t : PTree) :
    encodings H t ⊆ encodings H (.short k t) := Set.subset_insert _ _

theorem encodings_full (c : Fin 17 → PTree) (i : Fin 17) :
    encodings H (c i) ⊆ encodings H (.full c) :=
  (Set.subset_iUnion (fun i => encodings H (c i)) i).trans (Set.subset_insert _ _)

/-- The encoding of a node is a list. -/
theorem exists_list_of_mem_encodings {e : Bytes} (h : e ∈ encodings H t) :
    ∃ l, e = encode (.list l) := by
  induction t with
  | nil => exact h.elim
  | value v => exact h.elim
  | short k t ih =>
    rcases h with rfl | h
    · exact ⟨_, rfl⟩
    · exact ih h
  | full c ih =>
    rcases h with rfl | h
    · exact ⟨_, rfl⟩
    · obtain ⟨i, hi⟩ := Set.mem_iUnion.mp h
      exact ih i hi

theorem not_terminated_of_notMem (h : term ∉ k) : ¬ Terminated k := by
  intro ht
  have h1 := hasTerm_of_terminated ht
  rw [hasTerm_of_notMem h] at h1
  cases h1

/-- A list of two elements is not one of seventeen. -/
theorem item_short_ne_full (k : Nibbles) (t : PTree) (c : Fin 17 → PTree) :
    item H (.short k t) ≠ item H (.full c) := by
  intro h
  have hlen := congrArg List.length (Item.list.inj h)
  rw [List.length_map, List.length_finRange] at hlen
  exact absurd hlen (by simp)

/-- A canonical subtree of a branch is found again from its element. -/
theorem child_eq_of_refItem (hD : Set.InjOn H D) (h : t = .nil ∨ Tree.Wf Value t)
    (h' : t' = .nil ∨ Tree.Wf Value t') (hsub : encodings H t ⊆ D) (hsub' : encodings H t' ⊆ D)
    (ih : Tree.Wf Value t → Tree.Wf Value t' → enc H t = enc H t' → t = t')
    (he : refItem H (item H t) = refItem H (item H t')) : t = t' := by
  rcases h with rfl | h
  · rcases h' with rfl | h'
    · rfl
    · exact absurd he.symm (refItem_ne_nil H (isNode_of_wf h'))
  · rcases h' with rfl | h'
    · exact absurd he (refItem_ne_nil H (isNode_of_wf h))
    · have hn := isNode_of_wf h
      have hn' := isNode_of_wf h'
      exact ih h h' (enc_eq_of_refItem hD hn hn' (hsub (enc_mem_encodings hn))
        (hsub' (enc_mem_encodings hn')) he)

/-- **The encoding determines the tree**, as long as the hash has no collision on the encodings. -/
theorem enc_injective (hD : Set.InjOn H D) (h : Tree.Wf Value t) (h' : Tree.Wf Value t')
    (hk : KeysLE t) (hk' : KeysLE t') (hsub : encodings H t ⊆ D)
    (hsub' : encodings H t' ⊆ D) (he : enc H t = enc H t') : t = t' := by
  have hitem : item H t = item H t' := encode_injective (length_enc_lt H h hk) he
  induction h generalizing t' with
  | @leaf k v hterm hv =>
    cases h' with
    | @leaf k' v' hterm' hv' =>
      simp only [item, Item.list.injEq, List.cons.injEq, Item.str.injEq, refItem, and_true] at hitem
      rw [hexToCompact_injective (.inl hterm) (.inl hterm') hitem.1, hitem.2]
    | @ext k' c' hne' hlast' hw' =>
      simp only [item, Item.list.injEq, List.cons.injEq, Item.str.injEq, and_true] at hitem
      rw [hexToCompact_injective (.inl hterm) (.inr hlast') hitem.1] at hterm
      exact absurd hterm (not_terminated_of_notMem hlast')
    | full => exact absurd hitem (item_short_ne_full _ _ _)
  | @ext k c hne hlast hw ih =>
    cases h' with
    | @leaf k' v' hterm' hv' =>
      simp only [item, Item.list.injEq, List.cons.injEq, Item.str.injEq, and_true] at hitem
      rw [← hexToCompact_injective (.inr hlast) (.inl hterm') hitem.1] at hterm'
      exact absurd hterm' (not_terminated_of_notMem hlast)
    | @ext k' c' hne' hlast' hw' =>
      have hkk : k = k' := by
        simp only [item, Item.list.injEq, List.cons.injEq, Item.str.injEq, and_true] at hitem
        exact hexToCompact_injective (.inr hlast) (.inr hlast') hitem.1
      have href : refItem H (item H (.full c)) = refItem H (item H (.full c')) := by
        rw [item.eq_3 H k, item.eq_3 H k'] at hitem
        simp only [Item.list.injEq, List.cons.injEq, and_true] at hitem
        exact hitem.2
      have hs := (encodings_short k (.full c)).trans hsub
      have hs' := (encodings_short k' (.full c')).trans hsub'
      rw [hkk, child_eq_of_refItem hD (.inr hw) (.inr hw') hs hs' ?_ href]
      intro _ h' he
      exact ih h' hk.of_short hk'.of_short hs hs' he
        (encode_injective (length_enc_lt H hw hk.of_short) he)
    | full => exact absurd hitem (item_short_ne_full _ _ _)
  | @full c htwo hc hlast ih =>
    cases h' with
    | leaf | ext => exact absurd hitem.symm (item_short_ne_full _ _ _)
    | @full c' htwo' hc' hlast' =>
      have hw : Tree.Wf Value (.full c) := .full htwo hc hlast
      have hw' : Tree.Wf Value (.full c') := .full htwo' hc' hlast'
      have href : ∀ i, refItem H (item H (c i)) = refItem H (item H (c' i)) := by
        simp only [item, Item.list.injEq] at hitem
        exact fun i => List.map_inj_left.mp hitem i (List.mem_finRange i)
      refine congrArg Tree.full (funext fun i => ?_)
      have hs := (encodings_full c i).trans hsub
      have hs' := (encodings_full c' i).trans hsub'
      by_cases hi : i = Fin.last 16
      · subst hi
        have hr := href (Fin.last 16)
        obtain hnil | ⟨v, hv, hval⟩ := hw.child_last
        all_goals
          obtain hnil' | ⟨v', hv', hval'⟩ := hw'.child_last
        · rw [hnil, hnil']
        · rw [hnil, hval'] at hr
          exact absurd (Item.str.inj hr).symm hv'.1
        · rw [hval, hnil'] at hr
          exact absurd (Item.str.inj hr) hv.1
        · rw [hval, hval'] at hr ⊢
          rw [Item.str.inj hr]
      · refine child_eq_of_refItem hD (hw.child hi) (hw'.child hi) hs hs' ?_ (href i)
        intro hci hci' he
        exact ih i hi hci.ne_nil hci' (hk.of_full i) (hk'.of_full i) hs hs' he
          (encode_injective (length_enc_lt H hci (hk.of_full i)) he)

theorem rootHash_of_wf (h : Tree.Wf Value t) : rootHash H t = H (enc H t) := by
  cases h <;> rfl

/-- **The root determines the tree**, as long as the hash has no collision on the encodings and none
of them hashes to the root of the empty tree. -/
theorem rootHash_injective (hD : Set.InjOn H D) (h : Tree.Canonical Value t)
    (h' : Tree.Canonical Value t') (hk : KeysLE t) (hk' : KeysLE t') (hsub : encodings H t ⊆ D)
    (hsub' : encodings H t' ⊆ D) (hempty : ∀ e ∈ encodings H t ∪ encodings H t', H e ≠ emptyRoot)
    (hroot : rootHash H t = rootHash H t') : t = t' := by
  rcases h with rfl | hw
  · rcases h' with rfl | hw'
    · rfl
    · rw [rootHash_of_wf hw'] at hroot
      exact absurd hroot.symm (hempty _ (.inr (enc_mem_encodings (isNode_of_wf hw'))))
  · have hmem : enc H t ∈ encodings H t := enc_mem_encodings (isNode_of_wf hw)
    rcases h' with rfl | hw'
    · rw [rootHash_of_wf hw] at hroot
      exact absurd hroot (hempty _ (.inl hmem))
    · rw [rootHash_of_wf hw, rootHash_of_wf hw'] at hroot
      exact enc_injective hD hw hw' hk hk' hsub hsub'
        (hD (hsub hmem) (hsub' (enc_mem_encodings (isNode_of_wf hw'))) hroot)

end Gocoin.Trie
