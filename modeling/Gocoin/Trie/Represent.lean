import Mathlib.Data.List.GetD
import Gocoin.Trie.Merkle

/-!
# Trie/Represent — the tree a node in memory stands for

A node in memory shows only the loaded part of a tree, with hashes where it has not been loaded and
cached hashes where it has been hashed.  `Rep` says that a node stands for a tree over a database:
what is named by a hash is in the database, and so is everything below a node that is clean.  The
root may carry a hash whatever its size (`top`); every other node carries one only when its encoding
is at least as long as a hash, and one that is clean without a hash is a small one below the root.
A stored node is read back as a node for the same tree (`exists_resolveHash`).
-/

namespace Gocoin.Trie

open Patricia Rlp

section Defs

variable (H : HashFn) (get : Nodes)

/-- The database has the encoding of a tree under its hash. -/
def InDb (t : PTree) : Prop := get (H (enc H t)) = some (enc H t)

/-- The database has a tree that its parent names by a hash. -/
def HeldRef (t : PTree) : Prop := IsNode t → 32 ≤ (enc H t).length → InDb H get t

/-- The database holds everything below a tree that is named by a hash. -/
def Held : PTree → Prop
  | .nil => True
  | .value _ => True
  | .short _ t => HeldRef H get t ∧ Held t
  | .full c => ∀ i, HeldRef H get (c i) ∧ Held (c i)

/-- The flags of a node are right about its tree. -/
structure FlagOk (top : Bool) (fl : NodeFlag) (t : PTree) : Prop where
  hash : ∀ h, fl.hash = some h → h = H (enc H t)
  big : ∀ h, fl.hash = some h → top = false → 32 ≤ (enc H t).length
  clean : ∀ h, fl.hash = some h → fl.dirty = false → InDb H get t ∧ Held H get t
  small : fl.hash = none → fl.dirty = false → top = false ∧ (enc H t).length < 32

/-- A node in memory stands for a tree. -/
inductive Rep : Bool → Node → PTree → Prop
  | nil {top : Bool} : Rep top .nil .nil
  | value {top : Bool} (v : Bytes) : Rep top (.value v) (.value v)
  | short {top : Bool} {k : Nibbles} {n : Node} {fl : NodeFlag} {t : PTree} (hn : Rep false n t)
      (hfl : FlagOk H get top fl (.short k t)) : Rep top (.short k n fl) (.short k t)
  | full {top : Bool} {c : Fin 17 → Node} {fl : NodeFlag} {c' : Fin 17 → PTree}
      (hc : ∀ i, Rep false (c i) (c' i)) (hfl : FlagOk H get top fl (.full c')) :
      Rep top (.full c fl) (.full c')
  | hash {top : Bool} {t : PTree} (hnode : IsNode t)
      (hbig : top = false → 32 ≤ (enc H t).length) (hdb : InDb H get t)
      (hheld : Held H get t) : Rep top (.hash (H (enc H t))) t

/-- The node is not a mere hash. -/
def Loaded : Node → Prop
  | .hash _ => False
  | _ => True

/-- What a database has under its own hash, another one has too. -/
def Keeps (get' : Nodes) : Prop := ∀ e, get (H e) = some e → get' (H e) = some e

/-- …as far as some strings are concerned. -/
def KeepsOn (S : Set Bytes) (get' : Nodes) : Prop :=
  ∀ e ∈ S, get (H e) = some e → get' (H e) = some e

end Defs

variable {H : HashFn} {get get' : Nodes}

/-! ## Flags -/

variable {top : Bool} {fl : NodeFlag} {t : PTree} {n : Node} {decode : Bytes → Option Node}
  {c : Fin 17 → PTree}

/-- Flags without a hash are those of a node that has changed or is small. -/
theorem flagOk_of_none (h : fl.hash = none)
    (hsmall : fl.dirty = false → top = false ∧ (enc H t).length < 32) :
    FlagOk H get top fl t where
  hash := fun _ h' => by rw [h] at h'; cases h'
  big := fun _ h' => by rw [h] at h'; cases h'
  clean := fun _ h' => by rw [h] at h'; cases h'
  small := fun _ => hsmall

theorem flagOk_newFlag (top : Bool) (gen : UInt16) (t : PTree) :
    FlagOk H get top (newFlag gen) t := flagOk_of_none rfl fun h => Bool.noConfusion h

theorem FlagOk.gen (h : FlagOk H get top fl t) (gen : UInt16) :
    FlagOk H get top { fl with gen } t := ⟨h.hash, h.big, h.clean, h.small⟩

theorem Rep.eq_nil (h : Rep H get top n .nil) : n = .nil := by
  cases h with
  | nil => rfl
  | hash hnode => exact hnode.elim

variable {v : Bytes} {xs l : List Item} {fuel : ℕ} {flag : NodeFlag} {k : Nibbles}

theorem Rep.eq_value (h : Rep H get top n (.value v)) : n = .value v := by
  cases h with
  | value => rfl
  | hash hnode => exact hnode.elim

/-! ## Larger databases -/

theorem Keeps.on (h : Keeps H get get') (S : Set Bytes) : KeepsOn H get S get' := fun e _ => h e

theorem KeepsOn.mono {S S' : Set Bytes} (h : KeepsOn H get S get') (hsub : S' ⊆ S) :
    KeepsOn H get S' get' := fun e he => h e (hsub he)

theorem HeldRef.monoOn (hle : KeepsOn H get (encodings H t) get')
    (h : HeldRef H get t) : HeldRef H get' t :=
  fun hn hb => hle _ (enc_mem_encodings hn) (h hn hb)

theorem Held.monoOn (hle : KeepsOn H get (encodings H t) get') (h : Held H get t) :
    Held H get' t := by
  induction t with
  | nil => trivial
  | value v => trivial
  | short k t ih =>
    replace hle := hle.mono (encodings_short k t)
    exact ⟨h.1.monoOn hle, ih hle h.2⟩
  | full c ih =>
    intro i
    have hle := hle.mono (encodings_full c i)
    exact ⟨(h i).1.monoOn hle, ih i hle (h i).2⟩

theorem FlagOk.monoOn (hn : IsNode t) (hle : KeepsOn H get (encodings H t) get')
    (h : FlagOk H get top fl t) :
    FlagOk H get' top fl t where
  hash := h.hash
  big := h.big
  clean := fun x hx hd =>
    ⟨hle _ (enc_mem_encodings hn) (h.clean x hx hd).1, (h.clean x hx hd).2.monoOn hle⟩
  small := h.small

/-- **A node stands for the same tree** over a database that keeps the nodes of the tree. -/
theorem Rep.monoOn (hle : KeepsOn H get (encodings H t) get') (h : Rep H get top n t) :
    Rep H get' top n t := by
  induction h with
  | nil => exact .nil
  | value v => exact .value v
  | @short _ k _ _ t _ hfl ih =>
    exact .short (ih (hle.mono (encodings_short k t))) (hfl.monoOn trivial hle)
  | @full _ _ _ c _ hfl ih =>
    exact .full (fun i => ih i (hle.mono (encodings_full c i))) (hfl.monoOn trivial hle)
  | hash hnode hbig hdb hheld =>
    exact .hash hnode hbig (hle _ (enc_mem_encodings hnode) hdb) (hheld.monoOn hle)

theorem Held.mono (hle : Keeps H get get') (h : Held H get t) : Held H get' t := h.monoOn (hle.on _)

theorem Rep.mono (hle : Keeps H get get') (h : Rep H get top n t) :
    Rep H get' top n t := h.monoOn (hle.on _)

/-! ## Reading a stored node -/

theorem countFrom_encodeItems (hsize : (encodeItems xs).length < 2 ^ 64)
    (hfuel : (encodeItems xs).length ≤ fuel) :
    countFrom fuel (encodeItems xs) = some xs.length := by
  induction xs generalizing fuel with
  | nil => cases fuel <;> rfl
  | cons x xs ih =>
    have hpos := length_encode_pos x
    have hlen : (encodeItems (x :: xs)).length = (encode x).length + (encodeItems xs).length := by
      rw [encodeItems, List.length_append]
    obtain ⟨fuel, rfl⟩ : ∃ f, fuel = f + 1 := ⟨fuel - 1, by omega⟩
    obtain ⟨k, tag, size, hread, hts⟩ :=
      exists_readKind_encode (x := x) (by omega) (encodeItems xs)
    obtain ⟨b, bs, hb⟩ := List.exists_cons_of_ne_nil
      (show encode x ++ encodeItems xs ≠ [] from
        List.append_ne_nil_of_left_ne_nil (List.length_pos_iff.mp hpos) _)
    rw [encodeItems, hb, countFrom, ← hb, hread]
    simp only [hts, List.drop_left]
    rw [ih (by omega) (by omega)]
    rfl

theorem countValues_encodeItems (hsize : (encodeItems xs).length < 2 ^ 64) :
    countValues (encodeItems xs) = some xs.length := countFrom_encodeItems hsize le_rfl

/-- Reading the element of a subtree gives a node for it. -/
theorem exists_decodeRef (decode : Bytes → Option Node) (ht : Tree.Canonical Value t)
    (href : HeldRef H get t) (hheld : Held H get t)
    (hdec : IsNode t → (enc H t).length < 32 → ∀ rest,
      ∃ n, decode (enc H t ++ rest) = some n ∧ Rep H get false n t) (rest : Bytes) :
    ∃ n, decodeRef decode (encode (refItem H (item H t)) ++ rest) = some (n, rest) ∧
      Rep H get false n t := by
  rcases ht with rfl | ht
  · refine ⟨.nil, ?_, .nil⟩
    have hsplit : split (encode (refItem H (item H .nil)) ++ rest)
        = some (.string, [], rest) := split_encodeString (b := []) (by decide) rest
    rw [decodeRef, hsplit]
    rfl
  · have hnode := isNode_of_wf ht
    obtain ⟨l, hl⟩ := exists_list_of_isNode H hnode
    have henc : enc H t = encode (.list l) := by rw [enc, hl]
    rw [hl, refItem]
    split
    · next hsmall =>
      rw [← henc] at hsmall
      obtain ⟨n, hn, hrep⟩ := hdec hnode hsmall rest
      refine ⟨n, ?_, hrep⟩
      rw [henc] at hsmall hn
      rw [decodeRef, split_encode_list (by omega) rest]
      simp only [List.length_append]
      rw [if_neg (by omega), hn]
      rfl
    · next hbig =>
      rw [← henc] at hbig ⊢
      refine ⟨.hash (H (enc H t)), ?_,
        .hash hnode (fun _ => by omega) (href hnode (by omega)) hheld⟩
      have hlen := (H (enc H t)).length_eq
      have hkind : strKind (H (enc H t)).bytes = .string := by
        unfold strKind
        split
        · next x hx =>
          rw [hx] at hlen
          exact absurd hlen (by simp)
        · rfl
      have hsplit := split_encodeString (b := (H (enc H t)).bytes)
        (by rw [encodeString_hash]; norm_num) rest
      rw [encode, decodeRef, hsplit, hkind]
      simp [hlen]

theorem exists_decodeRefs (hread : ∀ (i : Fin 16) (rest : Bytes), ∃ n,
      decodeRef decode (encode (refItem H (item H (c i.castSucc))) ++ rest)
        = some (n, rest) ∧ Rep H get false n (c i.castSucc)) (is : List (Fin 16)) (rest : Bytes) :
    ∃ ns, decodeRefs decode is.length
        (encodeItems (is.map fun i => refItem H (item H (c i.castSucc))) ++ rest)
        = some (ns, rest) ∧
      List.Forall₂ (fun n i => Rep H get false n (c (Fin.castSucc i))) ns is := by
  induction is with
  | nil => exact ⟨[], rfl, .nil⟩
  | cons i is ih =>
    obtain ⟨ns, hns, hall⟩ := ih
    obtain ⟨n, hn, hrep⟩ := hread i
      (encodeItems (is.map fun i => refItem H (item H (c i.castSucc))) ++ rest)
    refine ⟨n :: ns, ?_, .cons hrep hall⟩
    rw [List.map_cons, encodeItems, List.append_assoc, List.length_cons, decodeRefs, hn]
    simp only [hns, Option.map_some]

/-- The children a branch is read with stand for the children of the tree. -/
theorem rep_children {ns : List Node} {last : Node}
    (hall : List.Forall₂ (fun n i => Rep H get false n (c (Fin.castSucc i))) ns
      (List.finRange 16)) (hlast : Rep H get false last (c (Fin.last 16))) (i : Fin 17) :
    Rep H get false ((ns ++ [last]).getD i.val .nil) (c i) := by
  have hlen : ns.length = 16 := by rw [hall.length_eq, List.length_finRange]
  induction i using Fin.lastCases with
  | last =>
    rw [List.getD_append_right _ _ _ _ (by rw [hlen]; exact le_rfl), hlen]
    exact hlast
  | cast i =>
    have hi : i.val < ns.length := by rw [hlen]; exact i.isLt
    rw [Fin.val_castSucc, List.getD_append _ _ _ _ hi, List.getD_eq_getElem _ _ hi]
    have hget := hall.get hi (by rw [List.length_finRange]; exact i.isLt)
    simpa using hget

/-- The start of `decodeNode`: the elements of the list are counted. -/
theorem decodeNodeAux_enc (gen : UInt16) (hsize : (encode (.list l)).length < 2 ^ 64) (fuel : ℕ)
    (ho : Option Hash) (rest : Bytes) :
    decodeNodeAux gen (fuel + 1) ho (encode (.list l) ++ rest) =
      match l.length with
      | 2 => decodeShort (decodeNodeAux gen fuel none) ⟨ho, gen, false⟩ (encodeItems l)
      | 17 => decodeFull (decodeNodeAux gen fuel none) ⟨ho, gen, false⟩ (encodeItems l)
      | _ => none := by
  have hpayload := length_encode_list l
  have hne : (encode (.list l) ++ rest).length ≠ 0 := by
    rw [List.length_append]
    omega
  rw [decodeNodeAux, if_neg hne, splitList_encode hsize rest]
  simp only [countValues_encodeItems (lt_trans hpayload hsize)]
  split
  · next h2 =>
    rw [Option.some.injEq] at h2
    rw [h2]
    rfl
  · next h17 =>
    rw [Option.some.injEq] at h17
    rw [h17]
    rfl
  · next h2 h17 =>
    split
    · next h => exact absurd (congrArg some h) h2
    · next h => exact absurd (congrArg some h) h17
    · rfl

/-- A short node with a value is read back. -/
theorem decodeShort_leaf (hterm : Terminated k)
    (hsize : (encodeItems [.str (hexToCompact k), .str v]).length < 2 ^ 64) :
    decodeShort decode flag (encodeItems [.str (hexToCompact k), .str v])
      = some (.short k (.value v) flag) := by
  have hlen : (encodeItems [.str (hexToCompact k), .str v]).length
      = (encodeString (hexToCompact k)).length + (encodeString v).length := by
    simp [encodeItems, encode]
  have hkey := splitString_encode (b := hexToCompact k) (by omega) (encodeItems [.str v])
  have hval := splitString_encode (b := v) (by omega) []
  rw [encodeItems, decodeShort, hkey]
  simp only [compactToHex_hexToCompact (.inl hterm), hasTerm_of_terminated hterm, if_true]
  rw [encodeItems, encodeItems, hval]
  rfl

/-- A short node with a subtree is read back. -/
theorem decodeShort_ext {x : Item} (hlast : term ∉ k)
    (hsize : (encodeItems [.str (hexToCompact k), x]).length < 2 ^ 64)
    (hread : decodeRef decode (encode x ++ []) = some (n, [])) :
    decodeShort decode flag (encodeItems [.str (hexToCompact k), x]) = some (.short k n flag) := by
  have hlen : (encodeItems [.str (hexToCompact k), x]).length
      = (encodeString (hexToCompact k)).length + (encode x).length := by
    simp [encodeItems, encode]
  have hkey := splitString_encode (b := hexToCompact k) (by omega) (encodeItems [x])
  rw [encodeItems, decodeShort, hkey]
  simp only [compactToHex_hexToCompact (.inr hlast), hasTerm_of_notMem hlast]
  rw [if_neg (by simp), encodeItems, encodeItems, hread]
  rfl

/-- A branch is read back. -/
theorem exists_decodeFull (decode : Bytes → Option Node) (flag : NodeFlag)
    (hw : Tree.Wf Value (.full c)) (hread : ∀ (i : Fin 16) (rest : Bytes), ∃ n,
      decodeRef decode (encode (refItem H (item H (c i.castSucc))) ++ rest)
        = some (n, rest) ∧ Rep H get false n (c i.castSucc)) :
    ∃ c', decodeFull decode flag (encodeItems ((List.finRange 16).map
        (fun i => refItem H (item H (c i.castSucc))) ++
          [refItem H (item H (c (Fin.last 16)))])) = some (.full c' flag) ∧
      ∀ i, Rep H get false (c' i) (c i) := by
  obtain ⟨v, hslot, hsize, hrep⟩ : ∃ v, refItem H (item H (c (Fin.last 16))) = .str v ∧
      (encodeString v).length < 2 ^ 64 ∧
      Rep H get false (if v.length > 0 then .value v else .nil) (c (Fin.last 16)) := by
    obtain hnil | ⟨v, hv, hval⟩ := hw.child_last
    · rw [hnil]
      exact ⟨[], rfl, by decide, .nil⟩
    · rw [hval]
      refine ⟨v, rfl, ?_, ?_⟩
      · exact lt_of_le_of_lt (length_encode_value_le hv) (by norm_num)
      · rw [if_pos (List.length_pos_iff.mpr hv.1)]
        exact .value v
  obtain ⟨ns, hns, hall⟩ := exists_decodeRefs hread (List.finRange 16)
    (encodeItems [refItem H (item H (c (Fin.last 16)))])
  rw [List.length_finRange, hslot] at hns
  refine ⟨fun i => (ns ++ [if v.length > 0 then Node.value v else .nil]).getD i.val .nil, ?_,
    rep_children hall hrep⟩
  rw [encodeItems_append, hslot, decodeFull, hns]
  simp only [encodeItems, splitString_encode hsize, Option.map_some]

/-- A small subtree is its own element. -/
theorem refItem_of_small (hnode : IsNode t) (h : (enc H t).length < 32) :
    refItem H (item H t) = item H t := by
  obtain ⟨l, hl⟩ := exists_list_of_isNode H hnode
  rw [enc, hl] at h
  rw [hl, refItem, if_pos h]

theorem length_enc_lt_of_mem (hnode : IsNode t) (h : (enc H t).length < 32)
    (hmem : refItem H (item H t) ∈ l) :
    (enc H t).length < (encode (.list l)).length := by
  rw [refItem_of_small hnode h] at hmem
  exact lt_of_le_of_lt (length_encode_le_of_mem hmem) (length_encode_list l)

/-- **A stored node is read back**, whatever follows it, as a node for its tree when it is read with
the flags of one. -/
theorem exists_decodeNodeAux (gen : UInt16) (h : Tree.Wf Value t) (hk : KeysLE t)
    (hheld : Held H get t) (ho : Option Hash) (hfuel : (enc H t).length < fuel) (rest : Bytes) :
    ∃ n, decodeNodeAux gen fuel ho (enc H t ++ rest) = some n ∧
      ∀ top, FlagOk H get top ⟨ho, gen, false⟩ t → Rep H get top n t := by
  induction h generalizing ho fuel rest with
  | @leaf k v hterm hv =>
    have hsize := length_enc_lt H (.leaf hterm hv) hk
    obtain ⟨fuel, rfl⟩ : ∃ f, fuel = f + 1 := ⟨fuel - 1, by omega⟩
    refine ⟨.short k (.value v) ⟨ho, gen, false⟩, ?_, fun _ hfl => .short (.value v) hfl⟩
    exact (decodeNodeAux_enc gen hsize fuel ho rest).trans
      (decodeShort_leaf hterm (lt_trans (length_encode_list _) hsize))
  | @ext k c hne hlast hw ih =>
    have hsize := length_enc_lt H (.ext hne hlast hw) hk
    obtain ⟨fuel, rfl⟩ : ∃ f, fuel = f + 1 := ⟨fuel - 1, by omega⟩
    obtain ⟨n, hn, hrep⟩ := exists_decodeRef (decodeNodeAux gen fuel none) (.inr hw)
      hheld.1 hheld.2 (fun hnode hsmall rest => by
        have hlt := length_enc_lt_of_mem hnode hsmall (l := [.str (hexToCompact k),
          refItem H (item H (.full c))]) (by simp)
        obtain ⟨n, hn, hrep⟩ := ih hk.of_short hheld.2 none
          (lt_of_lt_of_le hlt (Nat.lt_succ_iff.mp hfuel)) rest
        exact ⟨n, hn, hrep false (flagOk_of_none rfl fun _ => ⟨rfl, hsmall⟩)⟩) []
    refine ⟨.short k n ⟨ho, gen, false⟩, ?_, fun _ hfl => .short hrep hfl⟩
    exact (decodeNodeAux_enc gen hsize fuel ho rest).trans
      (decodeShort_ext hlast (lt_trans (length_encode_list _) hsize) hn)
  | @full c htwo hc hlast ih =>
    have hw : Tree.Wf Value (.full c) := .full htwo hc hlast
    have hsize := length_enc_lt H hw hk
    obtain ⟨fuel, rfl⟩ : ∃ f, fuel = f + 1 := ⟨fuel - 1, by omega⟩
    rw [enc, item_full] at hsize hfuel ⊢
    obtain ⟨c', hc', hrep⟩ := exists_decodeFull (decodeNodeAux gen fuel none)
      ⟨ho, gen, false⟩ hw (fun i rest => by
        refine exists_decodeRef _ (hw.child (Fin.castSucc_ne_last i)) (hheld i.castSucc).1
          (hheld i.castSucc).2 (fun hnode hsmall rest => ?_) rest
        have hlt := length_enc_lt_of_mem hnode hsmall (l := (List.finRange 16).map
          (fun i => refItem H (item H (c i.castSucc))) ++
            [refItem H (item H (c (Fin.last 16)))]) (by simp)
        have hnil : c i.castSucc ≠ .nil := fun h => by rw [h] at hnode; exact hnode
        obtain ⟨n, hn, hrep⟩ := ih i.castSucc (Fin.castSucc_ne_last i) hnil
          (hk.of_full i.castSucc) (hheld i.castSucc).2 none
          (lt_of_lt_of_le hlt (Nat.lt_succ_iff.mp hfuel)) rest
        exact ⟨n, hn, hrep false (flagOk_of_none rfl fun _ => ⟨rfl, hsmall⟩)⟩)
    refine ⟨.full c' ⟨ho, gen, false⟩, ?_, fun _ hfl => .full hrep hfl⟩
    rw [decodeNodeAux_enc gen hsize fuel ho rest]
    simpa using hc'

/-- Every node of a tree that is held can be read. -/
theorem decodeNode_ne_none (hw : Tree.Wf Value t) (hk : KeysLE t) (hheld : Held H get t)
    {e : Bytes} (he : e ∈ encodings H t) :
    decodeNode none e 0 ≠ none := by
  have hroot : ∀ {t : PTree}, Tree.Wf Value t → KeysLE t → Held H get t →
      decodeNode none (enc H t) 0 ≠ none := fun {t} hw hk hheld => by
    obtain ⟨n, hn, -⟩ := exists_decodeNodeAux 0 hw hk hheld none (Nat.lt_succ_self _) []
    rw [List.append_nil] at hn
    rw [decodeNode, hn]
    exact nofun
  induction hw with
  | leaf hterm hv =>
    rcases he with rfl | he
    · exact hroot (.leaf hterm hv) hk hheld
    · exact he.elim
  | @ext k c hne hlast hw ih =>
    rcases he with rfl | he
    · exact hroot (.ext hne hlast hw) hk hheld
    · exact ih hk.of_short hheld.2 he
  | @full c htwo hc hlast ih =>
    rcases he with rfl | he
    · exact hroot (.full htwo hc hlast) hk hheld
    · obtain ⟨i, he⟩ := Set.mem_iUnion.mp he
      have hnil : c i ≠ .nil := fun h => by
        rw [h] at he
        exact he
      by_cases hi : i = Fin.last 16
      · subst hi
        obtain ⟨v, -, hv⟩ := hlast hnil
        rw [hv] at he
        exact he.elim
      · exact ih i hi hnil (hk.of_full i) (hheld i).2 he

/-- **Loading a node**: what a hash in memory names is found and stands for the same tree. -/
theorem exists_resolveHash (gen : UInt16) {h : Hash} (hw : Tree.Wf Value t) (hk : KeysLE t)
    (hr : Rep H get top (.hash h) t) :
    ∃ n, Node.resolveHash get gen h = .ok n ∧ Rep H get top n t ∧ Loaded n := by
  cases hr with
  | hash hnode hbig hdb hheld =>
    have hfl : FlagOk H get top ⟨some (H (enc H t)), gen, false⟩ t :=
      ⟨fun _ h => (Option.some.inj h).symm, fun _ _ => hbig, fun _ _ _ => ⟨hdb, hheld⟩,
        fun h => by cases h⟩
    obtain ⟨n, hn, hrep⟩ := exists_decodeNodeAux gen hw hk hheld (some (H (enc H t)))
      (Nat.lt_succ_self (enc H t).length) []
    rw [List.append_nil] at hn
    refine ⟨n, ?_, hrep top hfl, ?_⟩
    · unfold Node.resolveHash
      rw [hdb]
      simp only [decodeNode, hn]
    · obtain ⟨_, _, rfl⟩ | ⟨_, rfl⟩ := flags_of_decodeNode hn
      · trivial
      · trivial

end Gocoin.Trie
