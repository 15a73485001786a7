import Gocoin.Trie.Simulation

/-!
# Trie/Store — committing writes the tree

Committing a node for a tree gives the hash of the tree, whatever has been loaded or hashed before;
the writes are encodings of subtrees under their hashes; and over every database that keeps what the
old one had and has the writes, the node that is kept stands for the same tree and everything below
it is held.
-/

namespace Gocoin.Trie

open Patricia Rlp

variable {H : HashFn} {get : Nodes} {gen lim : UInt16}

section Defs

variable (H)

/-- What hashing makes of a tree: its hash, or the tree itself when it is small and not a root. -/
def collapsedOf (top : Bool) (t : PTree) : Collapsed :=
  if (enc H t).length < 32 ∧ top = false then .node (item H t)
  else .hash (H (enc H t))

/-- The write that belongs to a tree itself. -/
def writeOf (top : Bool) (t : PTree) : List NodeWrite :=
  if (enc H t).length < 32 ∧ top = false then []
  else [(H (enc H t), enc H t)]

/-- The result of a walk at a short node, given that of its subtree. -/
def shortHashed (commit top : Bool) (k : Nibbles) (t : PTree) (fl : NodeFlag) (r : Hashed) :
    Hashed where
  collapsed := collapsedOf H top (.short k t)
  cached := .short k r.cached (settle commit fl (collapsedOf H top (.short k t)))
  writes := r.writes ++ if commit then writeOf H top (.short k t) else []

/-- …and at a full node, given those of its children. -/
def fullHashed (commit top : Bool) (c : Fin 17 → PTree) (cn : Fin 17 → Node) (fl : NodeFlag)
    (R : Fin 16 → Hashed) : Hashed where
  collapsed := collapsedOf H top (.full c)
  cached := .full (fun i => ((List.finRange 16).map fun i => (R i).cached).getD i.val (cn i))
    (settle commit fl (collapsedOf H top (.full c)))
  writes := (List.finRange 16).flatMap (fun i => (R i).writes) ++
    if commit then writeOf H top (.full c) else []

/-- The result below a node: that of a walk, or a value or nothing, which stays as it is. -/
def Below (Q : Bool → PTree → Hashed → Prop) (t : PTree) (r : Hashed) : Prop :=
  Q false t r ∨ ¬ IsNode t ∧ r.writes = [] ∧ ∀ get, Rep H get false r.cached t ∧ Held H get t

variable (get gen lim)

/-- **The cases of a walk** that collapses a tree, with what holds of its result. -/
structure Walks (commit : Bool) (Q : Bool → PTree → Hashed → Prop) : Prop where
  collapsed : ∀ {top t r}, Q top t r → r.collapsed = collapsedOf H top t
  hash : ∀ {top t h}, Rep H get top (.hash h) t → Q top t ⟨.hash h, .hash h, []⟩
  reused : ∀ {top t n fl r}, IsNode t → Rep H get top n t → FlagOk H get top fl t →
    reuse gen lim commit n fl = some r → Q top t r
  short : ∀ {top k t fl r}, FlagOk H get top fl (.short k t) → Below H Q t r →
    Q top (.short k t) (shortHashed H commit top k t fl r)
  full : ∀ {top c cn fl R}, FlagOk H get top fl (.full c) →
    (∀ i : Fin 16, Below H Q (c i.castSucc) (R i)) → ¬ IsNode (c (Fin.last 16)) →
    (∀ get', Rep H get' false (cn (Fin.last 16)) (c (Fin.last 16))) →
    Q top (.full c) (fullHashed H commit top c cn fl R)

/-- The result of committing a node for a tree. -/
structure Stored (top : Bool) (t : PTree) (r : Hashed) : Prop where
  collapsed : r.collapsed = collapsedOf H top t
  writes : ∀ w ∈ r.writes, w.1 = H w.2 ∧ w.2 ∈ encodings H t
  keeps : ∀ get', Keeps H get get' → (∀ w ∈ r.writes, get' w.1 = some w.2) →
    Rep H get' top r.cached t ∧ Held H get' t ∧ (top = true ∨ 32 ≤ (enc H t).length → InDb H get' t)

end Defs

variable {t : PTree} {r : Hashed} {c : Fin 17 → PTree} {R : Fin 16 → Hashed} {top commit : Bool}
  {fl : NodeFlag} {get' : Nodes} {n : Node} {cn : Fin 17 → Node}

theorem item_collapsedOf (h : IsNode t) : (collapsedOf H false t).item = refItem H (item H t) := by
  obtain ⟨l, hl⟩ := exists_list_of_isNode H h
  unfold collapsedOf
  simp only [enc, hl, refItem, and_true]
  split <;> rfl

/-- The list of a short node whose subtree has been collapsed. -/
theorem list_short_eq (k : Nibbles) (hnode : IsNode t)
    (hcol : r.collapsed = collapsedOf H false t) :
    Item.list [.str (hexToCompact k), r.collapsed.item] = item H (.short k t) := by
  rw [hcol, item_collapsedOf hnode]
  cases t with
  | nil | value v => exact hnode.elim
  | short k' t => rfl
  | full c => rfl

theorem list_full_eq (hitem : ∀ i, (R i).collapsed.item = refItem H (item H (c i.castSucc))) :
    Item.list ((List.finRange 16).map (fun i => (R i).collapsed.item) ++
      [refItem H (item H (c (Fin.last 16)))]) = item H (.full c) := by
  rw [item_full]
  simp only [hitem]

/-- Storing a node uses its cached hash, which is the hash of its tree. -/
theorem store_eq (commit : Bool) (hfl : FlagOk H get top fl t) :
    store H commit fl.hash (item H t) top
      = (collapsedOf H top t, if commit then writeOf H top t else []) := by
  have hh : fl.hash.getD (H (enc H t)) = H (enc H t) := by
    cases h : fl.hash with
    | none => rfl
    | some x => exact hfl.hash x h
  unfold enc at hh
  unfold store collapsedOf writeOf enc
  simp only [hh]
  cases commit <;> split <;> rfl

variable {h : Hash} {Q : Bool → PTree → Hashed → Prop}

theorem collapsed_of_flagOk (hfl : FlagOk H get top fl t) (hh : fl.hash = some h) :
    Collapsed.hash h = collapsedOf H top t := by
  have hbig := hfl.big h hh
  rw [collapsedOf, if_neg, hfl.hash h hh]
  rintro ⟨hlt, htop⟩
  have := hbig htop
  omega

/-- The flags a walk leaves are right, given what a clean node has in the database. -/
theorem flagOk_settle (fl : NodeFlag)
    (h : ¬ ((enc H t).length < 32 ∧ top = false) → commit = true ∨ fl.dirty = false →
      InDb H get' t ∧ Held H get' t) :
    FlagOk H get' top (settle commit fl (collapsedOf H top t)) t := by
  by_cases hsmall : (enc H t).length < 32 ∧ top = false
  · refine flagOk_of_none ?_ fun _ => ⟨hsmall.2, hsmall.1⟩
    rw [settle, collapsedOf, if_pos hsmall]
    rfl
  · have hhash : (settle commit fl (collapsedOf H top t)).hash
        = some (H (enc H t)) := by
      rw [settle, collapsedOf, if_neg hsmall]
      rfl
    refine ⟨fun x hx => ?_, fun x hx htop => ?_, fun _ _ hclean => h hsmall ?_, fun hn => ?_⟩
    · exact (Option.some.inj (hhash.symm.trans hx)).symm
    · by_contra hlt
      exact hsmall ⟨by omega, htop⟩
    · cases commit with
      | false => exact .inr hclean
      | true => exact .inl rfl
    · rw [hhash] at hn
      cases hn

theorem inDb_of_big (hdb : ∀ w ∈ writeOf H top t, get' w.1 = some w.2)
    (h : ¬ ((enc H t).length < 32 ∧ top = false)) : InDb H get' t := by
  refine hdb (H (enc H t), enc H t) ?_
  rw [writeOf, if_neg h]
  exact List.mem_singleton_self _

theorem inDb_of_writeOf (hdb : ∀ w ∈ writeOf H top t, get' w.1 = some w.2)
    (h : top = true ∨ 32 ≤ (enc H t).length) : InDb H get' t := by
  refine inDb_of_big hdb ?_
  rintro ⟨hlt, rfl⟩
  rcases h with h | h
  · cases h
  · omega

theorem mem_writeOf (hnode : IsNode t) {w : NodeWrite} (h : w ∈ writeOf H top t) :
    w.1 = H w.2 ∧ w.2 ∈ encodings H t := by
  unfold writeOf at h
  split at h
  · cases h
  · rw [List.mem_singleton] at h
    subst h
    exact ⟨rfl, enc_mem_encodings hnode⟩

/-- A node whose hash is cached and clean needs no walk. -/
theorem stored_of_reuse (hnode : IsNode t) (hr : Rep H get top n t)
    (hfl : FlagOk H get top fl t) (h : reuse gen lim true n fl = some r) :
    Stored H get top t r := by
  unfold reuse at h
  split at h
  · cases h
  · next x hx =>
    have hcol := collapsed_of_flagOk hfl hx
    have hbig := hfl.big x hx
    obtain rfl := hfl.hash x hx
    simp only [Bool.not_true, Bool.false_eq_true, if_false] at h
    split at h
    · next hun =>
      have hclean : fl.dirty = false := by
        simp only [NodeFlag.canUnload, Bool.and_eq_true, Bool.not_eq_true'] at hun
        exact hun.1
      obtain ⟨hdb, hheld⟩ := hfl.clean _ hx hclean
      cases h
      refine ⟨hcol, fun w hw => absurd hw List.not_mem_nil, fun get' hle _ => ?_⟩
      exact ⟨.hash hnode hbig (hle _ hdb) (hheld.mono hle), hheld.mono hle, fun _ => hle _ hdb⟩
    · split at h
      · next hclean =>
        obtain ⟨hdb, hheld⟩ := hfl.clean _ hx (by simpa using hclean)
        cases h
        refine ⟨hcol, fun w hw => absurd hw List.not_mem_nil, fun get' hle _ => ?_⟩
        exact ⟨hr.mono hle, hheld.mono hle, fun _ => hle _ hdb⟩
      · cases h

/-- What is stored below a node. -/
theorem Stored.of_below (h : Below H (Stored H get) t r) :
    (∀ w ∈ r.writes, w.1 = H w.2 ∧ w.2 ∈ encodings H t) ∧
      ∀ get', Keeps H get get' → (∀ w ∈ r.writes, get' w.1 = some w.2) →
        Rep H get' false r.cached t ∧ Held H get' t ∧ HeldRef H get' t := by
  rcases h with h | ⟨hnode, hws, hrep⟩
  · refine ⟨h.writes, fun get' hle hdb => ?_⟩
    obtain ⟨h1, h2, h3⟩ := h.keeps get' hle hdb
    exact ⟨h1, h2, fun _ hbig => h3 (.inr hbig)⟩
  · rw [hws]
    exact ⟨fun w hw => absurd hw List.not_mem_nil,
      fun get' _ _ => ⟨(hrep get').1, (hrep get').2, fun hn => absurd hn hnode⟩⟩

/-- A short node is stored behind its subtree. -/
theorem stored_short {k : Nibbles} (fl : NodeFlag) (h : Below H (Stored H get) t r) :
    Stored H get top (.short k t) (shortHashed H true top k t fl r) where
  collapsed := rfl
  writes w hw := by
    rcases List.mem_append.mp hw with hw | hw
    · have hwrite := (Stored.of_below h).1 w hw
      exact ⟨hwrite.1, encodings_short k t hwrite.2⟩
    · exact mem_writeOf (t := .short k t) trivial hw
  keeps get' hle hdb := by
    obtain ⟨hrep, hheld, href⟩ :=
      (Stored.of_below h).2 get' hle fun w hw => hdb w (List.mem_append_left _ hw)
    have hown := fun w hw => hdb w (List.mem_append_right r.writes hw)
    have hh : Held H get' (.short k t) := ⟨href, hheld⟩
    exact ⟨.short hrep (flagOk_settle fl fun hbig _ => ⟨inDb_of_big hown hbig, hh⟩), hh,
      inDb_of_writeOf hown⟩

/-- The children a walk keeps stand for the same trees. -/
theorem rep_kept (hR : ∀ i, Rep H get false (R i).cached (c i.castSucc))
    (hlast : Rep H get false (cn (Fin.last 16)) (c (Fin.last 16))) (i : Fin 17) :
    Rep H get false (((List.finRange 16).map fun i => (R i).cached).getD i.val (cn i))
      (c i) := by
  induction i using Fin.lastCases with
  | last =>
    rw [List.getD_eq_default _ _ (by simp)]
    exact hlast
  | cast i =>
    rw [List.getD_eq_getElem _ _ (by simp)]
    simpa using hR i

/-- A full node is stored behind its children. -/
theorem stored_full (fl : NodeFlag) (h : ∀ i : Fin 16, Below H (Stored H get) (c i.castSucc) (R i))
    (hslot : ¬ IsNode (c (Fin.last 16)))
    (hlast : ∀ get', Rep H get' false (cn (Fin.last 16)) (c (Fin.last 16))) :
    Stored H get top (.full c) (fullHashed H true top c cn fl R) where
  collapsed := rfl
  writes w hw := by
    rcases List.mem_append.mp hw with hw | hw
    · obtain ⟨i, -, hw⟩ := List.mem_flatMap.mp hw
      have hwrite := (Stored.of_below (h i)).1 w hw
      exact ⟨hwrite.1, encodings_full c i.castSucc hwrite.2⟩
    · exact mem_writeOf (t := .full c) trivial hw
  keeps get' hle hdb := by
    have hchild := fun i => (Stored.of_below (h i)).2 get' hle fun w hw =>
      hdb w (List.mem_append_left _ (List.mem_flatMap.mpr ⟨i, List.mem_finRange i, hw⟩))
    have hown := fun w hw => hdb w (List.mem_append_right
      ((List.finRange 16).flatMap fun i => (R i).writes) hw)
    have hheldLast : Held H get' (c (Fin.last 16)) := by
      cases h : c (Fin.last 16) with
      | nil => trivial
      | value v => trivial
      | short k t | full c' => exact absurd (by rw [h]; trivial) hslot
    have hh : Held H get' (.full c) := by
      intro i
      induction i using Fin.lastCases with
      | last => exact ⟨fun hnode => absurd hnode hslot, hheldLast⟩
      | cast i => exact ⟨(hchild i).2.2, (hchild i).2.1⟩
    exact ⟨.full (rep_kept (fun i => (hchild i).1) (hlast get'))
      (flagOk_settle fl fun hbig _ => ⟨inDb_of_big hown hbig, hh⟩), hh, inDb_of_writeOf hown⟩

theorem mapM_eq_ok {α β ε : Type} {f : α → Except ε β} {g : α → β} (h : ∀ a, f a = .ok (g a))
    (l : List α) : l.mapM f = .ok (l.map g) := by
  induction l with
  | nil => rfl
  | cons a l ih =>
    rw [List.mapM_cons, h, ih]
    rfl

/-- A node that is not loaded stays as it is. -/
theorem stored_hash (hr : Rep H get top (.hash h) t) :
    Stored H get top t ⟨.hash h, .hash h, []⟩ := by
  cases hr with
  | hash hnode hbig hdb hheld =>
    refine ⟨?_, fun w hw => absurd hw List.not_mem_nil, fun get' hle _ => ?_⟩
    · rw [collapsedOf, if_neg]
      rintro ⟨hlt, htop⟩
      have := hbig htop
      omega
    · exact ⟨.hash hnode hbig (hle _ hdb) (hheld.mono hle), hheld.mono hle, fun _ => hle _ hdb⟩

/-- The value slot of a branch: empty or a value, whatever the database has. -/
theorem slotItem_last (hw : Tree.Wf Value (.full c)) (hcn : ∀ i, Rep H get false (cn i) (c i)) :
    (cn term).slotItem = .ok (refItem H (item H (c (Fin.last 16)))) ∧
      (∀ get', Rep H get' false (cn (Fin.last 16)) (c (Fin.last 16))) ∧
      ¬ IsNode (c (Fin.last 16)) := by
  have hrep := hcn (Fin.last 16)
  obtain hnil | ⟨v, -, hval⟩ := hw.child_last
  · rw [hnil] at hrep ⊢
    rw [show cn term = .nil from hrep.eq_nil]
    exact ⟨rfl, fun _ => .nil, id⟩
  · rw [hval] at hrep ⊢
    rw [show cn term = .value v from hrep.eq_value]
    exact ⟨rfl, fun _ => .value v, id⟩

/-- The child of a branch. -/
theorem Walks.below (hQ : Walks H get gen lim commit Q) (hr : Rep H get false n t)
    (ht : Tree.Canonical Value t)
    (ih : Tree.Wf Value t → ∃ r, n.hashWith H gen lim commit false = .ok r ∧ Q false t r) :
    ∃ r : Hashed, (if n.nonNil then n.hashWith H gen lim commit false
        else .ok ⟨.node (.str []), .nil, []⟩) = .ok r ∧
      r.collapsed.item = refItem H (item H t) ∧ Below H Q t r := by
  rcases ht with rfl | hw
  · rw [hr.eq_nil]
    exact ⟨_, rfl, rfl, .inr ⟨id, rfl, fun _ => ⟨.nil, trivial⟩⟩⟩
  · obtain ⟨r, hr', hq⟩ := ih hw
    have hnn : n.nonNil = true := by
      rw [Node.nonNil_eq_of_rep hr]
      exact Tree.nonNil_iff.mpr hw.ne_nil
    exact ⟨r, by rw [if_pos hnn, hr'], by rw [hQ.collapsed hq, item_collapsedOf (isNode_of_wf hw)],
      .inl hq⟩

/-- **A walk collapses the tree** of every node, whatever has been loaded or hashed before. -/
theorem Walks.apply (hQ : Walks H get gen lim commit Q) (hw : Tree.Wf Value t)
    (hr : Rep H get top n t) :
    ∃ r, n.hashWith H gen lim commit top = .ok r ∧ Q top t r := by
  induction hw generalizing top n with
  | @leaf k v hterm hv =>
    cases hr with
    | hash hnode hbig hdb hheld => exact ⟨_, rfl, hQ.hash (.hash hnode hbig hdb hheld)⟩
    | @short _ _ val fl _ hval hfl =>
      obtain rfl := hval.eq_value
      cases hreuse : reuse gen lim commit (.short k (.value v) fl) fl with
      | some r =>
        exact ⟨r, by rw [Node.hashWith, hreuse],
          hQ.reused (t := .short k (.value v)) trivial (.short hval hfl) hfl hreuse⟩
      | none =>
        refine ⟨_, ?_, hQ.short (r := ⟨.node (.str v), .value v, []⟩) hfl
          (.inr ⟨id, rfl, fun _ => ⟨.value v, trivial⟩⟩)⟩
        rw [Node.hashWith, hreuse]
        show Except.ok _ = _
        rw [show Item.list [.str (hexToCompact k), Collapsed.item (.node (.str v))]
          = item H (.short k (.value v)) from rfl, store_eq commit hfl]
        rfl
  | @ext k c hne hlast hw ih =>
    cases hr with
    | hash hnode hbig hdb hheld => exact ⟨_, rfl, hQ.hash (.hash hnode hbig hdb hheld)⟩
    | @short _ _ val fl _ hval hfl =>
      cases hreuse : reuse gen lim commit (.short k val fl) fl with
      | some r =>
        exact ⟨r, by rw [Node.hashWith, hreuse],
          hQ.reused (t := .short k (.full c)) trivial (.short hval hfl) hfl hreuse⟩
      | none =>
        obtain ⟨r, hr, hq⟩ := ih hval
        refine ⟨_, ?_, hQ.short hfl (.inl hq)⟩
        have hitem := list_short_eq k (t := .full c) trivial (hQ.collapsed hq)
        rw [Node.hashWith, hreuse]
        cases hval with
        | full hc hfl' | hash hnode hbig hdb hheld =>
          simp only [hr]
          show Except.ok _ = _
          rw [hitem, store_eq commit hfl]
          rfl
  | @full c htwo hc hlast ih =>
    have hw : Tree.Wf Value (.full c) := .full htwo hc hlast
    cases hr with
    | hash hnode hbig hdb hheld => exact ⟨_, rfl, hQ.hash (.hash hnode hbig hdb hheld)⟩
    | @full _ cn fl _ hcn hfl =>
      cases hreuse : reuse gen lim commit (.full cn fl) fl with
      | some r =>
        exact ⟨r, by rw [Node.hashWith, hreuse],
          hQ.reused (t := .full c) trivial (.full hcn hfl) hfl hreuse⟩
      | none =>
        have hchild := fun i : Fin 16 => hQ.below (hcn i.castSucc)
          (hw.child (Fin.castSucc_ne_last i)) fun hwi =>
            ih i.castSucc (Fin.castSucc_ne_last i) hwi.ne_nil (hcn i.castSucc)
        choose R hR hitem hbelow using hchild
        obtain ⟨hslot, hlast', hnode⟩ := slotItem_last hw hcn
        refine ⟨_, ?_, hQ.full hfl hbelow hnode hlast'⟩
        rw [Node.hashWith, hreuse]
        simp only [mapM_eq_ok hR, hslot]
        show Except.ok _ = _
        simp only [List.map_map, List.flatMap_map, Function.comp_def, list_full_eq hitem,
          store_eq commit hfl]
        rfl

/-- **Committing a node writes its tree.** -/
theorem walks_stored : Walks H get gen lim true (Stored H get) where
  collapsed h := h.collapsed
  hash := stored_hash
  reused := stored_of_reuse
  short _ h := stored_short _ h
  full _ h hslot hlast := stored_full _ h hslot hlast

end Gocoin.Trie
