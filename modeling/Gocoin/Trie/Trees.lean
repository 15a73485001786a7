import Gocoin.Trie.Rehash

/-!
# Trie/Trees — the calls on a trie, and the tree it stands for

A trie in memory stands for a tree.  Every call on it succeeds over a database that has what is not
loaded, whatever the key: `TryGet` reads the tree, `TryUpdate` and `TryDelete` are the insertion and
the deletion of the tree, `CommitTo` gives its root and writes what is missing, and `New` opens a
tree that is stored (`TreeAt`) at its root.
-/

namespace Gocoin.Trie

open Patricia

variable {H : HashFn} {get get' : Nodes} {t : Trie} {tree : PTree}

/-- The recursion has room for two calls at each letter of the path. -/
theorem depth_path (key : Bytes) : 2 * (keybytesToHex key).length + 1 + 1 ≤ maxDepth key := by
  rw [length_keybytesToHex, maxDepth]
  omega

/-! ## Reading and changing -/

section Calls

variable (hc : Tree.Canonical Value tree) (hk : KeysLE tree) (hr : Rep H get true t.root tree)

include hc hk hr

/-- An operation that goes down the tree has its result on the root. -/
theorem Rep.descend {Q : PTree → Nibbles → ℕ → Bool → Node → Prop}
    (hQ : Node.Descends H get t.cachegen Q) (key : Bytes) :
    Q tree (keybytesToHex key) (maxDepth key) true t.root := by
  have hterm := terminated_keybytesToHex key
  refine hQ.of_loaded (fun hnode => ⟨hc.resolve_left fun h => ?_, hterm.ne_nil⟩) hk
    (fun hd hl hr => hQ.apply (hc.way hterm) hk hd hl hr) (depth_path key) hr
  rw [h] at hnode
  exact hnode.elim

/-- **`TryGet` reads the tree.** -/
theorem Rep.exists_tryGet (key : Bytes) :
    ∃ t', t.tryGet get key = .ok ((tree.get (keybytesToHex key)).getD [], t') ∧
      Rep H get true t'.root tree := by
  obtain ⟨n', r, hget, hr'⟩ := hr.descend hc hk (Node.descends_tryGet t.cachegen) key
  refine ⟨if r then { t with root := n' } else t, ?_, ?_⟩
  · unfold Trie.tryGet
    rw [hget]
    rfl
  · cases r with
    | false => exact hr
    | true => exact hr'

/-- **`TryUpdate` inserts into the tree.** -/
theorem Rep.exists_tryUpdate (key : Bytes) {v : Bytes} (hv : Value v) :
    ∃ t', t.tryUpdate get key v = .ok t' ∧
      Rep H get true t'.root (tree.insert v (keybytesToHex key)) := by
  have hterm := terminated_keybytesToHex key
  obtain ⟨d, n', hins, htrue, hfalse⟩ :=
    hr.descend hc hk (Node.descends_insert t.cachegen v) key
  refine ⟨{ t with root := n' }, ?_, ?_⟩
  · unfold Trie.tryUpdate
    rw [hins, if_pos (Nat.pos_iff_ne_zero.mp (List.length_pos_iff.mpr hv.1))]
    rfl
  · cases d with
    | true => exact htrue rfl
    | false =>
      obtain ⟨hsome, hr'⟩ := hfalse rfl
      have hsame : tree.insert v (keybytesToHex key) = tree := by
        refine Tree.Canonical.ext_get (.inr (Tree.wf_insert hc hterm hv)) hc fun key' => ?_
        rw [Tree.get_insert hc hterm]
        split
        · next he => rw [he, hsome]
        · rfl
      rwa [hsame]

/-- **`TryDelete` deletes from the tree.** -/
theorem Rep.exists_tryDelete (key : Bytes) :
    ∃ t', t.tryDelete get key = .ok t' ∧
      Rep H get true t'.root (tree.delete (keybytesToHex key)) := by
  have hterm := terminated_keybytesToHex key
  obtain ⟨d, n', hdel, htrue, hfalse⟩ := hr.descend hc hk (Node.descends_delete t.cachegen) key
  refine ⟨{ t with root := n' }, ?_, ?_⟩
  · unfold Trie.tryDelete
    rw [hdel]
    rfl
  · cases d with
    | true => exact (htrue rfl).2
    | false =>
      obtain ⟨hnone, hr'⟩ := hfalse rfl
      have hsame : tree.delete (keybytesToHex key) = tree := by
        refine Tree.Canonical.ext_get (Tree.canonical_delete hc hterm) hc fun key' => ?_
        rw [Tree.get_delete hc hterm]
        split
        · next he => rw [he, hnone]
        · rfl
      rwa [hsame]

end Calls

/-! ## Committing and opening -/

variable (H get) in
/-- A tree is fully stored at a root. -/
def TreeAt (root : Hash) (tree : PTree) : Prop :=
  (tree = .nil ∧ (root = emptyRoot ∨ root = FixedBytes.zero 32)) ∨
    (Tree.Wf Value tree ∧ root = H (enc H tree) ∧ root ≠ emptyRoot ∧
      root ≠ FixedBytes.zero 32 ∧ InDb H get tree ∧ Held H get tree)

/-- A tree stays stored as long as its nodes do. -/
theorem TreeAt.monoOn {root : Hash} (hle : KeepsOn H get (encodings H tree) get')
    (h : TreeAt H get root tree) : TreeAt H get' root tree := by
  obtain hroot | ⟨hw, hroot, hne, hz, hdb, hheld⟩ := h
  · exact .inl hroot
  · exact .inr ⟨hw, hroot, hne, hz, hle _ (enc_mem_encodings (isNode_of_wf hw)) hdb,
      hheld.monoOn hle⟩

/-- **`New` opens what is stored.** -/
theorem TreeAt.exists_new {root : Hash} (h : TreeAt H get root tree) (hk : KeysLE tree)
    (cachelimit : UInt16) :
    ∃ t, Trie.new get cachelimit root = .ok t ∧ Rep H get true t.root tree := by
  obtain ⟨rfl, hroot⟩ | ⟨hw, rfl, hne, hz, hdb, hheld⟩ := h
  · refine ⟨⟨.nil, 0, cachelimit⟩, ?_, .nil⟩
    unfold Trie.new
    rw [if_neg fun h => hroot.elim h.2 h.1]
  · have hrep : Rep H get true (.hash (H (enc H tree))) tree :=
      .hash (isNode_of_wf hw) (fun h => Bool.noConfusion h) hdb hheld
    obtain ⟨n, hn, hr, -⟩ := exists_resolveHash 0 hw hk hrep
    refine ⟨⟨n, 0, cachelimit⟩, ?_, hr⟩
    unfold Trie.new
    rw [if_pos ⟨hz, hne⟩, hn]
    rfl

/-- A canonical tree that the database has is stored at its root, unless that is one of the two
hashes of the empty trie. -/
theorem treeAt_rootHash (hc : Tree.Canonical Value tree) (hdb : IsNode tree → InDb H get tree)
    (hheld : Held H get tree) (hne : IsNode tree →
      H (enc H tree) ≠ emptyRoot ∧ H (enc H tree) ≠ FixedBytes.zero 32) :
    TreeAt H get (rootHash H tree) tree := by
  rcases hc with rfl | hw
  · exact .inl ⟨rfl, .inl rfl⟩
  · have hnode := isNode_of_wf hw
    rw [rootHash_of_wf hw]
    exact .inr ⟨hw, rfl, (hne hnode).1, (hne hnode).2, hdb hnode, hheld⟩

/-- **`CommitTo` gives the root of the tree**; over every database that keeps the old nodes and has
the written ones the trie stands for the same tree, all of which is stored. -/
theorem Rep.exists_commitTo (hc : Tree.Canonical Value tree) (hr : Rep H get true t.root tree) :
    ∃ t' ws, t.commitTo H = .ok (rootHash H tree, t', ws) ∧
      (∀ w ∈ ws, w.1 = H w.2 ∧ w.2 ∈ encodings H tree) ∧
      ∀ get', Keeps H get get' → (∀ w ∈ ws, get' w.1 = some w.2) →
        Rep H get' true t'.root tree ∧ (IsNode tree → InDb H get' tree) ∧ Held H get' tree := by
  rcases hc with rfl | hw
  · refine ⟨{ t with root := .nil, cachegen := t.cachegen + 1 }, [], ?_,
      fun w hw => absurd hw List.not_mem_nil, fun get' _ _ => ⟨.nil, fun h => h.elim, trivial⟩⟩
    unfold Trie.commitTo hashRoot
    rw [hr.eq_nil]
    rfl
  · have hwalks : Walks H get t.cachegen t.cachelimit true (Stored H get) := walks_stored
    obtain ⟨r, hr', hst⟩ := hwalks.apply hw hr
    have hcollapsed : r.collapsed = .hash (H (enc H tree)) := by
      rw [hst.collapsed, collapsedOf, if_neg fun h => Bool.noConfusion h.2]
    refine ⟨{ t with root := r.cached, cachegen := t.cachegen + 1 }, r.writes, ?_, hst.writes,
      fun get' hle hdb => ?_⟩
    · unfold Trie.commitTo
      rw [hashRoot_eq hw hr hr' hcollapsed, rootHash_of_wf hw]
      rfl
    · obtain ⟨hrep, hheld, hin⟩ := hst.keeps get' hle hdb
      exact ⟨hrep, fun _ => hin (.inl rfl), hheld⟩

end Gocoin.Trie
