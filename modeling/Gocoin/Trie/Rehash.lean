import Gocoin.Trie.Store

/-!
# Trie/Rehash — a trie that is only hashed

A trie need not be committed for its root: `Hash` walks it and writes nothing.  Whatever has been
loaded or hashed before, the root is that of the tree the trie stands for, and with the hashes
cached it stands for the same tree (`Rep.exists_hash`).
-/

namespace Gocoin.Trie

open Patricia Rlp

variable {H : HashFn} {get : Nodes} {gen lim : UInt16}

variable (H get) in
/-- The result of hashing a node for a tree. -/
def Rehashed (top : Bool) (t : PTree) (r : Hashed) : Prop :=
  r.collapsed = collapsedOf H top t ∧ Rep H get top r.cached t

variable {t tree : PTree} {r : Hashed}

/-- The flags of a node that has been hashed are right: one that was clean is stored already, or too
small for a hash. -/
theorem flagOk_settle_false {top : Bool} {fl : NodeFlag} (hfl : FlagOk H get top fl t) :
    FlagOk H get top (settle false fl (collapsedOf H top t)) t := by
  refine flagOk_settle fl fun hbig hclean => ?_
  have hclean : fl.dirty = false := hclean.resolve_left Bool.noConfusion
  cases hold : fl.hash with
  | none => exact absurd (hfl.small hold hclean).symm hbig
  | some y => exact hfl.clean y hold hclean

theorem rep_of_below (h : Below H (Rehashed H get) t r) :
    Rep H get false r.cached t := h.elim (fun h => h.2) fun h => (h.2.2 get).1

/-- **Hashing a node collapses its tree** and keeps a node for it. -/
theorem walks_rehashed : Walks H get gen lim false (Rehashed H get) where
  collapsed h := h.1
  hash hr := ⟨(stored_hash hr).collapsed, hr⟩
  reused {top t n fl r} _ hr hfl h := by
    unfold reuse at h
    cases hh : fl.hash with
    | none =>
      rw [hh] at h
      cases h
    | some x =>
      rw [hh] at h
      cases h
      exact ⟨collapsed_of_flagOk hfl hh, hr⟩
  short hfl h := ⟨rfl, .short (rep_of_below h) (flagOk_settle_false hfl)⟩
  full hfl h _ hlast :=
    ⟨rfl, .full (rep_kept (fun i => rep_of_below (h i)) (hlast get)) (flagOk_settle_false hfl)⟩

/-- The root of a walk that ends in a hash. -/
theorem hashRoot_eq {commit : Bool} {t : Trie} (hw : Tree.Wf Value tree)
    (hr : Rep H get true t.root tree)
    (hhash : t.root.hashWith H t.cachegen t.cachelimit commit true = .ok r) {h : Hash}
    (hcol : r.collapsed = .hash h) : hashRoot H commit t = .ok (h, r.cached, r.writes) := by
  have hne : t.root ≠ .nil := fun h => by
    rw [h] at hr
    cases hr
    exact hw.ne_nil rfl
  unfold hashRoot
  split
  · next h => exact absurd h hne
  · simp only [hhash, bind, Except.bind, hcol]

/-- **`Hash` gives the root of the tree** and leaves a trie for it. -/
theorem Rep.exists_hash {t : Trie} (hc : Tree.Canonical Value tree)
    (hr : Rep H get true t.root tree) :
    ∃ t', t.hash H = .ok (rootHash H tree, t') ∧ Rep H get true t'.root tree := by
  rcases hc with rfl | hw
  · refine ⟨{ t with root := .nil }, ?_, .nil⟩
    unfold Trie.hash hashRoot
    rw [hr.eq_nil]
    rfl
  · have hwalks : Walks H get t.cachegen t.cachelimit false (Rehashed H get) :=
      walks_rehashed
    obtain ⟨r, hr', hcol, hrep⟩ := hwalks.apply hw hr
    rw [collapsedOf, if_neg fun h => Bool.noConfusion h.2] at hcol
    have hroot := hashRoot_eq hw hr hr' hcol
    refine ⟨{ t with root := r.cached }, ?_, hrep⟩
    unfold Trie.hash
    rw [hroot, rootHash_of_wf hw]
    rfl

end Gocoin.Trie
