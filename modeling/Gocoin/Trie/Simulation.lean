import Gocoin.Trie.Represent

/-!
# Trie/Simulation — lookup, insertion and deletion are those of the tree

The operations of the program on the nodes in memory do, for every database that holds what they
may have to load, what the operations of the radix tree do: none of them fails, the value found is
the value of the tree, and the node they return stands for the changed tree.  The recursion goes
down at most two steps for each letter of the key, one of them to load a node.
-/

namespace Gocoin.Trie

open Patricia

variable {H : HashFn} {get : Nodes}

namespace Node

/-! ## Going down a tree -/

variable (H get) in
/-- **The cases of an operation** that goes down a tree along a key: what holds of the result below
a node holds of the result at the node, and it holds where the key ends or leaves the tree. -/
structure Descends (gen : UInt16) (Q : PTree → Nibbles → ℕ → Bool → Node → Prop) : Prop where
  hash : ∀ {t key depth top x n}, key ≠ [] → resolveHash get gen x = .ok n →
    Rep H get top n t → Q t key depth top n → Q t key (depth + 1) top (.hash x)
  here : ∀ v depth top, Q (.value v) [] (depth + 1) top (.value v)
  absent : ∀ key depth top, Q .nil key (depth + 1) top .nil
  leaf : ∀ {k v fl top} depth, Terminated k → FlagOk H get top fl (.short k (.value v)) →
    Q (.short k (.value v)) k (depth + 2) top (.short k (.value v) fl)
  ext : ∀ {k c key depth top val fl}, k ≠ [] → Tree.Wf Value (.full c) → Terminated key →
    FlagOk H get top fl (.short k (.full c)) → Rep H get false val (.full c) →
    Q (.full c) key depth false val → Q (.short k (.full c)) (k ++ key) (depth + 1) top
      (.short k val fl)
  branch : ∀ {p x y a b t val fl top} depth, a ≠ b → Rep H get false val t →
    FlagOk H get top fl (.short (p ++ b :: y) t) →
    Q (.short (p ++ b :: y) t) (p ++ a :: x) (depth + 1) top (.short (p ++ b :: y) val fl)
  full : ∀ {c' a key depth top c fl}, Tree.Wf Value (.full c') → KeysLE (.full c') →
    Terminated (a :: key) → FlagOk H get top fl (.full c') →
    (∀ i, Rep H get false (c i) (c' i)) → Q (c' a) key depth false (c a) →
    Q (.full c') (a :: key) (depth + 1) top (.full c fl)

variable {gen : UInt16} {t : PTree} {key p x y k : Nibbles} {depth : ℕ} {top : Bool} {n val : Node}
  {c : Fin 17 → Node} {c' : Fin 17 → PTree} {a b : Fin 17} {fl : NodeFlag} {v : Bytes}
  {Q : PTree → Nibbles → ℕ → Bool → Node → Prop}

/-- What holds on loaded nodes holds one step deeper on all nodes. -/
theorem Descends.of_loaded (hQ : Descends H get gen Q)
    (hw : IsNode t → Tree.Wf Value t ∧ key ≠ []) (hk : KeysLE t) {m : ℕ}
    (h : ∀ {depth top n}, m ≤ depth → Loaded n → Rep H get top n t → Q t key depth top n)
    (hd : m + 1 ≤ depth) (hr : Rep H get top n t) :
    Q t key depth top n := by
  cases hr with
  | hash hnode hbig hdb hheld =>
    obtain ⟨hw, hkey⟩ := hw hnode
    obtain ⟨d, rfl⟩ : ∃ d, depth = d + 1 := ⟨depth - 1, by omega⟩
    obtain ⟨n, hn, hr', hl⟩ := exists_resolveHash gen hw hk (.hash hnode hbig hdb hheld)
    exact hQ.hash hkey hn hr' (h (by omega) hl hr')
  | nil => exact h (by omega) trivial .nil
  | value v => exact h (by omega) trivial (.value v)
  | short hval hfl => exact h (by omega) trivial (.short hval hfl)
  | full hc hfl => exact h (by omega) trivial (.full hc hfl)

/-- **Going down**: an operation with these cases has its result on every loaded node, within two
steps for each letter of the key. -/
theorem Descends.apply (hQ : Descends H get gen Q) (hway : Tree.Way Value t key)
    (hk : KeysLE t) (hd : 2 * key.length + 1 ≤ depth) (hl : Loaded n) (hr : Rep H get top n t) :
    Q t key depth top n := by
  induction hway generalizing depth top n with
  | nil =>
    obtain ⟨d, rfl⟩ : ∃ d, depth = d + 1 := ⟨depth - 1, by omega⟩
    rw [hr.eq_nil]
    exact hQ.absent _ d top
  | value =>
    obtain ⟨d, rfl⟩ : ∃ d, depth = d + 1 := ⟨depth - 1, by omega⟩
    rw [hr.eq_value]
    exact hQ.here _ d top
  | leaf hterm hv =>
    cases hr with
    | hash => exact hl.elim
    | short hval hfl =>
      have hpos := List.length_pos_iff.mpr hterm.ne_nil
      obtain ⟨d, rfl⟩ : ∃ d, depth = d + 2 := ⟨depth - 2, by omega⟩
      obtain rfl := hval.eq_value
      exact hQ.leaf d hterm hfl
  | @ext k key c hne hlast hw hkey _ ih =>
    cases hr with
    | hash => exact hl.elim
    | short hval hfl =>
      obtain ⟨d, rfl⟩ : ∃ d, depth = d + 1 := ⟨depth - 1, by omega⟩
      have hkpos := List.length_pos_iff.mpr hne
      rw [List.length_append] at hd
      exact hQ.ext hne hw hkey hfl hval (hQ.of_loaded (fun _ => ⟨hw, hkey.ne_nil⟩) hk.of_short
        (m := 2 * key.length + 1) (fun hd hl hr => ih hk.of_short hd hl hr) (by omega) hval)
  | branch hab hw hkey =>
    cases hr with
    | hash => exact hl.elim
    | short hval hfl =>
      obtain ⟨d, rfl⟩ : ∃ d, depth = d + 1 := ⟨depth - 1, by omega⟩
      exact hQ.branch d hab hval hfl
  | @full c a key hw hkey _ ih =>
    cases hr with
    | hash => exact hl.elim
    | full hcn hfl =>
      rw [List.length_cons] at hd
      obtain ⟨d, rfl⟩ : ∃ d, depth = d + 1 := ⟨depth - 1, by omega⟩
      refine hQ.full hw hk hkey hfl hcn (hQ.of_loaded (fun hnode => ?_) (hk.of_full a)
        (m := 2 * key.length + 1) (fun hd hl hr => ih (hk.of_full a) hd hl hr) (by omega) (hcn a))
      obtain h | ⟨-, v, -, h⟩ | ⟨ha, hwa⟩ := hw.child_or_nil a
      · rw [h] at hnode
        exact hnode.elim
      · rw [h] at hnode
        exact hnode.elim
      · exact ⟨hwa, ((terminated_cons ha key).mp hkey).ne_nil⟩

/-- Children of which one has been replaced. -/
theorem rep_update (hc : ∀ i, Rep H get false (c i) (c' i)) (h : Rep H get false n t) (i : Fin 17) :
    Rep H get false (Function.update c a n i) (Function.update c' a t i) := by
  by_cases hi : i = a
  · subst hi
    rwa [Function.update_self, Function.update_self]
  · rw [Function.update_of_ne hi, Function.update_of_ne hi]
    exact hc i

/-! ## Lookup -/

variable (H get) in
/-- The result of a lookup on a node for a tree. -/
def Finds (gen : UInt16) (t : PTree) (key : Nibbles) (depth : ℕ) (top : Bool) (n : Node) : Prop :=
  ∃ n' r, tryGet get gen depth n key = .ok ((t.get key).getD [], n', r) ∧ Rep H get top n' t

/-- A key that leaves a word does not start with it. -/
theorem not_prefix_of_ne (hab : a ≠ b) : ¬ p ++ b :: y <+: p ++ a :: x := by
  rw [List.prefix_append_right_inj]
  exact fun h => hab (List.cons_prefix_cons.mp h).1.symm

/-- A lookup in a short node whose word starts the key goes on behind it. -/
theorem Finds.short (hfl : FlagOk H get top fl (.short k t))
    (hval : Rep H get false val t) (h : Finds H get gen t key depth false val) :
    Finds H get gen (.short k t) (k ++ key) (depth + 1) top (.short k val fl) := by
  obtain ⟨n', r, hget, hr'⟩ := h
  unfold Finds
  rw [tryGet, if_pos (List.prefix_append k key), List.drop_left, hget, Tree.get_short_append]
  cases r with
  | false => exact ⟨.short k val fl, false, rfl, .short hval hfl⟩
  | true => exact ⟨.short k n' { fl with gen }, true, rfl, .short hr' (hfl.gen gen)⟩

/-- A lookup in a full node goes on in one child. -/
theorem Finds.full (hfl : FlagOk H get top fl (.full c')) (hc : ∀ i, Rep H get false (c i) (c' i))
    (h : Finds H get gen (c' a) key depth false (c a)) :
    Finds H get gen (.full c') (a :: key) (depth + 1) top (.full c fl) := by
  obtain ⟨n', r, hget, hr'⟩ := h
  unfold Finds
  rw [tryGet, hget, Tree.get_full_cons]
  cases r with
  | false => exact ⟨.full c fl, false, rfl, .full hc hfl⟩
  | true =>
    refine ⟨.full (Function.update c a n') { fl with gen }, true, rfl, .full ?_ (hfl.gen gen)⟩
    have hupd := rep_update hc (a := a) hr'
    rwa [Function.update_eq_self] at hupd

/-- **Looking a key up** gives the value of the tree. -/
theorem descends_tryGet (gen : UInt16) : Descends H get gen (Finds H get gen) where
  hash := by
    rintro t key depth top x n - hn hr ⟨n', r, hget, hr'⟩
    refine ⟨n', true, ?_, hr'⟩
    rw [tryGet, hn]
    show (tryGet get gen depth n key).bind _ = _
    rw [hget]
    rfl
  here v depth top := ⟨.value v, false, rfl, .value v⟩
  absent key depth top := ⟨.nil, false, rfl, .nil⟩
  leaf {k v fl top} depth hterm hfl := by
    have h := Finds.short hfl (.value v)
      (show Finds H get gen _ [] (depth + 1) _ _ from ⟨.value v, false, rfl, .value v⟩)
    rwa [List.append_nil] at h
  ext _ _ _ hfl hval h := Finds.short hfl hval h
  branch {p x y a b t val fl top} depth hab hval hfl := by
    have hnot := not_prefix_of_ne hab (p := p) (x := x) (y := y)
    refine ⟨.short (p ++ b :: y) val fl, false, ?_, .short hval hfl⟩
    rw [tryGet, if_neg hnot, Tree.get_short_of_forall_ne hnot]
    rfl
  full _ _ _ hfl hc h := Finds.full hfl hc h

/-! ## Insertion -/

variable (H get) in
/-- The result of an insertion into a node for a tree: the changed tree, or — marked — the same tree
when the value was there before. -/
def Inserts (gen : UInt16) (v : Bytes) (t : PTree) (key : Nibbles) (depth : ℕ) (top : Bool)
    (n : Node) : Prop :=
  ∃ d n', insert get gen depth n key (.value v) = .ok (d, n') ∧
    (d = true → Rep H get top n' (t.insert v key)) ∧
    (d = false → t.get key = some v ∧ Rep H get top n' t)

/-- A skipped word in front of a node. -/
theorem rep_insertNil (k : Nibbles) (h : Rep H get false n t) (htop : k = [] → Rep H get top n t) :
    Rep H get top (insertNil gen k n) (Tree.ext k t) := by
  unfold insertNil Tree.ext
  split
  · next hk => exact htop hk
  · exact .short h (flagOk_newFlag top gen _)

/-- Where the key leaves the word of a short node, the same branch is put in. -/
theorem inserts_branch (hab : a ≠ b) (hval : Rep H get false val t) (fl : NodeFlag) (depth : ℕ)
    (top : Bool) : Inserts H get gen v (.short (p ++ b :: y) t) (p ++ a :: x) (depth + 1) top
      (.short (p ++ b :: y) val fl) := by
  have hlen : prefixLen (p ++ a :: x) (p ++ b :: y) = p.length :=
    prefixLen_of_ne hab p x y
  have hne : ¬ p.length = (p ++ b :: y).length := by
    rw [List.length_append, List.length_cons]
    omega
  have hbranch : ∀ top, Rep H get top (.full (Function.update
      (Function.update (fun _ => Node.nil) b (insertNil gen y val)) a
      (insertNil gen x (.value v))) (newFlag gen))
      (Tree.branch b (Tree.ext y t) a (Tree.ext x (.value v))) := fun top =>
    .full (rep_update (rep_update (fun _ => .nil) (rep_insertNil y hval fun _ => hval))
      (rep_insertNil x (.value v) fun _ => .value v)) (flagOk_newFlag top gen _)
  have hinsert : insert get gen (depth + 1) (.short (p ++ b :: y) val fl) (p ++ a :: x) (.value v)
      = .ok (true, insertNil gen p (.full (Function.update
          (Function.update (fun _ => Node.nil) b (insertNil gen y val)) a
          (insertNil gen x (.value v))) (newFlag gen))) := by
    obtain ⟨d, key, hkey⟩ := List.exists_cons_of_ne_nil
      (show p ++ a :: x ≠ [] from List.append_ne_nil_of_right_ne_nil p (List.cons_ne_nil a x))
    rw [hkey] at hlen ⊢
    rw [insert]
    simp only [hlen]
    rw [if_neg hne, ← hkey, insertBranch, List.drop_left, List.drop_left]
    cases p with
    | nil => rfl
    | cons q p =>
      rw [List.take_left]
      rfl
  refine ⟨true, _, hinsert, fun _ => ?_, fun h => Bool.noConfusion h⟩
  rw [Tree.insert_short_branch v hab]
  exact rep_insertNil p (hbranch false) fun _ => hbranch top

/-- An insertion into a short node whose word starts the key goes on behind it. -/
theorem Inserts.short (hne : k ≠ []) (hfl : FlagOk H get top fl (.short k t))
    (hval : Rep H get false val t) (h : Inserts H get gen v t key depth false val) :
    Inserts H get gen v (.short k t) (k ++ key) (depth + 1) top (.short k val fl) := by
  obtain ⟨dirty, n', hins, htrue, hfalse⟩ := h
  have hlen : prefixLen (k ++ key) k = k.length := by
    simpa using prefixLen_append k key []
  have hstep : insert get gen (depth + 1) (.short k val fl) (k ++ key) (.value v)
      = if dirty then .ok (true, .short k n' (newFlag gen)) else .ok (false, .short k val fl) := by
    obtain ⟨a, k', rfl⟩ := List.exists_cons_of_ne_nil hne
    rw [List.cons_append] at hlen ⊢
    rw [insert]
    simp only [hlen, if_true]
    rw [← List.cons_append, List.drop_left, hins]
    rfl
  unfold Inserts
  rw [hstep, Tree.insert_short_append v hne, Tree.get_short_append]
  cases dirty with
  | false =>
    exact ⟨false, _, rfl, fun h => Bool.noConfusion h, fun _ => ⟨(hfalse rfl).1, .short hval hfl⟩⟩
  | true =>
    exact ⟨true, _, rfl, fun _ => .short (htrue rfl) (flagOk_newFlag top gen _),
      fun h => Bool.noConfusion h⟩

/-- An insertion into a full node goes on in one child. -/
theorem Inserts.full (hfl : FlagOk H get top fl (.full c')) (hc : ∀ i, Rep H get false (c i) (c' i))
    (h : Inserts H get gen v (c' a) key depth false (c a)) :
    Inserts H get gen v (.full c') (a :: key) (depth + 1) top (.full c fl) := by
  obtain ⟨dirty, n', hins, htrue, hfalse⟩ := h
  unfold Inserts
  rw [insert, hins, Tree.get_full_cons]
  cases dirty with
  | false =>
    exact ⟨false, _, rfl, fun h => Bool.noConfusion h, fun _ => ⟨(hfalse rfl).1, .full hc hfl⟩⟩
  | true =>
    exact ⟨true, _, rfl, fun _ => .full (rep_update hc (htrue rfl)) (flagOk_newFlag top gen _),
      fun h => Bool.noConfusion h⟩

theorem inserts_nil (gen : UInt16) (v : Bytes) (key : Nibbles) (depth : ℕ) (top : Bool) :
    Inserts H get gen v .nil key (depth + 1) top .nil := by
  cases key with
  | nil =>
    refine ⟨true, .value v, rfl, fun _ => ?_, fun h => Bool.noConfusion h⟩
    rw [Tree.insert_nil_key]
    exact .value v
  | cons a key =>
    exact ⟨true, _, rfl, fun _ => .short (.value v) (flagOk_newFlag top gen _),
      fun h => Bool.noConfusion h⟩

/-- An insertion where the key is used up. -/
theorem inserts_here (gen : UInt16) (v w : Bytes) (depth : ℕ) (top : Bool) :
    Inserts H get gen v (.value w) [] (depth + 1) top (.value w) := by
  refine ⟨decide (w ≠ v), .value v, rfl, fun _ => ?_, fun h => ?_⟩
  · rw [Tree.insert_nil_key]
    exact .value v
  · have hwv : w = v := by simpa using h
    subst hwv
    exact ⟨rfl, .value w⟩

/-- **Inserting a value** changes the node as it changes the tree. -/
theorem descends_insert (gen : UInt16) (v : Bytes) :
    Descends H get gen (Inserts H get gen v) where
  hash := by
    rintro t key depth top x n hkey hn hr ⟨dirty, n', hins, htrue, hfalse⟩
    obtain ⟨a, key, rfl⟩ := List.exists_cons_of_ne_nil hkey
    unfold Inserts
    rw [insert, hn]
    show ∃ d₁ n₂, ((insert get gen depth n (a :: key) (.value v)).bind _) = _ ∧ _
    rw [hins]
    cases dirty with
    | false => exact ⟨false, n, rfl, fun h => Bool.noConfusion h, fun _ => ⟨(hfalse rfl).1, hr⟩⟩
    | true => exact ⟨true, n', rfl, fun _ => htrue rfl, fun h => Bool.noConfusion h⟩
  here w depth top := inserts_here gen v w depth top
  absent key depth top := inserts_nil gen v key depth top
  leaf {k w fl top} depth hterm hfl := by
    have h := Inserts.short hterm.ne_nil hfl (.value w) (inserts_here gen v w depth false)
    rwa [List.append_nil] at h
  ext hne _ _ hfl hval h := Inserts.short hne hfl hval h
  branch {_ _ _ _ _ _ _ fl top} depth hab hval _ := inserts_branch hab hval fl depth top
  full _ _ _ hfl hc h := Inserts.full hfl hc h

/-! ## Deletion -/

variable (H get) in
/-- The result of a deletion from a node for a tree: the changed tree, or — marked — the same tree
when the key was not there. -/
def Deletes (gen : UInt16) (t : PTree) (key : Nibbles) (depth : ℕ) (top : Bool) (n : Node) : Prop :=
  ∃ d n', delete get gen depth n key = .ok (d, n') ∧
    (d = true → Loaded n' ∧ Rep H get top n' (t.delete key)) ∧
    (d = false → t.get key = none ∧ Rep H get top n' t)

theorem nonNil_eq_of_rep (h : Rep H get top n t) : n.nonNil = t.nonNil := by
  cases h with
  | @hash _ t hnode =>
    cases t with
    | nil | value v => exact hnode.elim
    | short k t => rfl
    | full c => rfl
  | _ => rfl

/-- A node for a subtree, once loaded. -/
theorem exists_resolve (gen : UInt16) (hw : Tree.Wf Value t) (hk : KeysLE t)
    (hr : Rep H get top n t) :
    ∃ n', resolve get gen n = .ok n' ∧ Loaded n' ∧ Rep H get top n' t := by
  cases n with
  | hash h =>
    obtain ⟨n', hn', hr', hl⟩ := exists_resolveHash gen hw hk hr
    exact ⟨n', hn', hl, hr'⟩
  | nil | value v | short k val fl | full c fl => exact ⟨_, rfl, trivial, hr⟩

/-- The only child that is left, once loaded, is merged or skipped over. -/
theorem resolve_cases (gen : UInt16) (hw : Tree.Wf Value t) (hk : KeysLE t)
    (hr : Rep H get false n t) :
    (∃ k val fl t', resolve get gen n = .ok (.short k val fl) ∧ t = .short k t' ∧
        Rep H get false val t') ∨
      ∃ c fl c', resolve get gen n = .ok (.full c fl) ∧ t = .full c' := by
  obtain ⟨n₁, hn₁, hl, hr₁⟩ := exists_resolve gen hw hk hr
  cases hr₁ with
  | nil => cases hw
  | value v => cases hw
  | short hval hfl => exact .inl ⟨_, _, _, _, hn₁, rfl, hval⟩
  | full hc hfl => exact .inr ⟨_, _, _, hn₁, rfl⟩
  | hash => exact hl.elim

/-- **The end of a deletion** at a full node is the collapse of the tree's branch. -/
theorem exists_reduceFull (gen : UInt16) {c : Fin 17 → PTree} {cn : Fin 17 → Node}
    (hcn : ∀ i, Rep H get false (cn i) (c i))
    (hc : ∀ i, c i = .nil ∨ Tree.Child Value i (c i)) (hk : ∀ i, KeysLE (c i)) (top : Bool) :
    ∃ n', reduceFull get gen cn = .ok (true, n') ∧ Loaded n' ∧
      Rep H get top n' (Tree.collapse c) := by
  have hfilter : (List.finRange 17).filter (fun i => (cn i).nonNil)
      = (List.finRange 17).filter (fun i => (c i).nonNil) :=
    List.filter_congr fun i _ => nonNil_eq_of_rep (hcn i)
  have hmem : ∀ i ∈ (List.finRange 17).filter (fun i => (c i).nonNil), c i ≠ .nil :=
    fun i hi => Tree.nonNil_iff.mp (List.mem_filter.mp hi).2
  unfold reduceFull Tree.collapse
  rw [hfilter]
  generalize (List.finRange 17).filter (fun i => (c i).nonNil) = l at hmem ⊢
  have hmany : ∃ n', (.ok (true, .full cn (newFlag gen)) : Except TrieErr (Bool × Node))
      = .ok (true, n') ∧ Loaded n' ∧ Rep H get top n' (.full c) :=
    ⟨_, rfl, trivial, .full hcn (flagOk_newFlag top gen _)⟩
  match l with
  | [] => exact hmany
  | _ :: _ :: _ => exact hmany
  | [pos] =>
    obtain ⟨hpos, v, -, hval⟩ | ⟨hpos, hw⟩ :=
      (hc pos).resolve_left (hmem pos (List.mem_singleton_self pos))
    · have hr := hcn pos
      simp only [if_pos (show pos = term from hpos)]
      rw [hval] at hr ⊢
      exact ⟨_, rfl, trivial, .short hr (flagOk_newFlag top gen _)⟩
    · simp only [if_neg (show pos ≠ term from hpos)]
      have hr := hcn pos
      obtain ⟨k, val, fl, t', hres, ht, hval⟩ | ⟨c₁, fl, c', hres, ht⟩ :=
        resolve_cases gen hw (hk pos) hr
      · rw [hres, ht]
        exact ⟨_, rfl, trivial, .short hval (flagOk_newFlag top gen _)⟩
      · rw [hres, ht]
        rw [ht] at hr
        exact ⟨_, rfl, trivial, .short hr (flagOk_newFlag top gen _)⟩

/-- A deletion behind the word of a short node. -/
theorem Deletes.short {c : Fin 17 → PTree} (hw : Tree.Wf Value (.full c)) (hkey : Terminated key)
    (hfl : FlagOk H get top fl (.short k (.full c))) (hval : Rep H get false val (.full c))
    (h : Deletes H get gen (.full c) key depth false val) :
    Deletes H get gen (.short k (.full c)) (k ++ key) (depth + 1) top (.short k val fl) := by
  obtain ⟨dirty, n', hdel, htrue, hfalse⟩ := h
  have hlen : prefixLen (k ++ key) k = k.length := by
    simpa using prefixLen_append k key []
  have hpos := List.length_pos_iff.mpr hkey.ne_nil
  have hne : ¬ k.length = (k ++ key).length := by
    rw [List.length_append]
    omega
  unfold Deletes
  rw [delete]
  simp only [hlen, lt_irrefl, if_false, if_neg hne, List.drop_left]
  rw [hdel, Tree.delete_short_append k _ hkey.ne_nil, Tree.get_short_append]
  cases dirty with
  | false =>
    exact ⟨false, _, rfl, fun h => Bool.noConfusion h, fun _ => ⟨(hfalse rfl).1, .short hval hfl⟩⟩
  | true =>
    obtain ⟨hl, hr⟩ := htrue rfl
    have hres : Tree.Wf Value ((Tree.full c).delete key) :=
      (Tree.canonical_delete_aux (Tree.Canonical.way (.inr hw) hkey)).2 c rfl
    generalize (Tree.full c).delete key = t' at hr hres ⊢
    cases hr with
    | nil => cases hres
    | value v => cases hres
    | short hv hf =>
      exact ⟨true, _, rfl, fun _ => ⟨trivial,
        .short hv (flagOk_newFlag top gen _)⟩, fun h => Bool.noConfusion h⟩
    | full hc hf =>
      exact ⟨true, _, rfl, fun _ => ⟨trivial,
        .short (.full hc hf) (flagOk_newFlag top gen _)⟩, fun h => Bool.noConfusion h⟩
    | hash => exact hl.elim

/-- Where the key leaves the word of a short node there is nothing to delete. -/
theorem deletes_branch (hab : a ≠ b)
    (hr : Rep H get top (.short (p ++ b :: y) val fl) (.short (p ++ b :: y) t)) (depth : ℕ) :
    Deletes H get gen (.short (p ++ b :: y) t) (p ++ a :: x) (depth + 1) top
      (.short (p ++ b :: y) val fl) := by
  have hlen : prefixLen (p ++ a :: x) (p ++ b :: y) = p.length :=
    prefixLen_of_ne hab p x y
  have hlt : p.length < (p ++ b :: y).length := by
    rw [List.length_append, List.length_cons]
    omega
  refine ⟨false, .short (p ++ b :: y) val fl, ?_, fun h => Bool.noConfusion h, fun _ => ⟨?_, hr⟩⟩
  · rw [delete]
    simp only [hlen, if_pos hlt]
  · exact Tree.get_short_of_forall_ne (not_prefix_of_ne hab) t

/-- **Deleting a key** changes the node as it changes the tree. -/
theorem descends_delete (gen : UInt16) : Descends H get gen (Deletes H get gen) where
  hash := by
    rintro t key depth top x n - hn hr ⟨dirty, n', hdel, htrue, hfalse⟩
    unfold Deletes
    rw [delete, hn]
    show ∃ d₁ n₂, ((delete get gen depth n key).bind _) = _ ∧ _
    rw [hdel]
    cases dirty with
    | false => exact ⟨false, n, rfl, fun h => Bool.noConfusion h, fun _ => ⟨(hfalse rfl).1, hr⟩⟩
    | true => exact ⟨true, n', rfl, fun _ => htrue rfl, fun h => Bool.noConfusion h⟩
  here v depth top := ⟨true, .nil, rfl, fun _ => ⟨trivial, .nil⟩, fun h => Bool.noConfusion h⟩
  absent key depth top := ⟨false, .nil, rfl, fun h => Bool.noConfusion h, fun _ => ⟨rfl, .nil⟩⟩
  leaf {k v fl top} depth hterm hfl := by
    have hlen : prefixLen k k = k.length := by simpa using prefixLen_append k [] []
    refine ⟨true, .nil, ?_, fun _ => ⟨trivial, ?_⟩, fun h => Bool.noConfusion h⟩
    · rw [delete]
      simp only [hlen, lt_irrefl, if_false, if_true]
    · rw [Tree.delete_short_self]
      exact .nil
  ext _ hw hkey hfl hval h := Deletes.short hw hkey hfl hval h
  branch depth hab hval hfl := deletes_branch hab (.short hval hfl) depth
  full := by
    rintro c' a key depth top c fl hw hk hkey hfl hc ⟨dirty, n', hdel, htrue, hfalse⟩
    unfold Deletes
    rw [delete, hdel]
    cases dirty with
    | false =>
      exact ⟨false, _, rfl, fun h => Bool.noConfusion h, fun _ => ⟨(hfalse rfl).1, .full hc hfl⟩⟩
    | true =>
      obtain ⟨n'', hred, hl'', hr''⟩ := exists_reduceFull gen (rep_update hc (htrue rfl).2)
        (Tree.child_or_nil_update hw (hw.child_delete hkey)) (hk.update_delete hw hkey) top
      exact ⟨true, n'', hred, fun _ => ⟨hl'', hr''⟩, fun h => Bool.noConfusion h⟩

end Node

end Gocoin.Trie
