import Mathlib.Data.List.FinRange
import Mathlib.Data.List.Infix
import Mathlib.Logic.Function.Basic

/-!
# Machinery/Patricia — radix trees over a terminated alphabet

Keys are words over `Fin (n + 1)` whose last letter `Fin.last n` — the terminator — occurs exactly
once, at the end.  A tree branches at `full` nodes, skips common letters in `short` nodes and keeps
its values behind a terminator.  On well-formed trees `insert` and `delete` are the update and the
erasure of the finite map `get`, they keep the tree well formed, and a well-formed tree is
*canonical*: it is determined by its map (`Canonical.ext_get`).  A map on keys of another kind is
kept under their paths (`Along`), and has one canonical tree (`Along.unique`).
-/

namespace Patricia

open Function (update update_self update_of_ne)

/-- A word over the alphabet. -/
abbrev Key (n : ℕ) := List (Fin (n + 1))

/-- Radix trees with values in `β`. -/
inductive Tree (n : ℕ) (β : Type*) where
  | nil
  | value (v : β)
  | short (k : Key n) (t : Tree n β)
  | full (c : Fin (n + 1) → Tree n β)

/-! ## Common prefixes -/

/-- The length of the longest common prefix. -/
def prefixLen {α : Type*} [DecidableEq α] : List α → List α → ℕ
  | a :: as, b :: bs => if a = b then prefixLen as bs + 1 else 0
  | _, _ => 0

section PrefixLen

variable {α : Type*} [DecidableEq α]

@[simp] theorem prefixLen_nil_right (a : List α) : prefixLen a [] = 0 := by
  cases a <;> rfl

/-- A common beginning counts in full. -/
theorem prefixLen_append (p a b : List α) :
    prefixLen (p ++ a) (p ++ b) = p.length + prefixLen a b := by
  induction p with
  | nil => simp
  | cons x p ih =>
    simp only [List.cons_append, prefixLen, if_pos, ih, List.length_cons]
    omega

/-- Lists that differ behind a beginning have just that in common. -/
theorem prefixLen_of_ne {a b : α} (h : a ≠ b) (p x y : List α) :
    prefixLen (p ++ a :: x) (p ++ b :: y) = p.length := by
  rw [prefixLen_append, prefixLen, if_neg h, Nat.add_zero]

/-- Two words are a common prefix followed by words that do not start with the same letter. -/
theorem exists_prefix_split (a b : List α) :
    ∃ p a' b', a = p ++ a' ∧ b = p ++ b' ∧
      (a' = [] ∨ b' = [] ∨ ∃ x y xs ys, a' = x :: xs ∧ b' = y :: ys ∧ x ≠ y) := by
  induction a generalizing b with
  | nil => exact ⟨[], [], b, rfl, rfl, .inl rfl⟩
  | cons x xs ih =>
    cases b with
    | nil => exact ⟨[], x :: xs, [], rfl, rfl, .inr (.inl rfl)⟩
    | cons y ys =>
      by_cases h : x = y
      · obtain ⟨p, a', b', ha, hb, hor⟩ := ih ys
        exact ⟨x :: p, a', b', by rw [ha, List.cons_append], by rw [hb, h, List.cons_append], hor⟩
      · exact ⟨[], x :: xs, y :: ys, rfl, rfl, .inr (.inr ⟨x, y, xs, ys, rfl, rfl, h⟩)⟩

end PrefixLen

variable {n : ℕ} {β : Type*}

/-! ## Terminated keys -/

/-- The terminator occurs exactly once, at the end. -/
def Terminated : Key n → Prop
  | [] => False
  | a :: k => if a = Fin.last n then k = [] else Terminated k

instance : ∀ k : Key n, Decidable (Terminated k)
  | [] => .isFalse id
  | a :: k =>
    if h : a = Fin.last n then
      decidable_of_iff (k = []) (by rw [Terminated, if_pos h])
    else
      @decidable_of_iff _ (Terminated k) (by rw [Terminated, if_neg h])
        (instDecidableTerminated k)

/-- Nothing follows the terminator… -/
theorem terminated_last (k : Key n) : Terminated (Fin.last n :: k) ↔ k = [] := by
  rw [Terminated, if_pos rfl]

theorem terminated_cons {a : Fin (n + 1)} (h : a ≠ Fin.last n) (k : Key n) :
    Terminated (a :: k) ↔ Terminated k := by
  rw [Terminated, if_neg h]

/-- …and what stands before it does not matter. -/
theorem terminated_append {p : Key n} (h : Fin.last n ∉ p) (k : Key n) :
    Terminated (p ++ k) ↔ Terminated k := by
  induction p with
  | nil => rfl
  | cons a p ih =>
    rw [List.mem_cons, not_or] at h
    rw [List.cons_append, terminated_cons (Ne.symm h.1), ih h.2]

variable {k : Key n}

/-- A proper prefix of a terminated key has no terminator. -/
theorem Terminated.last_notMem {p : Key n} (h : Terminated (p ++ k)) (hk : k ≠ []) :
    Fin.last n ∉ p := by
  induction p with
  | nil => exact List.not_mem_nil
  | cons a p ih =>
    by_cases ha : a = Fin.last n
    · rw [List.cons_append, ha, terminated_last, List.append_eq_nil_iff] at h
      exact absurd h.2 hk
    · rw [List.cons_append, terminated_cons ha] at h
      rw [List.mem_cons, not_or]
      exact ⟨Ne.symm ha, ih h⟩

/-- No terminated key is the beginning of another one. -/
theorem Terminated.eq_nil_of_append {x : Key n} (hk : Terminated k) (h : Terminated (k ++ x)) :
    x = [] := by
  by_contra hx
  induction k with
  | nil => exact hk
  | cons a k ih =>
    by_cases ha : a = Fin.last n
    · rw [List.cons_append, ha, terminated_last, List.append_eq_nil_iff] at h
      exact hx h.2
    · rw [List.cons_append, terminated_cons ha] at h
      exact ih ((terminated_cons ha k).mp hk) h

theorem Terminated.ne_nil (h : Terminated k) : k ≠ [] := by
  rintro rfl
  exact h

namespace Tree

/-! ## Lookup -/

/-- The value at a key. -/
def get : Tree n β → Key n → Option β
  | .nil, _ => none
  | .value v, k => if k = [] then some v else none
  | .short k t, key => if k <+: key then t.get (key.drop k.length) else none
  | .full _, [] => none
  | .full c, a :: key => (c a).get key

@[simp] theorem get_nil (k : Key n) : (nil : Tree n β).get k = none := rfl

@[simp] theorem get_full_nil (c : Fin (n + 1) → Tree n β) : (full c).get [] = none := rfl

@[simp] theorem get_full_cons (c : Fin (n + 1) → Tree n β) (a : Fin (n + 1)) (k : Key n) :
    (full c).get (a :: k) = (c a).get k := rfl

/-- Lookup goes on behind the key of a short node… -/
@[simp] theorem get_short_append (k x : Key n) (t : Tree n β) :
    (short k t).get (k ++ x) = t.get x := by
  rw [get, if_pos (List.prefix_append k x), List.drop_left]

variable {k key p y x : Key n} {t t' : Tree n β} {c : Fin (n + 1) → Tree n β} {a b : Fin (n + 1)}
  {v : β}

/-- …and finds nothing when the key is not met. -/
theorem get_short_of_forall_ne (h : ¬ k <+: key) (t : Tree n β) :
    (short k t).get key = none := if_neg h

theorem get_short_self (k : Key n) (v : β) : (short k (value v)).get k = some v := by
  have h := get_short_append k [] (value v)
  rwa [List.append_nil] at h

/-- `short k t`, or `t` itself when there is no letter to skip. -/
def ext (k : Key n) (t : Tree n β) : Tree n β := if k = [] then t else .short k t

@[simp] theorem ext_nil (t : Tree n β) : ext [] t = t := rfl

theorem ext_of_ne_nil (h : k ≠ []) (t : Tree n β) : ext k t = .short k t := if_neg h

/-- An extension reads as a short node, also when its key is empty. -/
theorem get_ext (k : Key n) (t : Tree n β) (key : Key n) :
    (ext k t).get key = (short k t).get key := by
  cases k with
  | nil => exact (get_short_append [] key t).symm
  | cons a k => rfl

/-- The branch node with two children. -/
def branch (b : Fin (n + 1)) (s : Tree n β) (a : Fin (n + 1)) (t : Tree n β) : Tree n β :=
  .full (update (update (fun _ => .nil) b s) a t)

/-- Whether there is anything below. -/
def nonNil : Tree n β → Bool
  | .nil => false
  | _ => true

theorem nonNil_iff : t.nonNil = true ↔ t ≠ .nil := by
  cases t <;> simp [nonNil]

/-! ## Update and erasure -/

/-- The tree with `v` at a key. -/
def insert (v : β) : Tree n β → Key n → Tree n β
  | _, [] => .value v
  | .nil, a :: key => .short (a :: key) (.value v)
  | .value w, _ :: _ => .value w
  | .short k t, a :: key =>
    if prefixLen (a :: key) k = k.length then
      .short k (insert v t ((a :: key).drop k.length))
    else
      match k.drop (prefixLen (a :: key) k), (a :: key).drop (prefixLen (a :: key) k) with
      | b :: y, c :: x =>
        ext ((a :: key).take (prefixLen (a :: key) k)) (branch b (ext y t) c (ext x (.value v)))
      | _, _ => .short k t
  | .full c, a :: key => .full (update c a (insert v (c a) key))

/-- A branch node that may have lost a child: with one child left it becomes a short node. -/
def collapse (c : Fin (n + 1) → Tree n β) : Tree n β :=
  match (List.finRange (n + 1)).filter (fun a => (c a).nonNil) with
  | [a] =>
    match c a with
    | .short k t => if a = Fin.last n then .short [a] (.short k t) else .short (a :: k) t
    | t => .short [a] t
  | _ => .full c

/-- A skipped word in front of a tree, merged with the word the tree itself skips. -/
def join (k : Key n) : Tree n β → Tree n β
  | .short k' t => .short (k ++ k') t
  | t => .short k t

/-- The tree without a key. -/
def delete : Tree n β → Key n → Tree n β
  | .nil, _ => .nil
  | .value _, _ => .nil
  | .short k t, key =>
    if prefixLen key k < k.length then .short k t
    else if prefixLen key k = key.length then .nil
    else join k (delete t (key.drop k.length))
  | .full c, [] => .full c
  | .full c, a :: key => collapse (update c a (delete (c a) key))

/-! ## Well-formed trees -/

/-- A nonempty tree in canonical shape with all its values in `P`: short nodes skip as much as they
can, branch nodes have at least two children, and values stand right behind a terminator. -/
inductive Wf (P : β → Prop) : Tree n β → Prop where
  | leaf {k : Key n} {v : β} : Terminated k → P v → Wf P (.short k (.value v))
  | ext {k : Key n} {c : Fin (n + 1) → Tree n β} :
      k ≠ [] → Fin.last n ∉ k → Wf P (.full c) → Wf P (.short k (.full c))
  | full {c : Fin (n + 1) → Tree n β} :
      (∃ a b, a ≠ b ∧ c a ≠ .nil ∧ c b ≠ .nil) →
      (∀ a, a ≠ Fin.last n → c a ≠ .nil → Wf P (c a)) →
      (c (Fin.last n) ≠ .nil → ∃ v, P v ∧ c (Fin.last n) = .value v) → Wf P (.full c)

/-- A possibly empty tree in canonical shape. -/
def Canonical (P : β → Prop) (t : Tree n β) : Prop := t = .nil ∨ Wf P t

variable {P : β → Prop}

theorem canonical_nil : Canonical P (nil : Tree n β) := .inl rfl

theorem Wf.ne_nil (h : Wf P t) : t ≠ .nil := by
  cases h <;> simp

/-- A child of a full node is canonical, -/
theorem Wf.child (h : Wf P (.full c)) (ha : a ≠ Fin.last n) : Canonical P (c a) := by
  obtain _ | _ | ⟨-, hc, -⟩ := h
  by_cases hnil : c a = .nil
  · exact .inl hnil
  · exact .inr (hc a ha hnil)

/-- …the one at the terminator at most a value, -/
theorem Wf.child_last (h : Wf P (.full c)) :
    c (Fin.last n) = .nil ∨ ∃ v, P v ∧ c (Fin.last n) = .value v := by
  obtain _ | _ | ⟨-, -, hlast⟩ := h
  by_cases hnil : c (Fin.last n) = .nil
  · exact .inl hnil
  · exact .inr (hlast hnil)

/-- …and at least two are there. -/
theorem Wf.two (h : Wf P (.full c)) : ∃ a b, a ≠ b ∧ c a ≠ .nil ∧ c b ≠ .nil := by
  obtain _ | _ | ⟨htwo, -, -⟩ := h
  exact htwo

/-- What a branch node may hold at letter `a`: a value behind the terminator, a nonempty subtree
behind every other letter. -/
def Child (P : β → Prop) (a : Fin (n + 1)) (t : Tree n β) : Prop :=
  (a = Fin.last n ∧ ∃ v, P v ∧ t = .value v) ∨ (a ≠ Fin.last n ∧ Wf P t)

theorem Child.ne_nil (h : Child P a t) : t ≠ .nil := by
  obtain ⟨-, v, -, rfl⟩ | ⟨-, h⟩ := h
  · simp
  · exact h.ne_nil

/-- A branch node is well formed when its children are and there are two of them. -/
theorem wf_full (htwo : ∃ a b, a ≠ b ∧ c a ≠ .nil ∧ c b ≠ .nil)
    (hc : ∀ a, c a = .nil ∨ Child P a (c a)) : Wf P (.full c) := by
  refine .full htwo (fun a ha hnil => ?_) fun hnil => ?_
  · obtain h | ⟨h, -⟩ | ⟨-, h⟩ := hc a
    · exact absurd h hnil
    · exact absurd h ha
    · exact h
  · obtain h | ⟨-, h⟩ | ⟨h, -⟩ := hc (Fin.last n)
    · exact absurd h hnil
    · exact h
    · exact absurd rfl h

theorem Wf.child_or_nil (h : Wf P (.full c)) (a : Fin (n + 1)) : c a = .nil ∨ Child P a (c a) := by
  by_cases ha : a = Fin.last n
  · subst ha
    exact h.child_last.imp id fun hv => .inl ⟨rfl, hv⟩
  · exact (h.child ha).imp id fun hw => .inr ⟨ha, hw⟩

/-- Replacing a child by a nonempty one keeps a branch node well formed. -/
theorem Wf.replace (h : Wf P (.full c)) (ht : Child P a t) : Wf P (.full (update c a t)) := by
  have keep : ∀ b, c b ≠ .nil → update c a t b ≠ .nil := by
    intro b hb
    by_cases hba : b = a
    · subst hba
      rw [update_self]
      exact ht.ne_nil
    · rwa [update_of_ne hba]
  obtain ⟨x, y, hxy, hx, hy⟩ := h.two
  refine wf_full ⟨x, y, hxy, keep x hx, keep y hy⟩ fun b => ?_
  by_cases hba : b = a
  · subst hba
    rw [update_self]
    exact .inr ht
  · rw [update_of_ne hba]
    exact h.child_or_nil b

/-- Two children that are there make a branch. -/
theorem wf_branch {s : Tree n β} (hab : a ≠ b) (hs : Child P b s) (ht : Child P a t) :
    Wf P (branch b s a t) := by
  refine wf_full ⟨b, a, hab.symm, ?_, ?_⟩ fun x => ?_
  · rw [update_of_ne hab.symm, update_self]
    exact hs.ne_nil
  · rw [update_self]
    exact ht.ne_nil
  · by_cases hxa : x = a
    · subst hxa
      rw [update_self]
      exact .inr ht
    by_cases hxb : x = b
    · subst hxb
      rw [update_of_ne hxa, update_self]
      exact .inr hs
    · rw [update_of_ne hxa, update_of_ne hxb]
      exact .inl rfl

/-- An extension of a branch is well formed. -/
theorem wf_ext (hp : Fin.last n ∉ p) (h : Wf P (.full c)) : Wf P (ext p (.full c)) := by
  by_cases hnil : p = []
  · rwa [hnil, ext_nil]
  · rw [ext_of_ne_nil hnil]
    exact .ext hnil hp h

/-- What hangs behind a letter of the word a short node skips. -/
theorem Wf.tail (h : Wf P (.short (p ++ b :: y) t)) :
    Fin.last n ∉ p ∧ Child P b (Tree.ext y t) := by
  cases h with
  | @leaf _ v hk hv =>
    have hp := hk.last_notMem (List.cons_ne_nil b y)
    refine ⟨hp, ?_⟩
    rw [terminated_append hp] at hk
    by_cases hb : b = Fin.last n
    · subst hb
      rw [terminated_last] at hk
      subst hk
      exact .inl ⟨rfl, v, hv, rfl⟩
    · rw [terminated_cons hb] at hk
      rw [ext_of_ne_nil hk.ne_nil]
      exact .inr ⟨hb, .leaf hk hv⟩
  | ext _ hlast hw =>
    rw [List.mem_append, not_or, List.mem_cons, not_or] at hlast
    exact ⟨hlast.1, .inr ⟨Ne.symm hlast.2.1, wf_ext hlast.2.2 hw⟩⟩

/-- The new leaf of an insertion. -/
theorem child_leaf (hk : Terminated (a :: x)) (hv : P v) : Child P a (ext x (.value v)) := by
  by_cases ha : a = Fin.last n
  · subst ha
    rw [terminated_last] at hk
    subst hk
    exact .inl ⟨rfl, v, hv, rfl⟩
  · rw [terminated_cons ha] at hk
    rw [ext_of_ne_nil hk.ne_nil]
    exact .inr ⟨ha, .leaf hk hv⟩

/-! ## Insertion is update -/

@[simp] theorem insert_nil_key (v : β) (t : Tree n β) : t.insert v [] = .value v := by
  cases t <;> rfl

theorem insert_nil (v : β) (h : key ≠ []) :
    (nil : Tree n β).insert v key = .short key (.value v) := by
  cases key with
  | nil => exact absurd rfl h
  | cons a key => rfl

/-- **Insertion below a short node.** -/
theorem insert_short_append (v : β) (hk : k ≠ []) (t : Tree n β) (key : Key n) :
    (short k t).insert v (k ++ key) = .short k (t.insert v key) := by
  have hlen : prefixLen (k ++ key) k = k.length := by
    simpa using prefixLen_append k key []
  obtain ⟨a, k', rfl⟩ := List.exists_cons_of_ne_nil hk
  rw [List.cons_append] at hlen ⊢
  rw [insert, if_pos hlen, ← List.cons_append, List.drop_left]

/-- Where the key leaves the skipped word, a branch node is put in. -/
theorem insert_short_branch (v : β) (hab : a ≠ b) (t : Tree n β) :
    (short (p ++ b :: y) t).insert v (p ++ a :: x)
      = ext p (branch b (ext y t) a (ext x (.value v))) := by
  have hlen : prefixLen (p ++ a :: x) (p ++ b :: y) = p.length :=
    prefixLen_of_ne hab p x y
  have hne : ¬ p.length = (p ++ b :: y).length := by
    rw [List.length_append, List.length_cons]
    omega
  obtain ⟨d, key, hkey⟩ := List.exists_cons_of_ne_nil
    (show p ++ a :: x ≠ [] from List.append_ne_nil_of_right_ne_nil p (List.cons_ne_nil a x))
  rw [hkey] at hlen ⊢
  rw [insert, hlen, if_neg hne, ← hkey, List.drop_left, List.drop_left, List.take_left]

theorem get_short_value (x : Key n) (v : β) (r : Key n) :
    (short x (value v)).get r = if r = x then some v else none := by
  by_cases h : x <+: r
  · obtain ⟨s, rfl⟩ := h
    rw [get_short_append, get]
    simp only [List.append_right_eq_self]
  · rw [get_short_of_forall_ne h, if_neg]
    rintro rfl
    exact h List.prefix_rfl

theorem get_short_append_append (p k r : Key n) (t : Tree n β) :
    (short (p ++ k) t).get (p ++ r) = (short k t).get r := by
  by_cases h : k <+: r
  · obtain ⟨s, rfl⟩ := h
    rw [← List.append_assoc, get_short_append, get_short_append]
  · rw [get_short_of_forall_ne h, get_short_of_forall_ne]
    rwa [List.prefix_append_right_inj]

/-- A branch reads as the two trees that are put into it. -/
theorem get_branch (p x y : Key n) (hab : a ≠ b) (t : Tree n β) (v : β) (key : Key n) :
    (ext p (branch b (ext y t) a (ext x (.value v)))).get key
      = if key = p ++ a :: x then some v else (short (p ++ b :: y) t).get key := by
  rw [get_ext]
  by_cases hp : p <+: key
  · obtain ⟨r, rfl⟩ := hp
    rw [get_short_append, get_short_append_append]
    simp only [List.append_cancel_left_eq]
    cases r with
    | nil => simp [branch, get]
    | cons c r =>
      rw [branch, get_full_cons]
      by_cases hca : c = a
      · subst hca
        have hnot : ¬ b :: y <+: c :: r := fun h => hab (List.cons_prefix_cons.mp h).1.symm
        rw [update_self, get_ext, get_short_value, get_short_of_forall_ne hnot]
        simp only [List.cons.injEq, true_and]
      · rw [update_of_ne hca, if_neg (fun h => hca (List.cons.inj h).1)]
        by_cases hcb : c = b
        · subst hcb
          rw [update_self, get_ext]
          exact (get_short_append_append [c] y r t).symm
        · have hnot : ¬ b :: y <+: c :: r := fun h => hcb (List.cons_prefix_cons.mp h).1.symm
          rw [update_of_ne hcb, get_short_of_forall_ne hnot, get_nil]
  · have h1 : key ≠ p ++ a :: x := fun h => hp (h ▸ List.prefix_append p _)
    have h2 : ¬ p ++ b :: y <+: key := fun h => hp ((List.prefix_append p _).trans h)
    rw [get_short_of_forall_ne hp, if_neg h1, get_short_of_forall_ne h2]

/-- A key either runs through the whole skipped word or leaves it at some letter. -/
theorem exists_split_of_terminated (hkey : Terminated key) (hk : Terminated k ∨ Fin.last n ∉ k) :
    (∃ key', key = k ++ key') ∨ ∃ p a b x y, a ≠ b ∧ key = p ++ a :: x ∧ k = p ++ b :: y := by
  obtain ⟨p, key', k', rfl, rfl, rfl | rfl | ⟨a, b, x, y, rfl, rfl, hab⟩⟩ :=
    exists_prefix_split key k
  · refine .inl ⟨[], ?_⟩
    rw [List.append_nil] at hkey ⊢
    rcases hk with hk | hk
    · rw [hkey.eq_nil_of_append hk, List.append_nil, List.append_nil]
    · rw [List.mem_append, not_or] at hk
      rw [← List.append_nil p, terminated_append hk.1] at hkey
      exact hkey.elim
  · exact .inl ⟨key', by rw [List.append_nil]⟩
  · exact .inr ⟨p, a, b, x, y, hab, rfl, rfl⟩

/-- **The way of a key** down a canonical tree: it ends at a value, leaves the tree at an empty
child or in a skipped word, or goes on below. -/
inductive Way (P : β → Prop) : Tree n β → Key n → Prop where
  | nil {key : Key n} : Way P .nil key
  | value {v : β} : Way P (.value v) []
  | leaf {k : Key n} {v : β} : Terminated k → P v → Way P (.short k (.value v)) k
  | ext {k key : Key n} {c : Fin (n + 1) → Tree n β} : k ≠ [] → Fin.last n ∉ k → Wf P (.full c) →
      Terminated key → Way P (.full c) key → Way P (.short k (.full c)) (k ++ key)
  | branch {p x y : Key n} {a b : Fin (n + 1)} {t : Tree n β} : a ≠ b →
      Wf P (.short (p ++ b :: y) t) → Terminated (p ++ a :: x) →
      Way P (.short (p ++ b :: y) t) (p ++ a :: x)
  | full {c : Fin (n + 1) → Tree n β} {a : Fin (n + 1)} {key : Key n} : Wf P (.full c) →
      Terminated (a :: key) → Way P (c a) key → Way P (.full c) (a :: key)

/-- Every terminated key has its way through a canonical tree. -/
theorem Canonical.way (h : Canonical P t) (hkey : Terminated key) : Way P t key := by
  rcases h with rfl | h
  · exact .nil
  induction h generalizing key with
  | @leaf k v hk hv =>
    obtain ⟨r, rfl⟩ | ⟨p, a, b, x, y, hab, rfl, rfl⟩ := exists_split_of_terminated hkey (.inl hk)
    · obtain rfl := hk.eq_nil_of_append hkey
      rw [List.append_nil]
      exact .leaf hk hv
    · exact .branch hab (.leaf hk hv) hkey
  | @ext k c hne hlast hw ih =>
    obtain ⟨r, rfl⟩ | ⟨p, a, b, x, y, hab, rfl, rfl⟩ := exists_split_of_terminated hkey (.inr hlast)
    · rw [terminated_append hlast] at hkey
      exact .ext hne hlast hw hkey (ih hkey)
    · exact .branch hab (.ext hne hlast hw) hkey
  | @full c htwo hc hlast ih =>
    have hw : Wf P (.full c) := .full htwo hc hlast
    obtain ⟨a, key, rfl⟩ := List.exists_cons_of_ne_nil hkey.ne_nil
    refine .full hw hkey ?_
    by_cases ha : a = Fin.last n
    · subst ha
      rw [terminated_last] at hkey
      subst hkey
      obtain h | ⟨v, -, h⟩ := hw.child_last
      · rw [h]
        exact .nil
      · rw [h]
        exact .value
    · rw [terminated_cons ha] at hkey
      by_cases hnil : c a = .nil
      · rw [hnil]
        exact .nil
      · exact ih a ha hnil hkey

theorem insert_short_self (v w : β) (hk : k ≠ []) :
    (short k (value w)).insert v k = .short k (.value v) := by
  have h := insert_short_append v hk (value w) []
  rwa [List.append_nil, insert_nil_key] at h

/-- **Insertion keeps trees canonical.** -/
theorem wf_insert (h : Canonical P t) (hkey : Terminated key) (hv : P v) :
    Wf P (t.insert v key) := by
  induction h.way hkey with
  | nil =>
    rw [insert_nil v hkey.ne_nil]
    exact .leaf hkey hv
  | value => exact absurd rfl hkey.ne_nil
  | leaf hk hw =>
    rw [insert_short_self v _ hk.ne_nil]
    exact .leaf hk hv
  | ext hne hlast hw hkey' _ ih =>
    rw [insert_short_append v hne]
    obtain ⟨a, key', rfl⟩ := List.exists_cons_of_ne_nil hkey'.ne_nil
    exact .ext hne hlast (ih (.inr hw) hkey')
  | branch hab hw _ =>
    obtain ⟨hp, hb⟩ := hw.tail
    rw [insert_short_branch v hab]
    rw [terminated_append hp] at hkey
    exact wf_ext hp (wf_branch hab hb (child_leaf hkey hv))
  | @full c a key hw _ _ ih =>
    refine hw.replace ?_
    by_cases ha : a = Fin.last n
    · rw [ha, terminated_last] at hkey
      exact .inl ⟨ha, v, hv, by rw [hkey, insert_nil_key]⟩
    · rw [terminated_cons ha] at hkey
      exact .inr ⟨ha, ih (hw.child ha) hkey⟩

/-- A change of one key below a skipped word. -/
theorem get_short_change {o : Option β}
    (h : ∀ key', t'.get key' = if key' = key then o else t.get key') (k key' : Key n) :
    (short k t').get key' = if key' = k ++ key then o else (short k t).get key' := by
  by_cases hpre : k <+: key'
  · obtain ⟨s, rfl⟩ := hpre
    rw [get_short_append, get_short_append, h]
    simp only [List.append_cancel_left_eq]
  · have hkk : key' ≠ k ++ key := fun h => hpre (h ▸ List.prefix_append k key)
    rw [get_short_of_forall_ne hpre, get_short_of_forall_ne hpre, if_neg hkk]

/-- A change of one child changes one key. -/
theorem get_full_change {o : Option β}
    (h : ∀ key', t'.get key' = if key' = key then o else (c a).get key') (key' : Key n) :
    (full (update c a t')).get key'
      = if key' = a :: key then o else (full c).get key' := by
  cases key' with
  | nil => rw [get_full_nil, if_neg (List.cons_ne_nil a key).symm, get_full_nil]
  | cons b key' =>
    rw [get_full_cons, get_full_cons]
    by_cases hba : b = a
    · subst hba
      rw [update_self, h]
      simp only [List.cons.injEq, true_and]
    · rw [update_of_ne hba, if_neg (fun h => hba (List.cons.inj h).1)]

/-- **Insertion is the update of the map.** -/
theorem get_insert (h : Canonical P t) (hkey : Terminated key) (key' : Key n) :
    (t.insert v key).get key' = if key' = key then some v else t.get key' := by
  have hway := h.way hkey
  clear h hkey
  induction hway generalizing key' with
  | @nil key =>
    cases key with
    | nil => rfl
    | cons a key => rw [insert_nil v (List.cons_ne_nil a key), get_short_value, get_nil]
  | value =>
    rw [insert_nil_key, get, get]
    split <;> rfl
  | leaf hk hw =>
    rw [insert_short_self v _ hk.ne_nil, get_short_value, get_short_value]
    split <;> rfl
  | ext hne _ _ _ _ ih =>
    rw [insert_short_append v hne]
    exact get_short_change ih _ key'
  | branch hab _ _ => rw [insert_short_branch v hab, get_branch _ _ _ hab]
  | full _ _ _ ih => exact get_full_change ih key'

/-! ## Deletion is erasure -/

/-- A branch node with children, read as a map, does not change when it is collapsed. -/
theorem get_collapse (c : Fin (n + 1) → Tree n β) (hlast : ∀ k t, c (Fin.last n) ≠ .short k t)
    (key : Key n) : (collapse c).get key = (full c).get key := by
  unfold collapse
  split
  · next a ha =>
    have hnil : ∀ b, b ≠ a → c b = .nil := by
      intro b hb
      by_contra hne
      have hmem : b ∈ (List.finRange (n + 1)).filter (fun a => (c a).nonNil) :=
        List.mem_filter.mpr ⟨List.mem_finRange b, nonNil_iff.mpr hne⟩
      rw [ha, List.mem_singleton] at hmem
      exact hb hmem
    have hone : ∀ t, c a = t → (short [a] t).get key = (full c).get key := by
      rintro t rfl
      cases key with
      | nil => exact get_short_of_forall_ne (by simp) _
      | cons b key =>
        rw [get_full_cons]
        by_cases hb : b = a
        · subst hb
          exact get_short_append [b] key (c b)
        · rw [hnil b hb, get_nil, get_short_of_forall_ne]
          exact fun h => hb (List.cons_prefix_cons.mp h).1.symm
    split
    · next k t hk =>
      rw [if_neg (fun h : a = Fin.last n => hlast k t (h ▸ hk)), ← hone _ hk]
      cases key with
      | nil => rfl
      | cons b key =>
        by_cases hb : a = b
        · subst hb
          exact (get_short_append_append [a] k key t).trans (get_short_append [a] key _).symm
        · rw [get_short_of_forall_ne, get_short_of_forall_ne]
          · exact fun h => hb (List.cons_prefix_cons.mp h).1
          · exact fun h => hb (List.cons_prefix_cons.mp h).1
    · exact hone _ rfl
  · rfl

/-- Collapsing gives a nonempty canonical tree when a child is left. -/
theorem wf_collapse (hone : ∃ a, c a ≠ .nil) (hc : ∀ a, c a = .nil ∨ Child P a (c a)) :
    Wf P (collapse c) := by
  unfold collapse
  split
  · next a ha =>
    have hmem : a ∈ (List.finRange (n + 1)).filter (fun a => (c a).nonNil) := by
      rw [ha]
      exact List.mem_singleton_self a
    have hchild : Child P a (c a) :=
      (hc a).resolve_left (nonNil_iff.mp (List.mem_filter.mp hmem).2)
    obtain ⟨rfl, v, hv, hval⟩ | ⟨hlast, hw⟩ := hchild
    · rw [hval]
      exact .leaf ((terminated_last []).mpr rfl) hv
    · cases h : c a with
      | nil => exact absurd h hw.ne_nil
      | value v =>
        rw [h] at hw
        cases hw
      | short k t =>
        simp only [if_neg hlast]
        rw [h] at hw
        cases hw with
        | leaf hk hv => exact .leaf ((terminated_cons hlast k).mpr hk) hv
        | ext hne hk hf =>
          refine .ext (List.cons_ne_nil a k) ?_ hf
          rw [List.mem_cons, not_or]
          exact ⟨Ne.symm hlast, hk⟩
      | full d =>
        rw [h] at hw
        exact .ext (List.cons_ne_nil a []) (by simpa using Ne.symm hlast) hw
  · next hne =>
    refine wf_full ?_ hc
    obtain ⟨a, ha⟩ := hone
    have hnodup : ((List.finRange (n + 1)).filter (fun a => (c a).nonNil)).Nodup :=
      (List.nodup_finRange (n + 1)).filter _
    have hmem : ∀ b, b ∈ (List.finRange (n + 1)).filter (fun a => (c a).nonNil) → c b ≠ .nil :=
      fun b hb => nonNil_iff.mp (List.mem_filter.mp hb).2
    have hain : a ∈ (List.finRange (n + 1)).filter (fun a => (c a).nonNil) :=
      List.mem_filter.mpr ⟨List.mem_finRange a, nonNil_iff.mpr ha⟩
    generalize (List.finRange (n + 1)).filter (fun a => (c a).nonNil) = l at *
    match l with
    | [] => exact absurd hain List.not_mem_nil
    | [b] => exact absurd rfl (hne b)
    | x :: y :: l =>
      refine ⟨x, y, ?_, hmem x (by simp), hmem y (by simp)⟩
      rintro rfl
      exact (List.nodup_cons.mp hnodup).1 (by simp)

/-- A short node above a well-formed tree is joined with it… -/
theorem wf_join (hne : k ≠ []) (hlast : Fin.last n ∉ k) (h : Wf P t) : Wf P (join k t) := by
  cases h with
  | leaf hk hv => exact .leaf ((terminated_append hlast _).mpr hk) hv
  | ext hk hl hf =>
    refine .ext (List.append_ne_nil_of_left_ne_nil hne _) ?_ hf
    rw [List.mem_append, not_or]
    exact ⟨hlast, hl⟩
  | full htwo hc hl => exact .ext hne hlast (.full htwo hc hl)

/-- …and reads the same. -/
theorem get_join (k : Key n) (t : Tree n β) (key : Key n) :
    (join k t).get key = (short k t).get key := by
  cases t with
  | short k' t =>
    rw [join]
    by_cases h : k <+: key
    · obtain ⟨r, rfl⟩ := h
      rw [get_short_append_append, get_short_append]
    · rw [get_short_of_forall_ne h,
        get_short_of_forall_ne fun h' => h ((List.prefix_append k k').trans h')]
  | _ => rfl

/-- Deletion at the end of a short node removes it… -/
theorem delete_short_self (k : Key n) (t : Tree n β) : (short k t).delete k = .nil := by
  have hlen : prefixLen k k = k.length := by simpa using prefixLen_append k [] []
  rw [delete, hlen, if_neg (lt_irrefl _), if_pos rfl]

/-- …below it leaves what is joined again… -/
theorem delete_short_append (k : Key n) (t : Tree n β) (h : key ≠ []) :
    (short k t).delete (k ++ key) = join k (t.delete key) := by
  have hlen : prefixLen (k ++ key) k = k.length := by simpa using prefixLen_append k key []
  have hpos := List.length_pos_iff.mpr h
  rw [delete, hlen, if_neg (lt_irrefl _), if_neg, List.drop_left]
  rw [List.length_append]
  omega

/-- …and beside it does nothing. -/
theorem delete_short_branch (hab : a ≠ b) (t : Tree n β) :
    (short (p ++ b :: y) t).delete (p ++ a :: x) = .short (p ++ b :: y) t := by
  have hlen : prefixLen (p ++ a :: x) (p ++ b :: y) = p.length :=
    prefixLen_of_ne hab p x y
  rw [delete, hlen, if_pos]
  rw [List.length_append, List.length_cons]
  omega

/-- The children left after one of them has been replaced by a canonical, possibly empty tree. -/
theorem child_or_nil_update (h : Wf P (.full c)) (ht : t = .nil ∨ Child P a t) (b : Fin (n + 1)) :
    update c a t b = .nil ∨ Child P b (update c a t b) := by
  by_cases hb : b = a
  · subst hb
    rwa [update_self]
  · rw [update_of_ne hb]
    exact h.child_or_nil b

/-- After one child of a full node is changed, another is still there. -/
theorem exists_child_update (h : Wf P (.full c)) (a : Fin (n + 1)) (t : Tree n β) :
    ∃ b, update c a t b ≠ .nil := by
  obtain ⟨x, y, hxy, hx, hy⟩ := h.two
  by_cases hxa : x = a
  · exact ⟨y, by rwa [update_of_ne (fun h => hxy (hxa.trans h.symm))]⟩
  · exact ⟨x, by rwa [update_of_ne hxa]⟩

/-- Deleting below a branch node leaves nothing or a child that may stand there. -/
theorem Wf.child_delete_of (h : Wf P (.full c))
    (hc : a ≠ Fin.last n → Canonical P ((c a).delete key)) :
    (c a).delete key = .nil ∨ Child P a ((c a).delete key) := by
  by_cases ha : a = Fin.last n
  · subst ha
    obtain h | ⟨v, -, h⟩ := h.child_last
    · exact .inl (by rw [h, delete])
    · exact .inl (by rw [h, delete])
  · exact (hc ha).imp id fun h => .inr ⟨ha, h⟩

/-- Deleting keeps trees canonical, and a branch node never becomes empty. -/
theorem canonical_delete_aux (h : Way P t key) :
    Canonical P (t.delete key) ∧ ∀ c, t = .full c → Wf P (t.delete key) := by
  induction h with
  | nil | value => exact ⟨canonical_nil, nofun⟩
  | leaf hk hv =>
    rw [delete_short_self]
    exact ⟨canonical_nil, nofun⟩
  | @ext k key c hne hlast hw hkey _ ih =>
    rw [delete_short_append k _ hkey.ne_nil]
    exact ⟨.inr (wf_join hne hlast (ih.2 c rfl)), nofun⟩
  | branch hab hw _ =>
    rw [delete_short_branch hab]
    exact ⟨.inr hw, nofun⟩
  | @full c a key hw _ _ ih =>
    have hres : Wf P ((full c).delete (a :: key)) := wf_collapse (exists_child_update hw a _)
      (child_or_nil_update hw (hw.child_delete_of fun _ => ih.1))
    exact ⟨.inr hres, fun _ _ => hres⟩

/-- **Deletion keeps trees canonical.** -/
theorem canonical_delete (h : Canonical P t) (hkey : Terminated key) : Canonical P (t.delete key) :=
  (canonical_delete_aux (h.way hkey)).1

theorem Wf.child_delete (h : Wf P (.full c)) (hkey : Terminated (a :: key)) :
    (c a).delete key = .nil ∨ Child P a ((c a).delete key) :=
  h.child_delete_of fun ha => canonical_delete (h.child ha) ((terminated_cons ha key).mp hkey)

/-- The terminator's child of a branch node is never a short node. -/
theorem update_last_ne_short (h : Wf P (.full c)) (a : Fin (n + 1)) (key : Key n) (k : Key n)
    (t : Tree n β) :
    update c a ((c a).delete key) (Fin.last n) ≠ .short k t := by
  obtain hl | ⟨v, -, hl⟩ := h.child_last
  all_goals
    by_cases ha : Fin.last n = a
    · subst ha
      rw [update_self, hl, delete]
      simp
    · rw [update_of_ne ha, hl]
      simp

/-- **Deletion is the erasure of the map.** -/
theorem get_delete (h : Canonical P t) (hkey : Terminated key) (key' : Key n) :
    (t.delete key).get key' = if key' = key then none else t.get key' := by
  have hway := h.way hkey
  clear h hkey
  induction hway generalizing key' with
  | nil => rw [delete, get_nil, ite_self]
  | value =>
    rw [delete, get_nil, get]
    split <;> rfl
  | leaf hk hw =>
    rw [delete_short_self, get_nil, get_short_value]
    split <;> rfl
  | @ext k key c _ _ _ hkey _ ih =>
    rw [delete_short_append k _ hkey.ne_nil, get_join]
    exact get_short_change ih k key'
  | @branch p x y a b t hab _ _ =>
    rw [delete_short_branch hab]
    by_cases hkk : key' = p ++ a :: x
    · have hnot : ¬ p ++ b :: y <+: key' := by
        rw [hkk, List.prefix_append_right_inj]
        exact fun h => hab (List.cons_prefix_cons.mp h).1.symm
      rw [if_pos hkk, get_short_of_forall_ne hnot]
    · rw [if_neg hkk]
  | @full c a key hw _ _ ih =>
    rw [delete, get_collapse _ (update_last_ne_short hw a key)]
    exact get_full_change ih key'

/-! ## Canonical trees are determined by their map -/

/-- A nonempty canonical tree holds a value. -/
theorem Wf.exists_get (h : Wf P t) : ∃ key v, t.get key = some v := by
  induction h with
  | @leaf k v hk hv => exact ⟨k, v, get_short_self k v⟩
  | @ext k c hne hlast hw ih =>
    obtain ⟨key, v, h⟩ := ih
    exact ⟨k ++ key, v, (get_short_append k key _).trans h⟩
  | @full c htwo hc hlast ih =>
    obtain ⟨a, -, -, ha, -⟩ := htwo
    by_cases hal : a = Fin.last n
    · subst hal
      obtain ⟨v, -, hv⟩ := hlast ha
      exact ⟨[Fin.last n], v, by rw [get_full_cons, hv, get, if_pos rfl]⟩
    · obtain ⟨key, v, h⟩ := ih a hal ha
      exact ⟨a :: key, v, h⟩

/-- The values of a canonical tree are those it may hold. -/
theorem Wf.of_get (h : Wf P t) (hget : t.get key = some v) : P v := by
  induction h generalizing key with
  | @leaf k w hk hw =>
    rw [get, get] at hget
    split at hget
    · split at hget
      · exact Option.some.inj hget ▸ hw
      · cases hget
    · cases hget
  | @ext k c hne hlast hw ih =>
    rw [get] at hget
    split at hget
    · exact ih hget
    · cases hget
  | @full c htwo hc hlast ih =>
    cases key with
    | nil => cases hget
    | cons a key =>
      rw [get_full_cons] at hget
      have hnil : c a ≠ .nil := fun h => by
        rw [h] at hget
        cases hget
      by_cases ha : a = Fin.last n
      · subst ha
        obtain ⟨w, hw, hlast⟩ := hlast hnil
        rw [hlast, get] at hget
        split at hget
        · exact Option.some.inj hget ▸ hw
        · cases hget
      · exact ih a ha hnil hget

/-- A child has some key. -/
theorem Child.exists_get (h : Child P a t) : ∃ key v, t.get key = some v := by
  obtain ⟨-, v, -, rfl⟩ | ⟨-, h⟩ := h
  · exact ⟨[], v, if_pos rfl⟩
  · exact h.exists_get

theorem Wf.get_ne_none (h : Wf P t) : ¬ ∀ key, t.get key = none := fun hnone => by
  obtain ⟨key, v, hv⟩ := h.exists_get
  exact Option.some_ne_none v (hv.symm.trans (hnone key))

theorem Child.get_ne_none (h : Child P a t) : ¬ ∀ key, t.get key = none := fun hnone => by
  obtain ⟨key, v, hv⟩ := h.exists_get
  exact Option.some_ne_none v (hv.symm.trans (hnone key))

/-- A branch node holds keys with two different first letters, a short node does not. -/
theorem Wf.full_ne_short (h : Wf P (.full c)) (hk : k ≠ []) (t : Tree n β) :
    ¬ ∀ key, (Tree.full c).get key = (short k t).get key := by
  intro heq
  obtain ⟨d, k, rfl⟩ := List.exists_cons_of_ne_nil hk
  have first : ∀ a, c a ≠ .nil → a = d := by
    intro a ha
    obtain ⟨key, v, hv⟩ := ((h.child_or_nil a).resolve_left ha).exists_get
    by_contra had
    have hnot : ¬ d :: k <+: a :: key := fun hp => had (List.cons_prefix_cons.mp hp).1.symm
    have hkey := heq (a :: key)
    rw [get_full_cons, hv, get_short_of_forall_ne hnot] at hkey
    exact Option.some_ne_none v hkey
  obtain ⟨a, b, hab, ha, hb⟩ := h.two
  exact hab ((first a ha).trans (first b hb).symm)

/-- A value does not read as a short node. -/
theorem value_ne_short (v : β) (hk : k ≠ []) (t : Tree n β) :
    ¬ ∀ key, (value v).get key = (short k t).get key := by
  intro heq
  have h := heq []
  rw [get, if_pos rfl, get_short_of_forall_ne (by simpa using hk)] at h
  exact Option.some_ne_none v h

/-- The words skipped by two short nodes with the same map agree. -/
theorem short_word_eq {k' : Key n} (h : Wf P (.short k t)) (h' : Wf P (.short k' t'))
    (heq : ∀ key, (short k t).get key = (short k' t').get key) : k = k' := by
  have key : ∀ {k k' : Key n} {t t' : Tree n β}, Wf P (.short k t) → k' ≠ [] →
      (∀ key, (short k t).get key = (short (k ++ k') t').get key) → False := by
    intro k k' t t' h hk' heq
    have heq' : ∀ r, t.get r = (short k' t').get r := fun r => by
      rw [← get_short_append k r t, heq, get_short_append_append]
    cases h with
    | leaf hk hv => exact value_ne_short _ hk' t' heq'
    | ext hne hlast hw => exact hw.full_ne_short hk' t' heq'
  obtain ⟨p, x, y, rfl, rfl, hor⟩ := exists_prefix_split k k'
  by_cases hx : x = []
  · subst hx
    by_cases hy : y = []
    · rw [hy]
    · rw [List.append_nil] at h heq
      exact (key h hy heq).elim
  by_cases hy : y = []
  · subst hy
    rw [List.append_nil] at h' heq
    exact (key h' hx fun r => (heq r).symm).elim
  obtain ⟨a, b, xs, ys, rfl, rfl, hab⟩ := (hor.resolve_left hx).resolve_left hy
  obtain ⟨r, v, hv⟩ := h.exists_get
  have hpre : p ++ a :: xs <+: r := by
    by_contra hnot
    rw [get_short_of_forall_ne hnot] at hv
    exact Option.some_ne_none v hv.symm
  have hpre' : p ++ b :: ys <+: r := by
    by_contra hnot
    rw [heq, get_short_of_forall_ne hnot] at hv
    exact Option.some_ne_none v hv.symm
  obtain ⟨s, rfl⟩ := hpre
  rw [List.append_assoc, List.prefix_append_right_inj] at hpre'
  exact absurd (List.cons_prefix_cons.mp hpre').1.symm hab

/-- **Nonempty canonical trees with the same map are equal.** -/
theorem Wf.ext_get (h : Wf P t) (h' : Wf P t') (heq : ∀ key, t.get key = t'.get key) : t = t' := by
  induction h generalizing t' with
  | @leaf k v hk hv =>
    cases h' with
    | @leaf k' v' hk' hv' =>
      obtain rfl := short_word_eq (.leaf hk hv) (.leaf hk' hv') heq
      have hself := heq k
      rw [get_short_self, get_short_self, Option.some.injEq] at hself
      rw [hself]
    | @ext k' c hne hlast hw =>
      obtain rfl := short_word_eq (.leaf hk hv) (.ext hne hlast hw) heq
      have hself := heq (k ++ [])
      rw [get_short_append, get_short_append, get, if_pos rfl, get_full_nil] at hself
      exact absurd hself (Option.some_ne_none v)
    | full htwo hc hl =>
      exact absurd (fun key => (heq key).symm) ((Wf.full htwo hc hl).full_ne_short hk.ne_nil _)
  | @ext k c hne hlast hw ih =>
    cases h' with
    | @leaf k' v hk' hv' =>
      obtain rfl := short_word_eq (.ext hne hlast hw) (.leaf hk' hv') heq
      have hself := heq (k ++ [])
      rw [get_short_append, get_short_append, get_full_nil, get, if_pos rfl] at hself
      exact absurd hself.symm (Option.some_ne_none v)
    | @ext k' c' hne' hlast' hw' =>
      obtain rfl := short_word_eq (.ext hne hlast hw) (.ext hne' hlast' hw') heq
      rw [ih hw' fun r => by rw [← get_short_append k r, heq, get_short_append]]
    | full htwo hc hl =>
      exact absurd (fun key => (heq key).symm) ((Wf.full htwo hc hl).full_ne_short hne _)
  | @full c htwo hc hlast ih =>
    have hw : Wf P (.full c) := .full htwo hc hlast
    cases h' with
    | leaf hk' hv' => exact absurd heq (hw.full_ne_short hk'.ne_nil _)
    | ext hne' hlast' hw' => exact absurd heq (hw.full_ne_short hne' _)
    | @full c' htwo' hc' hlast' =>
      have hw' : Wf P (.full c') := .full htwo' hc' hlast'
      have hchild : ∀ a key, (c a).get key = (c' a).get key := fun a key => heq (a :: key)
      congr 1
      funext a
      obtain hn | hca := hw.child_or_nil a <;> obtain hn' | hca' := hw'.child_or_nil a
      · rw [hn, hn']
      · exact absurd (fun key => by rw [← hchild, hn, get_nil]) hca'.get_ne_none
      · exact absurd (fun key => by rw [hchild, hn', get_nil]) hca.get_ne_none
      obtain ⟨ha, v, -, hval⟩ | ⟨ha, hwa⟩ := hca
      · obtain ⟨-, v', -, hval'⟩ | ⟨ha', -⟩ := hca'
        · have hnil := hchild a []
          rw [hval, hval', get, get, if_pos rfl, if_pos rfl, Option.some.injEq] at hnil
          rw [hval, hval', hnil]
        · exact absurd ha ha'
      · obtain ⟨ha', -⟩ | ⟨-, hwa'⟩ := hca'
        · exact absurd ha' ha
        · exact ih a ha hwa.ne_nil hwa' (hchild a)

/-- **Canonical trees with the same map are equal.** -/
theorem Canonical.ext_get (h : Canonical P t) (h' : Canonical P t')
    (heq : ∀ key, t.get key = t'.get key) : t = t' := by
  rcases h with rfl | h <;> rcases h' with rfl | h'
  · rfl
  · exact absurd (fun key => (heq key).symm) h'.get_ne_none
  · exact absurd heq h.get_ne_none
  · exact h.ext_get h' heq

/-- Canonical trees with the same values on some keys, and none elsewhere, are equal. -/
theorem Canonical.ext_on (h : Canonical P t) (h' : Canonical P t') {K : Set (Key n)}
    (honly : ∀ key v, t.get key = some v → key ∈ K)
    (honly' : ∀ key v, t'.get key = some v → key ∈ K) (heq : ∀ key ∈ K, t.get key = t'.get key) :
    t = t' := by
  refine h.ext_get h' fun key => Option.ext fun v => ⟨fun hv => ?_, fun hv => ?_⟩
  · rw [← heq key (honly key v hv), hv]
  · rw [heq key (honly' key v hv), hv]

/-! ## Maps along a path -/

/-- A canonical tree that holds a map: each value under the path of its key, and nothing else. -/
structure Along (P : β → Prop) {κ : Type*} (path : κ → Key n) (t : Tree n β) (m : κ → Option β) :
    Prop where
  canonical : Canonical P t
  get_path : ∀ k, t.get (path k) = m k
  only : ∀ key v, t.get key = some v → ∃ k, key = path k

namespace Along

variable {κ : Type*} {path : κ → Key n} {t t' : Tree n β} {m : κ → Option β}

theorem nil : Along P path .nil fun _ => none := ⟨.inl rfl, fun _ => rfl, fun _ _ h => by cases h⟩

/-- **A map has one canonical tree.** -/
theorem unique (h : Along P path t m) (h' : Along P path t' m) : t = t' := by
  refine h.canonical.ext_on h'.canonical h.only h'.only ?_
  rintro _ ⟨k, rfl⟩
  rw [h.get_path, h'.get_path]

variable [DecidableEq κ]

/-- A change of the tree at the path of a key is a change of the map there. -/
theorem change (hinj : Function.Injective path) (h : Along P path t m) {k : κ} {o : Option β}
    (hcan : Canonical P t') (hget : ∀ key, t'.get key = if key = path k then o else t.get key) :
    Along P path t' (update m k o) where
  canonical := hcan
  get_path k' := by
    rw [hget, h.get_path]
    by_cases hk' : k' = k
    · rw [hk', if_pos rfl, update_self]
    · rw [if_neg fun he => hk' (hinj he), update_of_ne hk']
  only key w hw := by
    rw [hget] at hw
    split at hw
    · next he => exact ⟨k, he⟩
    · exact h.only key w hw

/-- Putting a value under the path of a key updates the map. -/
theorem insert (hinj : Function.Injective path) (h : Along P path t m) {k : κ}
    (hk : Terminated (path k)) {v : β} (hv : P v) :
    Along P path (t.insert v (path k)) (update m k (some v)) :=
  h.change hinj (.inr (wf_insert h.canonical hk hv)) (get_insert h.canonical hk)

/-- Deleting the path of a key erases it from the map. -/
theorem delete (hinj : Function.Injective path) (h : Along P path t m) {k : κ}
    (hk : Terminated (path k)) : Along P path (t.delete (path k)) (update m k none) :=
  h.change hinj (canonical_delete h.canonical hk) (get_delete h.canonical hk)

end Along

end Tree

end Patricia
