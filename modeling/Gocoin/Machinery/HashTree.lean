import Mathlib.Data.Set.Function
import Mathlib.Tactic.SplitIfs

/-!
# Machinery/HashTree — binary trees of hashes over a list

A level of the tree is a list.  Its elements are taken two by two, the last one of an odd level
twice, and `f` of each pair is an element of the level above; the level with one element is the
root.  The element at `i` climbs to the root through its mates: at each level it is the left or the
right half of its pair by the parity of its index, and its index above is `i / 2`.

* `climb_path` — from the mates of the tree itself, an element climbs to the root.
* `eq_of_climb_eq_root` — an element that climbs to the root in as many steps as the tree has
  levels is the one at that index, when `f` is injective on the pairs that were joined.
-/

namespace HashTree

variable {α : Type*}

/-! ## One level -/

/-- The elements of a level two by two, the last one of an odd level with itself. -/
def pairs : List α → List (α × α)
  | [] => []
  | [a] => [(a, a)]
  | a :: b :: l => (a, b) :: pairs l

/-- The element that the one at the index is paired with. -/
def mate : List α → ℕ → Option α
  | [], _ => none
  | [a], i => if i = 0 then some a else none
  | _ :: b :: _, 0 => some b
  | a :: _ :: _, 1 => some a
  | _ :: _ :: l, i + 2 => mate l i

/-- An element and its mate as a pair: the element is on the left at an even index. -/
def joined (i : ℕ) (x p : α) : α × α := if i % 2 = 0 then (x, p) else (p, x)

@[simp] theorem joined_add_two (i : ℕ) (x p : α) : joined (i + 2) x p = joined i x p := by
  simp [joined]

variable {i : ℕ} {l : List α}

theorem joined_fst_injective {x y p q : α} (h : joined i x p = joined i y q) : x = y := by
  unfold joined at h
  split_ifs at h
  · exact congrArg Prod.fst h
  · exact congrArg Prod.snd h

theorem length_pairs : ∀ l : List α, (pairs l).length = (l.length + 1) / 2
  | [] | [_] => by simp [pairs]
  | _ :: _ :: l => by
      rw [pairs, List.length_cons, length_pairs l, List.length_cons, List.length_cons]
      omega

/-- **The pair at `i / 2`** is the element at `i` and its mate. -/
theorem exists_mate : ∀ {l : List α} {i : ℕ} (hi : i < l.length),
    ∃ s, mate l i = some s ∧ (pairs l)[i / 2]? = some (joined i l[i] s)
  | [], _, hi => absurd hi (Nat.not_lt_zero _)
  | [a], 0, _ => ⟨a, rfl, rfl⟩
  | [_], _ + 1, hi => absurd hi (by simp)
  | _ :: b :: _, 0, _ => ⟨b, rfl, rfl⟩
  | a :: _ :: _, 1, _ => ⟨a, rfl, rfl⟩
  | _ :: _ :: l, i + 2, hi => by
      obtain ⟨s, hs, hpair⟩ := exists_mate (l := l) (i := i) (by simpa using hi)
      refine ⟨s, hs, ?_⟩
      rw [pairs, Nat.add_div_right i (Nat.succ_pos 1), List.getElem?_cons_succ, hpair,
        joined_add_two]
      rfl

/-! ## The tree -/

variable (f : α × α → α)

/-- The level above. -/
def above (l : List α) : List α := (pairs l).map f

theorem length_above (l : List α) : (above f l).length = (l.length + 1) / 2 := by
  rw [above, List.length_map, length_pairs]

theorem length_above_lt (h : 2 ≤ l.length) : (above f l).length < l.length := by
  rw [length_above]
  omega

theorem div_two_lt_length_above (hi : i < l.length) : i / 2 < (above f l).length := by
  rw [length_above]
  omega

/-- The root: of a level with more than one element, the root of the level above. -/
def root (l : List α) : Option α :=
  if 2 ≤ l.length then root (above f l) else l.head?
  termination_by l.length
  decreasing_by exact length_above_lt f ‹_›

/-- How many levels there are below the root. -/
def depth (l : List α) : ℕ :=
  if 2 ≤ l.length then depth (above f l) + 1 else 0
  termination_by l.length
  decreasing_by exact length_above_lt f ‹_›

/-- The mates met from an index to the root. -/
def path (l : List α) (i : ℕ) : List α :=
  if 2 ≤ l.length then (mate l i).toList ++ path (above f l) (i / 2) else []
  termination_by l.length
  decreasing_by exact length_above_lt f ‹_›

/-- The pairs joined in the whole tree. -/
def joins (l : List α) : List (α × α) :=
  if 2 ≤ l.length then pairs l ++ joins (above f l) else []
  termination_by l.length
  decreasing_by exact length_above_lt f ‹_›

/-- Climbing: the element is joined with one mate after the other. -/
def climb : List α → α → ℕ → α
  | [], x, _ => x
  | p :: ps, x, i => climb ps (f (joined i x p)) (i / 2)

/-- The pairs joined on the way. -/
def climbJoins : List α → α → ℕ → List (α × α)
  | [], _, _ => []
  | p :: ps, x, i => joined i x p :: climbJoins ps (f (joined i x p)) (i / 2)

variable {f}

theorem above_ne_nil (h : l ≠ []) : above f l ≠ [] := by
  have hpos := List.length_pos_iff.mpr h
  refine List.ne_nil_of_length_pos ?_
  rw [length_above]
  omega

/-- **Induction over the levels**, from the root down. -/
@[elab_as_elim]
theorem level_induction {motive : (l : List α) → l ≠ [] → Prop}
    (single : ∀ a, motive [a] (List.cons_ne_nil a []))
    (up : ∀ l h, 2 ≤ l.length → motive (above f l) (above_ne_nil h) → motive l h)
    (l : List α) (h : l ≠ []) : motive l h := by
  induction hn : l.length using Nat.strong_induction_on generalizing l with
  | _ n ih =>
    by_cases h2 : 2 ≤ l.length
    · exact up l h h2 (ih _ (hn ▸ length_above_lt f h2) (above f l) (above_ne_nil h) rfl)
    · match l, h with
      | [a], _ => exact single a
      | _ :: _ :: l, _ => exact absurd (Nat.le_add_left 2 l.length) h2

@[simp] theorem root_single (a : α) : root f [a] = some a := by simp [root]

@[simp] theorem depth_single (a : α) : depth f [a] = 0 := by simp [depth]

@[simp] theorem path_single (a : α) (i : ℕ) : path f [a] i = [] := by simp [path]

theorem root_above (h : 2 ≤ l.length) : root f l = root f (above f l) := by
  rw [root, if_pos h]

theorem depth_above (h : 2 ≤ l.length) : depth f l = depth f (above f l) + 1 := by
  rw [depth, if_pos h]

theorem path_above (h : 2 ≤ l.length) {s : α} (hs : mate l i = some s) :
    path f l i = s :: path f (above f l) (i / 2) := by
  rw [path, if_pos h, hs]
  rfl

theorem joins_above (h : 2 ≤ l.length) : joins f l = pairs l ++ joins f (above f l) := by
  rw [joins, if_pos h]

theorem exists_root (h : l ≠ []) : ∃ r, root f l = some r := by
  induction l, h using level_induction (f := f) with
  | single a => exact ⟨a, root_single a⟩
  | up l h h2 ih =>
    rw [root_above h2]
    exact ih

/-! ## Climbing -/

/-- The element that the pair at `i / 2` becomes. -/
theorem getElem_above (hi : i < l.length) {s : α} (hs : mate l i = some s) :
    (above f l)[i / 2]? = some (f (joined i l[i] s)) := by
  obtain ⟨s', hs', hpair⟩ := exists_mate hi
  obtain rfl : s = s' := Option.some.inj (hs.symm.trans hs')
  rw [above, List.getElem?_map, hpair]
  rfl

theorem length_path (hi : i < l.length) : (path f l i).length = depth f l := by
  induction l, List.ne_nil_of_length_pos (Nat.zero_lt_of_lt hi) using level_induction (f := f)
    generalizing i with
  | single a => simp
  | up l h h2 ih =>
    obtain ⟨s, hs, -⟩ := exists_mate hi
    rw [path_above h2 hs, List.length_cons, ih (div_two_lt_length_above f hi), depth_above h2]

/-- **An element climbs to the root along its own mates.** -/
theorem climb_path (hi : i < l.length) : root f l = some (climb f (path f l i) l[i] i) := by
  induction l, List.ne_nil_of_length_pos (Nat.zero_lt_of_lt hi) using level_induction (f := f)
    generalizing i with
  | single a =>
    obtain rfl : i = 0 := by simpa using hi
    simp [climb]
  | up l h h2 ih =>
    obtain ⟨s, hs, -⟩ := exists_mate hi
    have habove := getElem_above (f := f) hi hs
    obtain ⟨hlt, heq⟩ := List.getElem?_eq_some_iff.mp habove
    rw [root_above h2, ih hlt, heq, path_above h2 hs, climb]

/-- **Only the element itself climbs to the root**, in as many steps as there are levels: the last
pair joined on the way is a pair of the tree, so the one before it is, and so on down. -/
theorem eq_of_climb_eq_root (hi : i < l.length) {ps : List α} {x : α} (hlen : ps.length = depth f l)
    (hroot : root f l = some (climb f ps x i))
    (hinj : Set.InjOn f {p | p ∈ joins f l ∨ p ∈ climbJoins f ps x i}) : x = l[i] := by
  induction l, List.ne_nil_of_length_pos (Nat.zero_lt_of_lt hi) using level_induction (f := f)
    generalizing i ps x with
  | single a =>
    obtain rfl : i = 0 := by simpa using hi
    obtain rfl : ps = [] := List.eq_nil_of_length_eq_zero (hlen.trans (depth_single a))
    exact (Option.some.inj ((root_single a).symm.trans hroot)).symm
  | up l h h2 ih =>
    rw [depth_above h2] at hlen
    obtain ⟨p, ps, rfl⟩ := List.exists_cons_of_length_eq_add_one hlen
    obtain ⟨s, hs, hpair⟩ := exists_mate hi
    obtain ⟨hlt, heq⟩ := List.getElem?_eq_some_iff.mp (getElem_above (f := f) hi hs)
    have hup : f (joined i x p) = (above f l)[i / 2] := by
      refine ih hlt (Nat.succ.inj hlen) ((root_above h2).symm.trans hroot) (hinj.mono ?_)
      rintro q (hq | hq)
      · exact .inl (by rw [joins_above h2]; exact List.mem_append_right _ hq)
      · exact .inr (List.mem_cons_of_mem _ hq)
    have hjoin : joined i x p = joined i l[i] s := by
      refine hinj (.inr List.mem_cons_self) (.inl ?_) (hup.trans heq)
      rw [joins_above h2]
      exact List.mem_append_left _ (List.mem_of_getElem? hpair)
    exact joined_fst_injective hjoin

end HashTree
