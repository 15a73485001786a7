import Mathlib.Data.List.Sort
import Mathlib.Tactic.Ring

/-!
# Machinery/Quicksort — sorting in place around the middle element

Quicksort of a stretch `l..r` of an array, as it is written with two indices that run towards each
other and swap: `scan` moves one index, `partition` is the loop of the two, `sortRange` recurses on
what is left of either side.  Reads are confined to a window `lo..hi`, and an index outside it is a
crash; so is running out of fuel.

The loop rearranges a stretch around its pivot (`partition_spec`), the recursion sorts it and reads
nothing outside it (`sortRange_spec`), and under an injective key the order of the input does not
matter (`sort_eq_of_perm`).
-/

namespace Quicksort

variable {α κ : Type}

/-! ## Arrays -/

/-- What is at an index, if the array reaches there. -/
def cell (xs : List α) (k : ℤ) : Option α := if 0 ≤ k then xs[k.toNat]? else none

/-- A read; an index outside the window `lo..hi` is out of bounds. -/
def read (lo hi : ℤ) (xs : List α) (k : ℤ) : Option α := if lo ≤ k ∧ k ≤ hi then cell xs k else none

/-- Two elements change places. -/
def swap (lo hi : ℤ) (xs : List α) (i j : ℤ) : Option (List α) := do
  let x ← read lo hi xs i
  let y ← read lo hi xs j
  some ((xs.set i.toNat y).set j.toNat x)

theorem exists_cell {xs : List α} {k : ℤ} (h0 : 0 ≤ k) (hlt : k < xs.length) :
    ∃ x, cell xs k = some x :=
  ⟨_, (if_pos h0).trans (List.getElem?_eq_getElem (by omega))⟩

/-- `ys` is `xs` with the elements of `l..r` in another order. -/
structure Rearranged (l r : ℤ) (xs ys : List α) : Prop where
  perm : ys.Perm xs
  outside : ∀ k, k < l ∨ r < k → cell ys k = cell xs k
  inside : ∀ k, l ≤ k → k ≤ r → ∀ y, cell ys k = some y →
    ∃ k', l ≤ k' ∧ k' ≤ r ∧ cell xs k' = some y

namespace Rearranged

variable {l r l' r' : ℤ} {xs ys zs : List α}

theorem refl (l r : ℤ) (xs : List α) : Rearranged l r xs xs :=
  ⟨.refl xs, fun _ _ => rfl, fun k hl hr _ hy => ⟨k, hl, hr, hy⟩⟩

section

variable (h : Rearranged l r xs ys)
include h

theorem trans (h' : Rearranged l r ys zs) : Rearranged l r xs zs where
  perm := h'.perm.trans h.perm
  outside k hk := (h'.outside k hk).trans (h.outside k hk)
  inside k hl hr z hz := by
    obtain ⟨k', hl', hr', hy⟩ := h'.inside k hl hr z hz
    exact h.inside k' hl' hr' z hy

/-- A part of the stretch is rearranged: so is the stretch. -/
theorem widen (hl : l' ≤ l) (hr : r ≤ r') : Rearranged l' r' xs ys where
  perm := h.perm
  outside k hk := h.outside k (by omega)
  inside k hkl hkr y hy := by
    by_cases hk : l ≤ k ∧ k ≤ r
    · obtain ⟨k', hl', hr', hx⟩ := h.inside k hk.1 hk.2 y hy
      exact ⟨k', by omega, by omega, hx⟩
    · exact ⟨k, hkl, hkr, (h.outside k (by omega)).symm.trans hy⟩

theorem length_eq : ys.length = xs.length := h.perm.length_eq

/-- What all elements of the stretch have in common they keep. -/
theorem forall_cell {Q : α → Prop} (hQ : ∀ k, l ≤ k → k ≤ r → ∀ x, cell xs k = some x → Q x) :
    ∀ k, l ≤ k → k ≤ r → ∀ y, cell ys k = some y → Q y := by
  intro k hl hr y hy
  obtain ⟨k', hl', hr', hx⟩ := h.inside k hl hr y hy
  exact hQ k' hl' hr' y hx

end

end Rearranged

/-! ## Stretches -/

/-- The stretch `l..r` as a list. -/
def stretch (xs : List α) (l r : ℤ) : List α := (xs.take (r + 1).toNat).drop l.toNat

section Stretch

variable {l r : ℤ} {xs ys : List α}

theorem stretch_of_lt (h : r < l) : stretch xs l r = [] :=
  List.drop_eq_nil_of_le (by rw [List.length_take]; omega)

/-- An array is what is before a stretch, the stretch and what is behind it. -/
theorem take_append_stretch (xs : List α) (h0 : 0 ≤ l) (h : l ≤ r) :
    xs.take l.toNat ++ (stretch xs l r ++ xs.drop (r + 1).toNat) = xs := by
  have htake : xs.take l.toNat = (xs.take (r + 1).toNat).take l.toNat := by
    rw [List.take_take, min_eq_left (by omega)]
  rw [stretch, ← List.append_assoc, htake, List.take_append_drop, List.take_append_drop]

theorem getElem?_stretch (k : ℕ) :
    (stretch xs l r)[k]? = if l.toNat + k < (r + 1).toNat then xs[l.toNat + k]? else none := by
  rw [stretch, List.getElem?_drop, List.getElem?_take]

namespace Rearranged

section

variable (h : Rearranged l r xs ys)
include h

theorem getElem?_eq {k : ℕ} (hk : (k : ℤ) < l ∨ r < k) : ys[k]? = xs[k]? := by
  have hcell := h.outside k hk
  rwa [cell, cell, if_pos (Int.natCast_nonneg k), if_pos (Int.natCast_nonneg k),
    Int.toNat_natCast] at hcell

theorem take_eq : ys.take l.toNat = xs.take l.toNat := by
  refine List.ext_getElem? fun k => ?_
  rw [List.getElem?_take, List.getElem?_take]
  split
  · exact h.getElem?_eq (.inl (by omega))
  · rfl

theorem drop_eq : ys.drop (r + 1).toNat = xs.drop (r + 1).toNat := by
  refine List.ext_getElem? fun k => ?_
  rw [List.getElem?_drop, List.getElem?_drop]
  exact h.getElem?_eq (.inr (by omega))

/-- **The stretch is permuted.** -/
theorem stretch_perm (h0 : 0 ≤ l) : (stretch ys l r).Perm (stretch xs l r) := by
  by_cases hlr : l ≤ r
  · have hperm := h.perm
    rw [← take_append_stretch xs h0 hlr, ← take_append_stretch ys h0 hlr, h.take_eq,
      h.drop_eq] at hperm
    exact (List.perm_append_right_iff _).mp ((List.perm_append_left_iff _).mp hperm)
  · rw [stretch_of_lt (by omega), stretch_of_lt (by omega)]

end

end Rearranged

end Stretch

/-- The stretch `l..r` lies in the array and in the window. -/
structure Window (lo hi : ℤ) (xs : List α) (l r : ℤ) : Prop where
  nonneg : 0 ≤ l
  lo_le : lo ≤ l
  le_hi : r ≤ hi
  lt_length : r < xs.length

namespace Window

variable {lo hi l r l' r' k : ℤ} {xs ys : List α}

section

variable (h : Window lo hi xs l r)
include h

theorem read_eq (hl : l ≤ k) (hr : k ≤ r) : read lo hi xs k = cell xs k :=
  if_pos ⟨h.lo_le.trans hl, hr.trans h.le_hi⟩

theorem exists_cell (hl : l ≤ k) (hr : k ≤ r) : ∃ x, cell xs k = some x :=
  Quicksort.exists_cell (h.nonneg.trans hl) (lt_of_le_of_lt hr h.lt_length)

theorem narrow (hl : l ≤ l') (hr : r' ≤ r) : Window lo hi xs l' r' :=
  ⟨h.nonneg.trans hl, h.lo_le.trans hl, hr.trans h.le_hi, lt_of_le_of_lt hr h.lt_length⟩

theorem of_length (hlen : ys.length = xs.length) : Window lo hi ys l r :=
  ⟨h.nonneg, h.lo_le, h.le_hi, hlen ▸ h.lt_length⟩

end

end Window

section Swap

variable {lo hi l r i j : ℤ} {xs : List α} {x y : α}

theorem getElem?_of_cell {k : ℤ} (h : cell xs k = some x) : 0 ≤ k ∧ xs[k.toNat]? = some x := by
  unfold cell at h
  split at h
  · next h0 => exact ⟨h0, h⟩
  · cases h

/-- **A swap inside the stretch.** -/
theorem swap_spec (hw : Window lo hi xs l r) (hli : l ≤ i) (hij : i ≤ j) (hjr : j ≤ r)
    (hx : cell xs i = some x) (hy : cell xs j = some y) :
    ∃ ys, swap lo hi xs i j = some ys ∧ Rearranged l r xs ys ∧ cell ys i = some y ∧
      cell ys j = some x ∧ ∀ k, k ≠ i → k ≠ j → cell ys k = cell xs k := by
  obtain ⟨hi0, hxi⟩ := getElem?_of_cell hx
  obtain ⟨hj0, hyj⟩ := getElem?_of_cell hy
  obtain ⟨hilt, rfl⟩ := List.getElem?_eq_some_iff.mp hxi
  obtain ⟨hjlt, rfl⟩ := List.getElem?_eq_some_iff.mp hyj
  set ys := (xs.set i.toNat xs[j.toNat]).set j.toNat xs[i.toNat] with hys
  have hcell : ∀ k : ℤ, 0 ≤ k → cell ys k = if j = k then some xs[i.toNat]
      else if i = k then some xs[j.toNat] else cell xs k := by
    intro k hk
    have hjk : j.toNat = k.toNat ↔ j = k := by omega
    have hik : i.toNat = k.toNat ↔ i = k := by omega
    rw [cell, cell, if_pos hk, if_pos hk, hys, List.getElem?_set, List.getElem?_set]
    simp only [hjk, hik, List.length_set, if_pos hjlt, if_pos hilt]
  have hi' : cell ys i = some xs[j.toNat] := by
    rw [hcell i hi0]
    split
    · next h => subst h; rfl
    · rw [if_pos rfl]
  have hj' : cell ys j = some xs[i.toNat] := by rw [hcell j hj0, if_pos rfl]
  have hother : ∀ k, k ≠ i → k ≠ j → cell ys k = cell xs k := by
    intro k hki hkj
    by_cases hk : 0 ≤ k
    · rw [hcell k hk, if_neg (Ne.symm hkj), if_neg (Ne.symm hki)]
    · rw [cell, cell, if_neg hk, if_neg hk]
  refine ⟨ys, ?_, ⟨List.set_set_perm hilt hjlt, fun k hk => hother k (by omega) (by omega), ?_⟩,
    hi', hj', hother⟩
  · rw [swap, hw.read_eq hli (hij.trans hjr), hw.read_eq (hli.trans hij) hjr, hx, hy]
    rfl
  · intro k hkl hkr z hz
    by_cases hki : k = i
    · rw [hki, hi'] at hz
      exact ⟨j, by omega, hjr, hy.trans hz⟩
    · by_cases hkj : k = j
      · rw [hkj, hj'] at hz
        exact ⟨i, hli, by omega, hx.trans hz⟩
      · exact ⟨k, hkl, hkr, (hother k hki hkj).symm.trans hz⟩

end Swap

/-! ## One index moves -/

/-- From `i` in steps of `d` while the element says to go on. -/
def scan (lo hi : ℤ) (xs : List α) (go : α → Bool) (d : ℤ) : ℕ → ℤ → Option ℤ
  | 0, _ => none
  | fuel + 1, i => do
    let x ← read lo hi xs i
    if go x then scan lo hi xs go d fuel (i + d) else some i

section Scan

variable {lo hi l r : ℤ} {xs : List α} {go : α → Bool} {d : ℤ}

/-- **A scan stops at the first element that says so**, if one is `n` steps ahead. -/
theorem scan_spec (hw : Window lo hi xs l r) (n fuel : ℕ) (i : ℤ) (hfuel : n < fuel)
    (hin : ∀ t : ℕ, t ≤ n → l ≤ i + d * t ∧ i + d * t ≤ r)
    (hstop : ∃ x, cell xs (i + d * n) = some x ∧ go x = false) :
    ∃ t : ℕ, t ≤ n ∧ scan lo hi xs go d fuel i = some (i + d * t) ∧
      (∃ x, cell xs (i + d * t) = some x ∧ go x = false) ∧
      ∀ s : ℕ, s < t → ∀ x, cell xs (i + d * s) = some x → go x = true := by
  induction n generalizing fuel i with
  | zero =>
    obtain ⟨fuel, rfl⟩ := Nat.exists_eq_succ_of_ne_zero (Nat.ne_of_gt hfuel)
    have h0 : i + d * ((0 : ℕ) : ℤ) = i := by simp
    have hrange := hin 0 le_rfl
    rw [h0] at hstop hrange
    obtain ⟨x, hx, hgo⟩ := hstop
    refine ⟨0, le_rfl, ?_, ⟨x, by rw [h0, hx], hgo⟩, fun s hs => absurd hs (Nat.not_lt_zero s)⟩
    rw [scan, hw.read_eq hrange.1 hrange.2, hx, h0]
    simp only [Option.bind_eq_bind, Option.bind_some, hgo, Bool.false_eq_true, if_false]
  | succ n ih =>
    obtain ⟨fuel, rfl⟩ := Nat.exists_eq_succ_of_ne_zero (by omega : fuel ≠ 0)
    have h0 : i + d * ((0 : ℕ) : ℤ) = i := by simp
    have hrange := hin 0 (Nat.zero_le _)
    rw [h0] at hrange
    have hstep : ∀ t : ℕ, i + d + d * t = i + d * ((t + 1 : ℕ) : ℤ) := by
      intro t
      push_cast
      ring
    obtain ⟨x, hx⟩ := hw.exists_cell hrange.1 hrange.2
    cases hgo : go x with
    | false =>
      refine ⟨0, Nat.zero_le _, ?_, ⟨x, by rw [h0, hx], hgo⟩,
        fun s hs => absurd hs (Nat.not_lt_zero s)⟩
      rw [scan, hw.read_eq hrange.1 hrange.2, hx, h0]
      simp only [Option.bind_eq_bind, Option.bind_some, hgo, Bool.false_eq_true, if_false]
    | true =>
      obtain ⟨t, htn, hscan, hend, hall⟩ := ih fuel (i + d) (by omega)
        (fun t ht => hstep t ▸ hin (t + 1) (by omega)) (hstep n ▸ hstop)
      refine ⟨t + 1, by omega, ?_, hstep t ▸ hend, ?_⟩
      · rw [scan, hw.read_eq hrange.1 hrange.2, hx]
        simp only [Option.bind_eq_bind, Option.bind_some, hgo, if_true, hscan, hstep]
      · intro s hs y hy
        cases s with
        | zero =>
          rw [h0, hx, Option.some.injEq] at hy
          rw [← hy, hgo]
        | succ s => exact hall s (by omega) y (by rw [hstep, hy])

/-- Upwards, with a stop at `m`. -/
theorem scan_up (go : α → Bool) (hw : Window lo hi xs l r) {i m : ℤ} (hl : l ≤ i) (him : i ≤ m)
    (hr : m ≤ r) (hstop : ∃ x, cell xs m = some x ∧ go x = false) :
    ∃ i', i ≤ i' ∧ i' ≤ m ∧ scan lo hi xs go 1 (xs.length + 1) i = some i' ∧
      (∃ x, cell xs i' = some x ∧ go x = false) ∧
      ∀ k, i ≤ k → k < i' → ∀ x, cell xs k = some x → go x = true := by
  have hm : i + 1 * ((m - i).toNat : ℤ) = m := by omega
  have h0 := hw.nonneg
  have hlen := hw.lt_length
  obtain ⟨t, ht, hscan, hend, hall⟩ := scan_spec (d := 1) hw (m - i).toNat (xs.length + 1)
    i (by omega) (fun t ht => by omega) (hm.symm ▸ hstop)
  refine ⟨i + 1 * t, by omega, by omega, hscan, hend, fun k hik hk x hx => ?_⟩
  have hk' : i + 1 * ((k - i).toNat : ℤ) = k := by omega
  exact hall (k - i).toNat (by omega) x (hk'.symm ▸ hx)

/-- Downwards, with a stop at `m`. -/
theorem scan_down (go : α → Bool) (hw : Window lo hi xs l r) {j m : ℤ} (hl : l ≤ m) (hmj : m ≤ j)
    (hr : j ≤ r) (hstop : ∃ x, cell xs m = some x ∧ go x = false) :
    ∃ j', m ≤ j' ∧ j' ≤ j ∧ scan lo hi xs go (-1) (xs.length + 1) j = some j' ∧
      (∃ x, cell xs j' = some x ∧ go x = false) ∧
      ∀ k, j' < k → k ≤ j → ∀ x, cell xs k = some x → go x = true := by
  have hm : j + -1 * ((j - m).toNat : ℤ) = m := by omega
  have h0 := hw.nonneg
  have hlen := hw.lt_length
  obtain ⟨t, ht, hscan, hend, hall⟩ := scan_spec (d := -1) hw (j - m).toNat (xs.length + 1)
    j (by omega) (fun t ht => by omega) (hm.symm ▸ hstop)
  refine ⟨j + -1 * t, by omega, by omega, hscan, hend, fun k hjk hk x hx => ?_⟩
  have hk' : j + -1 * ((j - k).toNat : ℤ) = k := by omega
  exact hall (j - k).toNat (by omega) x (hk'.symm ▸ hx)

end Scan

/-! ## The two indices meet -/

section Sorting

variable [LinearOrder κ] (key : α → κ)

/-- The loop of the two indices. -/
def partition (lo hi : ℤ) (pivot : κ) : ℕ → List α → ℤ → ℤ → Option (List α × ℤ × ℤ)
  | 0, _, _, _ => none
  | fuel + 1, xs, i, j =>
    if i ≤ j then do
      let i ← scan lo hi xs (fun x => decide (key x < pivot)) 1 (xs.length + 1) i
      let j ← scan lo hi xs (fun x => decide (pivot < key x)) (-1) (xs.length + 1) j
      if i ≤ j then do
        let xs ← swap lo hi xs i j
        partition lo hi pivot fuel xs (i + 1) (j - 1)
      else partition lo hi pivot fuel xs i j
    else some (xs, i, j)

/-- Quicksort of the stretch `l..r`. -/
def sortRange (lo hi : ℤ) : ℕ → List α → ℤ → ℤ → Option (List α)
  | 0, _, _, _ => none
  | fuel + 1, xs, l, r =>
    if l < r then do
      let p ← read lo hi xs ((l + r) / 2)
      let (xs, i, j) ← partition key lo hi (key p) (xs.length + 1) xs l r
      let xs ← (if l < j then sortRange lo hi fuel xs l j else some xs)
      if i < r then sortRange lo hi fuel xs i r else some xs
    else some xs

/-- Quicksort of the whole array. -/
def sort (xs : List α) : Option (List α) :=
  sortRange key 0 (xs.length - 1) (xs.length + 1) xs 0 (xs.length - 1)

variable {key} {lo hi l r : ℤ} {pivot : κ}

/-- The stretch `l..r` is split: nothing above the pivot before `i`, nothing below it behind `j`. -/
structure Split (key : α → κ) (pivot : κ) (l r : ℤ) (xs : List α) (i j : ℤ) : Prop where
  le : l ≤ i
  ge : j ≤ r
  below : ∀ k, l ≤ k → k < i → ∀ x, cell xs k = some x → key x ≤ pivot
  above : ∀ k, j < k → k ≤ r → ∀ x, cell xs k = some x → pivot ≤ key x

/-- There is an element for either index to stop at; before the first swap it is the same one. -/
structure Guarded (key : α → κ) (pivot : κ) (l r : ℤ) (xs : List α) (i j : ℤ) : Prop where
  moved : j < i → l < i ∧ j < r
  stops : i ≤ j → ∃ m m', i ≤ m ∧ m ≤ r ∧ l ≤ m' ∧ m' ≤ j ∧
    (∃ x, cell xs m = some x ∧ pivot ≤ key x) ∧ (∃ x, cell xs m' = some x ∧ key x ≤ pivot) ∧
    (m ≤ m' ∨ l < i ∧ j < r)

variable {xs ys : List α} {i j : ℤ}

/-- **The loop of the two indices** splits the stretch around the pivot; both have moved. -/
theorem partition_spec (fuel : ℕ) (hw : Window lo hi xs l r) (hsplit : Split key pivot l r xs i j)
    (hguard : Guarded key pivot l r xs i j) (hfuel : (j - i + 1).toNat < fuel) :
    ∃ ys i' j', partition key lo hi pivot fuel xs i j = some (ys, i', j') ∧ Rearranged l r xs ys ∧
      j' < i' ∧ l < i' ∧ j' < r ∧ Split key pivot l r ys i' j' := by
  induction fuel generalizing xs i j with
  | zero => exact absurd hfuel (Nat.not_lt_zero _)
  | succ fuel ih =>
    by_cases hij : i ≤ j
    · obtain ⟨m, m', him, hmr, hlm, hmj, ⟨x, hx, hpx⟩, ⟨y, hy, hpy⟩, hmm⟩ := hguard.stops hij
      obtain ⟨i', hii, him', hup, ⟨u, hu, hgou⟩, hbelow⟩ :=
        scan_up (fun x => decide (key x < pivot)) hw hsplit.le him hmr
          ⟨x, hx, decide_eq_false (not_lt.mpr hpx)⟩
      obtain ⟨j', hmj', hjj, hdown, ⟨v, hv, hgov⟩, habove⟩ :=
        scan_down (fun x => decide (pivot < key x)) hw hlm hmj hsplit.ge
          ⟨y, hy, decide_eq_false (not_lt.mpr hpy)⟩
      have hpu : pivot ≤ key u := not_lt.mp (of_decide_eq_false hgou)
      have hpv : key v ≤ pivot := not_lt.mp (of_decide_eq_false hgov)
      have hle := hsplit.le
      have hge := hsplit.ge
      have hbelow' : ∀ k, l ≤ k → k < i' → ∀ z, cell xs k = some z → key z ≤ pivot := by
        intro k hlk hk z hz
        by_cases hki : k < i
        · exact hsplit.below k hlk hki z hz
        · exact (of_decide_eq_true (hbelow k (by omega) hk z hz)).le
      have habove' : ∀ k, j' < k → k ≤ r → ∀ z, cell xs k = some z → pivot ≤ key z := by
        intro k hk hkr z hz
        by_cases hkj : j < k
        · exact hsplit.above k hkj hkr z hz
        · exact (of_decide_eq_true (habove k hk (by omega) z hz)).le
      by_cases hij' : i' ≤ j'
      · obtain ⟨ys, hswap, hre, hysi, hysj, hother⟩ :=
          swap_spec hw (by omega) hij' (by omega) hu hv
        have hsplit' : Split key pivot l r ys (i' + 1) (j' - 1) := by
          refine ⟨by omega, by omega, fun k hlk hk z hz => ?_, fun k hk hkr z hz => ?_⟩
          · by_cases hki : k = i'
            · rw [hki, hysi, Option.some.injEq] at hz
              exact hz ▸ hpv
            · exact hbelow' k hlk (by omega) z ((hother k hki (by omega)).symm.trans hz)
          · by_cases hkj : k = j'
            · rw [hkj, hysj, Option.some.injEq] at hz
              exact hz ▸ hpu
            · exact habove' k (by omega) hkr z ((hother k (by omega) hkj).symm.trans hz)
        have hguard' : Guarded key pivot l r ys (i' + 1) (j' - 1) :=
          ⟨fun _ => by omega, fun h => ⟨j', i', by omega, by omega, by omega, by omega,
            ⟨u, hysj, hpu⟩, ⟨v, hysi, hpv⟩, .inr (by omega)⟩⟩
        obtain ⟨zs, i₁, j₁, hrun, hre', hrest⟩ :=
          ih (hw.of_length hre.length_eq) hsplit' hguard' (by omega)
        refine ⟨zs, i₁, j₁, ?_, hre.trans hre', hrest⟩
        simp only [partition, if_pos hij, hup, hdown, Option.bind_eq_bind, Option.bind_some,
          if_pos hij', hswap, hrun]
      · have hmoved : l < i' ∧ j' < r := by omega
        obtain ⟨zs, i₁, j₁, hrun, hrest⟩ := ih hw ⟨by omega, by omega, hbelow', habove'⟩
          ⟨fun _ => hmoved, fun h => absurd h hij'⟩ (by omega)
        refine ⟨zs, i₁, j₁, ?_, hrest⟩
        simp only [partition, if_pos hij, hup, hdown, Option.bind_eq_bind, Option.bind_some,
          if_neg hij', hrun]
    · obtain ⟨hl, hr⟩ := hguard.moved (by omega)
      exact ⟨xs, i, j, by rw [partition, if_neg hij], .refl l r xs, by omega, hl, hr, hsplit⟩

/-! ## The whole sort -/

/-- The stretch `l..r` is in ascending order. -/
def Ascending (key : α → κ) (xs : List α) (l r : ℤ) : Prop :=
  ∀ k k', l ≤ k → k ≤ k' → k' ≤ r → ∀ x y, cell xs k = some x → cell xs k' = some y → key x ≤ key y

/-- An ascending stretch, as a list. -/
theorem Ascending.pairwise (h : Ascending key xs l r) (h0 : 0 ≤ l) :
    (stretch xs l r).Pairwise fun x y => key x ≤ key y := by
  have hcell : ∀ {k : ℕ} {x : α}, (stretch xs l r)[k]? = some x →
      cell xs (l + k) = some x ∧ l + k ≤ r := by
    intro k x hx
    rw [getElem?_stretch] at hx
    split at hx
    · next hk =>
      have hnat : (l + k).toNat = l.toNat + k := by omega
      exact ⟨(if_pos (by omega)).trans (hnat ▸ hx), by omega⟩
    · cases hx
  refine List.pairwise_iff_getElem.mpr fun m n hm hn hmn => ?_
  obtain ⟨hx, -⟩ := hcell (List.getElem?_eq_getElem hm)
  obtain ⟨hy, hr⟩ := hcell (List.getElem?_eq_getElem hn)
  exact h _ _ (by omega) (by omega) hr _ _ hx hy

theorem ascending_of_le (h : r ≤ l) : Ascending key xs l r := by
  intro k k' hl hk hr x y hx hy
  obtain rfl : k = k' := by omega
  rw [Option.some.inj (hx.symm.trans hy)]

/-- Two ascending sides of a split make an ascending stretch. -/
theorem ascending_of_split (hsplit : Split key pivot l r xs i j) (hleft : Ascending key xs l j)
    (hright : Ascending key xs i r) : Ascending key xs l r := by
  intro k k' hl hk hr x y hx hy
  by_cases hk' : k' ≤ j
  · exact hleft k k' hl hk hk' x y hx hy
  · by_cases hki : i ≤ k
    · exact hright k k' hki hk hr x y hx hy
    · exact (hsplit.below k hl (by omega) x hx).trans (hsplit.above k' (by omega) hr y hy)

/-- Sorting a side keeps the split. -/
theorem Split.rearranged {a b : ℤ} (h : Split key pivot l r xs i j) (hre : Rearranged a b xs ys)
    (hside : a = l ∧ b = j ∨ a = i ∧ b = r) (hji : j < i) :
    Split key pivot l r ys i j := by
  have hle := h.le
  have hge := h.ge
  refine ⟨h.le, h.ge, fun k hlk hk y hy => ?_, fun k hk hkr y hy => ?_⟩
  · by_cases hin : a ≤ k ∧ k ≤ b
    · exact hre.forall_cell (Q := fun y => key y ≤ pivot)
        (fun k' ha hb => h.below k' (by omega) (by omega)) k hin.1 hin.2 y hy
    · exact h.below k hlk hk y ((hre.outside k (by omega)).symm.trans hy)
  · by_cases hin : a ≤ k ∧ k ≤ b
    · exact hre.forall_cell (Q := fun y => pivot ≤ key y)
        (fun k' ha hb => h.above k' (by omega) (by omega)) k hin.1 hin.2 y hy
    · exact h.above k hk hkr y ((hre.outside k (by omega)).symm.trans hy)

/-- What is ascending stays so where nothing moves. -/
theorem Ascending.congr (h : Ascending key xs l r)
    (heq : ∀ k, l ≤ k → k ≤ r → cell ys k = cell xs k) : Ascending key ys l r := by
  intro k k' hl hk hr x y hx hy
  exact h k k' hl hk hr x y ((heq k hl (by omega)).symm.trans hx)
    ((heq k' (by omega) hr).symm.trans hy)

/-- **Quicksort sorts a stretch**: with fuel for its length it returns, rearranges the stretch in
ascending order, and neither moves nor reads anything else. -/
theorem sortRange_spec (key : α → κ) (fuel : ℕ) {l r : ℤ} (hw : Window lo hi xs l r)
    (hfuel : (r - l).toNat < fuel) :
    ∃ ys, sortRange key lo hi fuel xs l r = some ys ∧ Rearranged l r xs ys ∧
      Ascending key ys l r := by
  induction fuel generalizing xs l r with
  | zero => exact absurd hfuel (Nat.not_lt_zero _)
  | succ fuel ih =>
    by_cases hlr : l < r
    · have hmid : l ≤ (l + r) / 2 ∧ (l + r) / 2 ≤ r := by omega
      obtain ⟨p, hp⟩ := hw.exists_cell hmid.1 hmid.2
      have h0 := hw.nonneg
      have hlen := hw.lt_length
      have hsplit : Split key (key p) l r xs l r :=
        ⟨le_rfl, le_rfl, fun k h h' => by omega, fun k h h' => by omega⟩
      have hguard : Guarded key (key p) l r xs l r :=
        ⟨fun h => by omega, fun _ => ⟨_, _, hmid.1, hmid.2, hmid.1, hmid.2, ⟨p, hp, le_rfl⟩,
          ⟨p, hp, le_rfl⟩, .inl le_rfl⟩⟩
      obtain ⟨ys, i, j, hpart, hre, hji, hli, hjr, hsplit'⟩ :=
        partition_spec (xs.length + 1) hw hsplit hguard (by omega)
      have hleft : ∃ zs, (if l < j then sortRange key lo hi fuel ys l j else some ys) = some zs ∧
          Rearranged l j ys zs ∧ Ascending key zs l j := by
        by_cases hlj : l < j
        · rw [if_pos hlj]
          exact ih ((hw.of_length hre.length_eq).narrow le_rfl hjr.le) (by omega)
        · rw [if_neg hlj]
          exact ⟨ys, rfl, .refl l j ys, ascending_of_le (by omega)⟩
      obtain ⟨zs, hsortl, hrel, hascl⟩ := hleft
      have hwz := (hw.of_length hre.length_eq).of_length hrel.length_eq
      have hright : ∃ ws, (if i < r then sortRange key lo hi fuel zs i r else some zs) = some ws ∧
          Rearranged i r zs ws ∧ Ascending key ws i r := by
        by_cases hir : i < r
        · rw [if_pos hir]
          exact ih (hwz.narrow hli.le le_rfl) (by omega)
        · rw [if_neg hir]
          exact ⟨zs, rfl, .refl i r zs, ascending_of_le (by omega)⟩
      obtain ⟨ws, hsortr, hrer, hascr⟩ := hright
      have hsplitw := (hsplit'.rearranged hrel (.inl ⟨rfl, rfl⟩) hji).rearranged hrer
        (.inr ⟨rfl, rfl⟩) hji
      refine ⟨ws, ?_, (hre.trans (hrel.widen le_rfl hjr.le)).trans (hrer.widen hli.le le_rfl),
        ascending_of_split hsplitw
          (hascl.congr fun k _ hk => hrer.outside k (.inl (by omega))) hascr⟩
      simp only [sortRange, if_pos hlr, hw.read_eq hmid.1 hmid.2, hp, Option.bind_eq_bind,
        Option.bind_some, hpart, hsortl, hsortr]
    · exact ⟨xs, by rw [sortRange, if_neg hlr], .refl l r xs, ascending_of_le (by omega)⟩

/-- **Under an injective key a stretch has one ascending order**, so runs in different windows give
the same array. -/
theorem Rearranged.eq_of_ascending (hkey : Function.Injective key) {zs : List α} (h0 : 0 ≤ l)
    (hys : Rearranged l r xs ys) (hasc : Ascending key ys l r) (hzs : Rearranged l r xs zs)
    (hasc' : Ascending key zs l r) : ys = zs := by
  by_cases hlr : l ≤ r
  · have hstretch : stretch ys l r = stretch zs l r := List.Perm.eq_of_pairwise
      (fun a b _ _ hab hba => hkey (le_antisymm hab hba)) (hasc.pairwise h0) (hasc'.pairwise h0)
      ((hys.stretch_perm h0).trans (hzs.stretch_perm h0).symm)
    rw [← take_append_stretch ys h0 hlr, ← take_append_stretch zs h0 hlr, hstretch,
      hys.take_eq, hys.drop_eq, hzs.take_eq, hzs.drop_eq]
  · exact List.ext_getElem? fun k =>
      (hys.getElem?_eq (by omega)).trans (hzs.getElem?_eq (by omega)).symm

/-- **Quicksort sorts every list.** -/
theorem sort_spec (key : α → κ) (xs : List α) :
    ∃ ys, sort key xs = some ys ∧ ys.Perm xs ∧ ys.Pairwise fun x y => key x ≤ key y := by
  obtain ⟨ys, hsort, hre, hasc⟩ := sortRange_spec key (xs.length + 1)
    (⟨le_rfl, le_rfl, le_rfl, by omega⟩ : Window 0 (xs.length - 1) xs 0 (xs.length - 1)) (by omega)
  refine ⟨ys, hsort, hre.perm, List.pairwise_iff_getElem.mpr fun m n hm hn hmn => ?_⟩
  have hlen := hre.length_eq
  exact hasc m n (by omega) (by omega) (by omega) _ _
    ((if_pos (by omega)).trans (List.getElem?_eq_getElem hm))
    ((if_pos (by omega)).trans (List.getElem?_eq_getElem hn))

/-- **Under an injective key only the elements matter**, not their order. -/
theorem sort_eq_of_perm (hkey : Function.Injective key) (h : xs.Perm ys) :
    sort key xs = sort key ys := by
  obtain ⟨xs', hxs, hpx, hsx⟩ := sort_spec key xs
  obtain ⟨ys', hys, hpy, hsy⟩ := sort_spec key ys
  have heq : xs' = ys' := List.Perm.eq_of_pairwise
    (fun a b _ _ hab hba => hkey (le_antisymm hab hba)) hsx hsy ((hpx.trans h).trans hpy.symm)
  rw [hxs, hys, heq]

end Sorting

end Quicksort
