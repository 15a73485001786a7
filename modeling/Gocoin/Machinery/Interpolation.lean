import Mathlib.LinearAlgebra.Lagrange
import Gocoin.Machinery.Fold

/-!
# Machinery/Interpolation — values at zero from values elsewhere

A polynomial of degree below the number of points is known from its values at them; its value at
zero is a combination of these values whose coefficients depend on the points alone (`weight`).  The
same combination works for multiples of one vector, which is what shares of a secret key are.

`atZero` computes the combination from two lists, and refuses fewer than two points, a point zero
and equal points.  On the points of a list without repetitions it is the combination over the set of
the list (`atZero_map`), so the order of the points does not matter (`atZero_perm`).
-/

namespace Interpolation

open Polynomial Fold

variable {F M ι : Type} [Field F] [DecidableEq F] [AddCommGroup M] [Module F M] [DecidableEq ι]

/-! ## Polynomials as lists of coefficients -/

/-- Evaluation, the constant coefficient first. -/
def horner (c : List F) (x : F) : F := c.foldr (fun a y => y * x + a) 0

/-- The polynomial of a list of coefficients. -/
noncomputable def toPoly (c : List F) : F[X] := c.foldr (fun a p => p * X + C a) 0

omit [DecidableEq F] in
theorem eval_toPoly (c : List F) (x : F) : (toPoly c).eval x = horner c x := by
  induction c with
  | nil => simp [toPoly, horner]
  | cons a c ih =>
    rw [toPoly, horner, List.foldr_cons, List.foldr_cons, ← toPoly, ← horner]
    simp [ih]

omit [DecidableEq F] in
theorem degree_toPoly_lt (c : List F) : (toPoly c).degree < c.length := by
  induction c with
  | nil => simp [toPoly]
  | cons a c ih =>
    rw [toPoly, List.foldr_cons, ← toPoly, List.length_cons]
    refine lt_of_le_of_lt (degree_add_le _ _) (max_lt ?_ ?_)
    · rw [degree_mul, degree_X]
      by_cases hp : toPoly c = 0
      · rw [hp, degree_zero]
        exact WithBot.bot_lt_coe _
      · rw [degree_eq_natDegree hp] at ih ⊢
        exact_mod_cast Nat.succ_lt_succ (by exact_mod_cast ih)
    · exact lt_of_le_of_lt degree_C_le (by exact_mod_cast Nat.succ_pos _)

/-! ## The combination -/

/-- The coefficient of a point. -/
def weight (s : Finset ι) (x : ι → F) (i : ι) : F := ∏ j ∈ s.erase i, x j / (x j - x i)

omit [DecidableEq F] in
theorem weight_eq_eval_basis (s : Finset ι) (x : ι → F) (i : ι) :
    weight s x i = (Lagrange.basis s x i).eval 0 := by
  rw [weight, Lagrange.basis, eval_prod]
  refine Finset.prod_congr rfl fun j _ => ?_
  rw [Lagrange.basisDivisor, eval_mul, eval_C, eval_sub, eval_X, eval_C, zero_sub, div_eq_inv_mul,
    ← neg_sub (x i) (x j), inv_neg, neg_mul, mul_neg]

variable {x : ι → F} {l : List ι} {s : Finset ι} {xs : List F} {i : ℕ}

omit [DecidableEq F] in
/-- **The value at zero**, times a vector, from the values at the points. -/
theorem sum_weight_smul (hx : Set.InjOn x s) {p : F[X]} (hp : p.degree < s.card) (v : M) :
    ∑ i ∈ s, weight s x i • (p.eval (x i) • v) = p.eval 0 • v := by
  have heval : p.eval 0 = ∑ i ∈ s, weight s x i * p.eval (x i) := by
    conv_lhs => rw [Lagrange.eq_interpolate_of_eval_eq (fun i => p.eval (x i)) hx hp fun _ _ => rfl]
    rw [Lagrange.interpolate_apply, eval_finsetSum]
    refine Finset.sum_congr rfl fun i _ => ?_
    rw [eval_mul, eval_C, weight_eq_eval_basis, mul_comm]
  rw [heval, Finset.sum_smul]
  exact Finset.sum_congr rfl fun i _ => smul_smul _ _ _

/-- The combination of some polynomials with the coefficients of their points. -/
noncomputable def joint (s : Finset ι) (x : ι → F) (p : ι → F[X]) : F[X] :=
  ∑ i ∈ s, C (weight s x i) * p i

omit [DecidableEq F] in
theorem eval_joint (s : Finset ι) (x : ι → F) (p : ι → F[X]) (z : F) :
    (joint s x p).eval z = ∑ i ∈ s, weight s x i * (p i).eval z := by
  rw [joint, eval_finsetSum]
  exact Finset.sum_congr rfl fun i _ => by rw [eval_mul, eval_C]

omit [DecidableEq F] in
theorem degree_joint_lt {p : ι → F[X]} {k : ℕ} (hp : ∀ i ∈ s, (p i).degree < k) :
    (joint s x p).degree < k := by
  refine lt_of_le_of_lt (degree_sum_le _ _) ?_
  refine (Finset.sup_lt_iff (WithBot.bot_lt_coe k)).mpr fun i hi => ?_
  refine lt_of_le_of_lt (degree_mul_le _ _) ?_
  refine lt_of_le_of_lt (add_le_add degree_C_le le_rfl) ?_
  rw [zero_add]
  exact hp i hi

/-! ## Computing it -/

/-- The coefficient of the point in a place of a list; none when another place has the same
point. -/
def delta (xs : List F) (i : ℕ) (x : F) : Option F :=
  let vs := (xs.eraseIdx i).map fun y => y - x
  if 0 ∈ vs then none else some (xs.prod / (x * vs.prod))

/-- The value at zero from points and values. -/
def atZero (xs : List F) (ys : List M) : Option M :=
  if xs.length < 2 then none
  else if xs.prod = 0 then none
  else (xs.zipIdx.mapM fun p => delta xs p.2 p.1).map fun ds =>
    (List.zipWith (fun d y => d • y) ds ys).sum

theorem delta_eq_none (hi : i < xs.length) :
    delta xs i xs[i] = none ↔ ∃ j, ∃ hj : j < xs.length, j ≠ i ∧ xs[j] = xs[i] := by
  unfold delta
  simp only [ite_eq_left_iff, reduceCtorEq, imp_false, not_not, List.mem_map, sub_eq_zero]
  constructor
  · rintro ⟨y, hy, rfl⟩
    obtain ⟨j, hj, hne, hji⟩ := List.mem_eraseIdx_iff_getElem.mp hy
    exact ⟨j, hj, hne, hji⟩
  · rintro ⟨j, hj, hne, hji⟩
    exact ⟨xs[j], List.mem_eraseIdx_iff_getElem.mpr ⟨j, hj, hne, rfl⟩, hji⟩

/-- Equal points are refused. -/
theorem atZero_of_not_nodup (h : ¬ xs.Nodup) (ys : List M) : atZero xs ys = none := by
  unfold atZero
  split
  · rfl
  split
  · rfl
  have hnone : xs.zipIdx.mapM (fun p => delta xs p.2 p.1) = none := by
    rw [List.nodup_iff_injective_getElem] at h
    simp only [Function.Injective, not_forall] at h
    obtain ⟨⟨i, hi⟩, ⟨j, hj⟩, heq, hne⟩ := h
    refine mapM_eq_none_of_mem (k := (xs[i], i)) ?_ ((delta_eq_none hi).mpr
      ⟨j, hj, fun h => hne (Fin.ext h.symm), heq.symm⟩)
    rw [List.mem_iff_getElem]
    exact ⟨i, by simpa using hi, by simp⟩
  rw [hnone]
  rfl

/-- The coefficient in a place is the coefficient of the point among all points. -/
theorem delta_map (hnodup : (l.map x).Nodup) (hzero : 0 ∉ l.map x) (hi : i < l.length) :
    delta (l.map x) i (x l[i]) = some (weight l.toFinset x l[i]) := by
  have hl : l.Nodup := hnodup.of_map x
  have hperm : (l[i] :: l.eraseIdx i).Perm l := List.getElem_cons_eraseIdx_perm hi
  have herase : (l.eraseIdx i).toFinset = l.toFinset.erase l[i] := by
    have hnd := (hperm.nodup_iff.mpr hl)
    rw [← List.toFinset_eq_of_perm _ _ hperm, List.toFinset_cons, Finset.erase_insert]
    rw [List.mem_toFinset]
    exact (List.nodup_cons.mp hnd).1
  have hndErase : (l.eraseIdx i).Nodup := (List.nodup_cons.mp (hperm.nodup_iff.mpr hl)).2
  have hprod : ∀ f : ι → F, ((l.eraseIdx i).map f).prod = ∏ j ∈ l.toFinset.erase l[i], f j := by
    intro f
    rw [← herase, List.prod_toFinset _ hndErase]
  have hx0 : x l[i] ≠ 0 := fun h => hzero (h ▸ List.mem_map_of_mem (List.getElem_mem hi))
  have hall : (l.map x).prod = x l[i] * ∏ j ∈ l.toFinset.erase l[i], x j := by
    rw [← hprod, ← List.prod_cons, ← List.map_cons, (hperm.map x).prod_eq]
  have hvs : ((l.map x).eraseIdx i).map (fun y => y - x l[i])
      = (l.eraseIdx i).map fun j => x j - x l[i] := by
    rw [List.eraseIdx_map, List.map_map]
    rfl
  unfold delta
  simp only [hvs, hprod, hall]
  rw [if_neg, mul_div_mul_left _ _ hx0, ← Finset.prod_div_distrib]
  · rfl
  · rw [List.mem_map]
    rintro ⟨j, hj, hzeroj⟩
    have hmem : j ∈ l := (hperm.subset (List.mem_cons_of_mem _ hj))
    have hji : j = l[i] := List.inj_on_of_nodup_map hnodup hmem (List.getElem_mem hi)
      (sub_eq_zero.mp hzeroj)
    exact (List.nodup_cons.mp (hperm.nodup_iff.mpr hl)).1 (hji ▸ hj)

/-- **On points without repetitions it is the combination over their set.** -/
theorem atZero_map (hlen : 2 ≤ l.length) (hnodup : (l.map x).Nodup) (hzero : 0 ∉ l.map x)
    (y : ι → M) :
    atZero (l.map x) (l.map y) = some (∑ i ∈ l.toFinset, weight l.toFinset x i • y i) := by
  have hl : l.Nodup := hnodup.of_map x
  have hdeltas : (l.map x).zipIdx.mapM (fun p => delta (l.map x) p.2 p.1)
      = some (l.map fun i => weight l.toFinset x i) := by
    rw [mapM_eq_some_iff, List.forall₂_iff_get]
    refine ⟨by simp, fun i h₁ h₂ => ?_⟩
    have hi : i < l.length := by simpa using h₁
    simpa using delta_map hnodup hzero hi
  unfold atZero
  rw [if_neg (by rw [List.length_map]; omega), if_neg, hdeltas, Option.map_some]
  · rw [List.zipWith_map, List.zipWith_self, List.sum_toFinset _ hl]
  · rw [List.prod_eq_zero_iff]
    exact hzero

/-- **The order of the points does not matter.** -/
theorem atZero_perm {l' : List ι} (h : l.Perm l') (x : ι → F) (y : ι → M) :
    atZero (l.map x) (l.map y) = atZero (l'.map x) (l'.map y) := by
  by_cases hnodup : (l.map x).Nodup
  · by_cases hok : 2 ≤ l.length ∧ 0 ∉ l.map x
    · rw [atZero_map hok.1 hnodup hok.2, atZero_map (h.length_eq ▸ hok.1)
        ((h.map x).nodup_iff.mp hnodup) (fun hm => hok.2 ((h.map x).mem_iff.mpr hm)),
        List.toFinset_eq_of_perm _ _ h]
    · have hnone : ∀ {l : List ι}, ¬ (2 ≤ l.length ∧ 0 ∉ l.map x) →
          atZero (l.map x) (l.map y) = none := by
        intro l hno
        unfold atZero
        by_cases hlen : 2 ≤ l.length
        · have hz : 0 ∈ l.map x := by
            by_contra hz
            exact hno ⟨hlen, hz⟩
          rw [if_neg (by rw [List.length_map]; omega), if_pos (List.prod_eq_zero hz)]
        · rw [if_pos (by rw [List.length_map]; omega)]
      rw [hnone hok, hnone]
      rwa [← h.length_eq, ← (h.map x).mem_iff]
  · rw [atZero_of_not_nodup hnodup, atZero_of_not_nodup]
    rwa [← (h.map x).nodup_iff]

end Interpolation
