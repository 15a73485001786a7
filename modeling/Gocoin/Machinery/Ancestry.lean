import Mathlib.Logic.Relation
import Mathlib.Order.Nat

/-!
# Machinery/Ancestry — where two chains of parents meet

A partial function `parent` that lowers a rank by one makes a forest.  The last common ancestor of
two elements is found by lifting the one of higher rank to the rank of the other (`climb`) and then
walking up from both at once (`meet`).  The loops take fuel, and running out of it is `none`;
reaching an element without parent is an outcome.

* `climb_spec` — the outcome has the same ancestors of the rank that is looked for, and below.
* `meet_spec` — from two elements of one rank, the outcome is their last common ancestor.
-/

namespace Ancestry

variable {α : Type}

/-- `c` is an ancestor of `a`, or `a` itself. -/
def Ancestor (parent : α → Option α) (a c : α) : Prop :=
  Relation.ReflTransGen (fun x p => parent x = some p) a c

/-- `c` is a common ancestor of `a` and `b`. -/
def Common (parent : α → Option α) (a b c : α) : Prop := Ancestor parent a c ∧ Ancestor parent b c

/-- `c` is the last common ancestor: all others are ancestors of it. -/
def Last (parent : α → Option α) (a b c : α) : Prop :=
  Common parent a b c ∧ ∀ d, Common parent a b d → Ancestor parent c d

/-- The loop that goes up as long as a test says so. -/
def climb (parent : α → Option α) (above : α → Bool) : ℕ → α → Option (Option α)
  | 0, _ => none
  | fuel + 1, a =>
    if above a then
      match parent a with
      | none => some none
      | some a => climb parent above fuel a
    else some (some a)

/-- The loop that goes up from two elements until they are the same. -/
def meet (parent : α → Option α) (same : α → α → Bool) : ℕ → α → α → Option (Option α)
  | 0, _, _ => none
  | fuel + 1, a, b =>
    if same a b then some (some a)
    else
      match parent a with
      | none => some none
      | some a =>
        match parent b with
        | none => some none
        | some b => meet parent same fuel a b

/-- On the elements of `S`, parents are in `S` and have a rank that is lower by one. -/
structure Ranked (parent : α → Option α) (S : α → Prop) (rank : α → ℕ) : Prop where
  mem : ∀ {a p}, S a → parent a = some p → S p
  rank_parent : ∀ {a p}, S a → parent a = some p → rank p + 1 = rank a

section

variable {parent : α → Option α} {S : α → Prop} {rank : α → ℕ} {a b c d p : α} {n fuel : ℕ}

theorem Ancestor.refl (a : α) : Ancestor parent a a := Relation.ReflTransGen.refl

theorem Ancestor.of_parent (hp : parent a = some p) (h : Ancestor parent p c) :
    Ancestor parent a c := Relation.ReflTransGen.head hp h

/-- An ancestor is the element itself or an ancestor of the parent. -/
theorem Ancestor.cases (h : Ancestor parent a c) :
    a = c ∨ ∃ p, parent a = some p ∧ Ancestor parent p c := Relation.ReflTransGen.cases_head h

theorem Ancestor.eq_of_none (h : Ancestor parent a c) (hp : parent a = none) : a = c := by
  refine h.cases.resolve_right ?_
  rintro ⟨p, hp', -⟩
  rw [hp] at hp'
  cases hp'

theorem ancestor_iff_of_ne (hp : parent a = some p) (hne : a ≠ c) :
    Ancestor parent a c ↔ Ancestor parent p c := by
  refine ⟨fun h => ?_, Ancestor.of_parent hp⟩
  obtain ⟨p', hp', h⟩ := h.cases.resolve_left hne
  rw [hp, Option.some.injEq] at hp'
  exact hp' ▸ h

namespace Ranked

section

variable (hR : Ranked parent S rank)
include hR

/-- Ancestors have no higher rank, and only the element itself has the same. -/
theorem rank_le (ha : S a) (h : Ancestor parent a c) :
    rank c ≤ rank a ∧ (rank a ≤ rank c → a = c) := by
  induction h using Relation.ReflTransGen.head_induction_on with
  | refl => exact ⟨le_rfl, fun _ => rfl⟩
  | head hp _ ih =>
    obtain ⟨hle, -⟩ := ih (hR.mem ha hp)
    have hrank := hR.rank_parent ha hp
    exact ⟨by omega, fun h => absurd h (by omega)⟩

theorem mem_of_ancestor (ha : S a) (h : Ancestor parent a c) : S c := by
  induction h with
  | refl => exact ha
  | tail _ hp ih => exact hR.mem ih hp

/-- **The spec of the climb to a rank**: it ends, at an element of at most that rank with the same
ancestors of that rank and below, or nowhere when there is none. -/
theorem climb_spec {above : α → Bool}
    (habove : ∀ a, S a → (above a = true ↔ n < rank a)) (ha : S a) (hfuel : rank a < fuel) :
    ∃ r, climb parent above fuel a = some r ∧
      (∀ a', r = some a' → S a' ∧ rank a' = min (rank a) n ∧
        ∀ d, rank d ≤ n → (Ancestor parent a d ↔ Ancestor parent a' d)) ∧
      (r = none → ∀ d, rank d ≤ n → ¬ Ancestor parent a d) := by
  induction fuel generalizing a with
  | zero => exact absurd hfuel (Nat.not_lt_zero _)
  | succ fuel ih =>
    unfold climb
    by_cases hup : n < rank a
    · rw [if_pos ((habove a ha).mpr hup)]
      have hne : ∀ d, rank d ≤ n → a ≠ d := by
        rintro d hd rfl
        omega
      cases hp : parent a with
      | none =>
        refine ⟨none, rfl, nofun, fun _ d hd h => hne d hd (h.eq_of_none hp)⟩
      | some p =>
        have hrank := hR.rank_parent ha hp
        obtain ⟨r, hr, hsome, hnone⟩ := ih (hR.mem ha hp) (by omega)
        refine ⟨r, hr, fun a' ha' => ?_, fun h d hd => ?_⟩
        · obtain ⟨hS, hmin, hiff⟩ := hsome a' ha'
          refine ⟨hS, by omega, fun d hd => ?_⟩
          rw [ancestor_iff_of_ne hp (hne d hd)]
          exact hiff d hd
        · rw [ancestor_iff_of_ne hp (hne d hd)]
          exact hnone h d hd
    · rw [if_neg (mt (habove a ha).mp hup)]
      refine ⟨some a, rfl, ?_, nofun⟩
      rintro a' ⟨⟩
      exact ⟨ha, by omega, fun d _ => Iff.rfl⟩

/-- Different elements of one rank have the common ancestors of their parents. -/
theorem common_iff (ha : S a) (hb : S b) (hrank : rank a = rank b)
    (hne : a ≠ b) {q : α} (hp : parent a = some p) (hq : parent b = some q) :
    Common parent a b d ↔ Common parent p q d := by
  have hproper : Common parent a b d → a ≠ d ∧ b ≠ d := by
    rintro ⟨hda, hdb⟩
    constructor
    · rintro rfl
      exact hne ((hR.rank_le hb hdb).2 hrank.ge).symm
    · rintro rfl
      exact hne ((hR.rank_le ha hda).2 hrank.le)
  constructor
  · intro h
    obtain ⟨hna, hnb⟩ := hproper h
    exact ⟨(ancestor_iff_of_ne hp hna).mp h.1, (ancestor_iff_of_ne hq hnb).mp h.2⟩
  · exact fun h => ⟨h.1.of_parent hp, h.2.of_parent hq⟩

/-- Different elements of one rank, one of them without parent, have no common ancestor. -/
theorem not_common_of_none (ha : S a) (hb : S b)
    (hrank : rank a = rank b) (hne : a ≠ b) (hp : parent a = none ∨ parent b = none) :
    ¬ Common parent a b d := by
  rintro ⟨hda, hdb⟩
  rcases hp with hp | hp
  · obtain rfl := hda.eq_of_none hp
    exact hne ((hR.rank_le hb hdb).2 hrank.ge).symm
  · obtain rfl := hdb.eq_of_none hp
    exact hne ((hR.rank_le ha hda).2 hrank.le)

/-- **The spec of the common walk**: from two elements of one rank it ends at their last common
ancestor, or nowhere when they have none. -/
theorem meet_spec {same : α → α → Bool}
    (hsame : ∀ a b, S a → S b → (same a b = true ↔ a = b)) (ha : S a) (hb : S b)
    (hrank : rank a = rank b) (hfuel : rank a < fuel) :
    ∃ r, meet parent same fuel a b = some r ∧ (∀ c, r = some c → Last parent a b c) ∧
      (r = none → ∀ d, ¬ Common parent a b d) := by
  induction fuel generalizing a b with
  | zero => exact absurd hfuel (Nat.not_lt_zero _)
  | succ fuel ih =>
    unfold meet
    by_cases heq : a = b
    · subst heq
      rw [if_pos ((hsame a a ha ha).mpr rfl)]
      refine ⟨some a, rfl, ?_, nofun⟩
      rintro c ⟨⟩
      exact ⟨⟨.refl a, .refl a⟩, fun d hd => hd.1⟩
    · rw [if_neg (mt (hsame a b ha hb).mp heq)]
      cases hp : parent a with
      | none =>
        exact ⟨none, rfl, nofun, fun _ d => hR.not_common_of_none ha hb hrank heq (.inl hp)⟩
      | some p =>
        cases hq : parent b with
        | none =>
          exact ⟨none, rfl, nofun, fun _ d => hR.not_common_of_none ha hb hrank heq (.inr hq)⟩
        | some q =>
          have hrp := hR.rank_parent ha hp
          have hrq := hR.rank_parent hb hq
          have hcommon : ∀ d, Common parent a b d ↔ Common parent p q d :=
            fun d => hR.common_iff ha hb hrank heq hp hq
          obtain ⟨r, hr, hsome, hnone⟩ := ih (hR.mem ha hp) (hR.mem hb hq) (by omega) (by omega)
          refine ⟨r, hr, fun c hc => ?_, fun h d => ?_⟩
          · obtain ⟨hlast, hmax⟩ := hsome c hc
            exact ⟨(hcommon c).mpr hlast, fun d hd => hmax d ((hcommon d).mp hd)⟩
          · rw [hcommon]
            exact hnone h d

end

end Ranked

end

end Ancestry
