import Mathlib.Data.List.Forall2
import Mathlib.Data.List.Perm.Basic

/-!
# Machinery/Fold — loops that may fail

Folds and maps over a list whose step may fail.  A map succeeds when each of its steps does, and its
results are related to the list place by place (`mapM_eq_some_iff`); everything else about it —
membership, congruence, permutations — is read off that relation.  A run that stops at the first
failure is followed step by step along an abstract run, as long as its last state is a good one
(`foldStop_simulates`).  A run whose steps meet a condition where they happen (`MeetsAlong`) keeps
what each such step keeps (`MeetsAlong.foldlM`).
-/

namespace Fold

variable {σ τ κ ε : Type} {l : List κ} {f : κ → Option ε} {es : List ε} {s : σ}

/-- A fold that works on a part of the state is a fold over that part. -/
theorem foldlM_part (put : τ → σ) {step : σ → κ → Option σ} {step' : τ → κ → Option τ}
    (h : ∀ t, ∀ k ∈ l, step (put t) k = (step' t k).map put) (t : τ) :
    l.foldlM step (put t) = (l.foldlM step' t).map put := by
  induction l generalizing t with
  | nil => rfl
  | cons k l ih =>
    rw [List.foldlM_cons, List.foldlM_cons, h t k List.mem_cons_self]
    cases step' t k with
    | none => rfl
    | some t' => exact ih (fun t k hk => h t k (List.mem_cons_of_mem _ hk)) t'

/-- A fold that makes an entry and applies it makes all entries and applies them. -/
theorem foldlM_bind_entries (entry : κ → Option ε) (apply : τ → ε → Option τ) (l : List κ) (t : τ) :
    l.foldlM (fun t k => (entry k).bind (apply t)) t
      = (l.mapM entry).bind fun es => es.foldlM apply t := by
  induction l generalizing t with
  | nil => rfl
  | cons k l ih =>
    rw [List.foldlM_cons, List.mapM_cons]
    cases entry k with
    | none => rfl
    | some e =>
      simp only [Option.bind_eq_bind, Option.bind_some, ih]
      cases l.mapM entry with
      | none => cases apply t e <;> rfl
      | some es => rfl

/-- All entries exist when each of them does. -/
theorem mapM_eq_some_iff : l.mapM f = some es ↔ List.Forall₂ (fun k e => f k = some e) l es := by
  induction l generalizing es with
  | nil => simp [eq_comm]
  | cons k l ih =>
    rw [List.mapM_cons, List.forall₂_cons_left_iff]
    cases hk : f k with
    | none => simp
    | some e =>
      simp only [Option.bind_eq_bind, Option.bind_some]
      cases hl : l.mapM f with
      | none =>
        simp only [Option.bind_none, reduceCtorEq, false_iff, not_exists, not_and]
        intro b u _ hall
        rw [← ih, hl] at hall
        cases hall
      | some es' =>
        rw [hl] at ih
        simp only [Option.bind_some, Option.pure_def, Option.some.injEq, ← ih]
        constructor
        · rintro rfl
          exact ⟨e, es', rfl, rfl, rfl⟩
        · rintro ⟨b, u, rfl, rfl, rfl⟩
          rfl

theorem mem_of_mapM_eq_some (h : l.mapM f = some es) :
    (∀ k ∈ l, ∃ e ∈ es, f k = some e) ∧ ∀ e ∈ es, ∃ k ∈ l, f k = some e := by
  rw [mapM_eq_some_iff] at h
  induction h with
  | nil => simp
  | @cons k e l es hk _ ih =>
    refine ⟨fun k' hk' => ?_, fun e' he' => ?_⟩
    · rcases List.mem_cons.mp hk' with rfl | hk'
      · exact ⟨e, List.mem_cons_self, hk⟩
      · obtain ⟨e', he', hf⟩ := ih.1 k' hk'
        exact ⟨e', List.mem_cons_of_mem e he', hf⟩
    · rcases List.mem_cons.mp he' with rfl | he'
      · exact ⟨k, List.mem_cons_self, hk⟩
      · obtain ⟨k', hk', hf⟩ := ih.2 e' he'
        exact ⟨k', List.mem_cons_of_mem k hk', hf⟩

theorem mapM_eq_none_of_mem {k : κ} (hk : k ∈ l) (h : f k = none) : l.mapM f = none := by
  cases hl : l.mapM f with
  | none => rfl
  | some es =>
    obtain ⟨e, -, he⟩ := (mem_of_mapM_eq_some hl).1 k hk
    rw [h] at he
    cases he

theorem exists_mapM_of_forall (h : ∀ k ∈ l, ∃ e, f k = some e) : ∃ es, l.mapM f = some es := by
  induction l with
  | nil => exact ⟨[], rfl⟩
  | cons k l ih =>
    obtain ⟨e, he⟩ := h k List.mem_cons_self
    obtain ⟨es, hes⟩ := ih fun k' hk' => h k' (List.mem_cons_of_mem k hk')
    exact ⟨e :: es, by rw [List.mapM_cons, he, hes]; rfl⟩

theorem mapM_congr_of_mem {g : κ → Option ε} (h : ∀ k ∈ l, f k = g k) : l.mapM f = l.mapM g := by
  induction l with
  | nil => rfl
  | cons k l ih =>
    rw [List.mapM_cons, List.mapM_cons, h k List.mem_cons_self,
      ih fun k' hk' => h k' (List.mem_cons_of_mem k hk')]

/-- A permutation of the keys permutes the entries. -/
theorem exists_perm_of_mapM {l' : List κ} (hp : l'.Perm l) (h : l.mapM f = some es) :
    ∃ es', l'.mapM f = some es' ∧ es'.Perm es := by
  rw [mapM_eq_some_iff] at h
  obtain ⟨es', hall, hperm⟩ := List.perm_comp_forall₂ hp h
  exact ⟨es', mapM_eq_some_iff.mpr hall, hperm⟩

/-! ## Two runs side by side -/

section Rel

variable {α α' β β' : Type} {R : α → α' → Prop} {Q : β → β' → Prop} {x : Option α} {y : Option α'}

/-- What comes after related results is related when it is for all of them. -/
theorem rel_bind (h : Option.Rel R x y) {f : α → Option β} {g : α' → Option β'}
    (hfg : ∀ a b, R a b → Option.Rel Q (f a) (g b)) : Option.Rel Q (x >>= f) (y >>= g) := by
  cases h with
  | none => exact .none
  | some h => exact hfg _ _ h

theorem rel_mono {R' : α → α' → Prop} (h : Option.Rel R x y) (hR : ∀ a b, R a b → R' a b) :
    Option.Rel R' x y := by
  cases h with
  | none => exact .none
  | some h => exact .some (hR _ _ h)

theorem rel_map (h : Option.Rel R x y) {f : α → β} {g : α' → β'}
    (hfg : ∀ a b, R a b → Q (f a) (g b)) : Option.Rel Q (x.map f) (y.map g) := by
  cases h with
  | none => exact .none
  | some h => exact .some (hfg _ _ h)

end Rel

/-! ## Runs that stop -/

/-- A fold that stops at the first step that fails: the last state, and the failure. -/
def foldStop (step : σ → κ → Except ε σ) : σ → List κ → σ × Option ε
  | s, [] => (s, none)
  | s, k :: l =>
    match step s k with
    | .error e => (s, some e)
    | .ok s' => foldStop step s' l

variable {step : σ → κ → Except ε σ}

theorem foldStop_append {s' : σ} (h : foldStop step s l = (s', none)) (l' : List κ) :
    foldStop step s (l ++ l') = foldStop step s' l' := by
  induction l generalizing s with
  | nil =>
    obtain rfl := congrArg Prod.fst h
    rfl
  | cons k l ih =>
    cases hs : step s k with
    | error e =>
      simp only [foldStop, hs] at h
      cases h
    | ok s₁ =>
      simp only [foldStop, hs, List.cons_append] at h ⊢
      exact ih h

/-- What a step cannot make true again holds all along a run that ends with it. -/
theorem good_of_foldStop {Good : σ → Prop}
    (hback : ∀ {s k s'}, step s k = .ok s' → Good s' → Good s) (h : Good (foldStop step s l).1) :
    Good s := by
  induction l generalizing s with
  | nil => exact h
  | cons k l ih =>
    cases hs : step s k with
    | error e => simpa only [foldStop, hs] using h
    | ok s' => exact hback hs (ih (by simpa only [foldStop, hs] using h))

/-- **A run follows the abstract run** when every step succeeds and keeps the relation as long as
the state it leads to is a good one. -/
theorem foldStop_simulates (Good : σ → Prop) {R : σ → τ → Prop} {next : τ → κ → τ}
    (hback : ∀ {s k s'}, step s k = .ok s' → Good s' → Good s)
    (hstep : ∀ {s t}, R s t → ∀ k ∈ l, ∃ s', step s k = .ok s' ∧ (Good s' → R s' (next t k)))
    {t : τ} (hR : R s t) (hgood : Good (foldStop step s l).1) :
    ∃ s', foldStop step s l = (s', none) ∧ R s' (l.foldl next t) := by
  induction l generalizing s t with
  | nil => exact ⟨s, rfl, hR⟩
  | cons k l ih =>
    obtain ⟨s', hs, hR'⟩ := hstep hR k List.mem_cons_self
    simp only [foldStop, hs] at hgood ⊢
    exact ih (fun h k hk => hstep h k (List.mem_cons_of_mem _ hk))
      (hR' (good_of_foldStop hback hgood)) hgood

/-! ## Runs under a condition -/

section Along

variable {step : σ → κ → Option σ} {C C' : σ → κ → Prop} {k : κ} {s' : σ}

/-- Each step meets the condition in the state where it is taken. -/
def MeetsAlong (step : σ → κ → Option σ) (C : σ → κ → Prop) : σ → List κ → Prop
  | _, [] => True
  | s, k :: l => C s k ∧ ∀ s' ∈ step s k, MeetsAlong step C s' l

instance decidableMeetsAlong [∀ s, DecidablePred (C s)] :
    ∀ (s : σ) (l : List κ), Decidable (MeetsAlong step C s l)
  | _, [] => .isTrue trivial
  | s, k :: l =>
    have := fun s' => decidableMeetsAlong s' l
    inferInstanceAs (Decidable (C s k ∧ ∀ s' ∈ step s k, _))

/-- A run is its first step and the run of the rest. -/
theorem foldlM_cons_eq_some :
    (k :: l).foldlM step s = some s' ↔ ∃ m, step s k = some m ∧ l.foldlM step m = some s' := by
  rw [List.foldlM_cons, Option.bind_eq_bind, Option.bind_eq_some_iff]

/-- Two conditions that are met are met together. -/
theorem MeetsAlong.and (h : MeetsAlong step C s l) (h' : MeetsAlong step C' s l) :
    MeetsAlong step (fun s k => C s k ∧ C' s k) s l := by
  induction l generalizing s with
  | nil => trivial
  | cons k l ih => exact ⟨⟨h.1, h'.1⟩, fun m hm => ih (h.2 m hm) (h'.2 m hm)⟩

/-- **What each step keeps, the run keeps.** -/
theorem MeetsAlong.foldlM {I : σ → Prop} (hI : ∀ {s k s'}, I s → C s k → step s k = some s' → I s')
    (hC : MeetsAlong step C s l) (hl : l.foldlM step s = some s') (h : I s) : I s' := by
  induction l generalizing s with
  | nil =>
    cases hl
    exact h
  | cons k l ih =>
    obtain ⟨m, hstep, hl⟩ := foldlM_cons_eq_some.mp hl
    exact ih (hC.2 m hstep) hl (hI h hC.1 hstep)

/-- What every step keeps, every run keeps. -/
theorem foldlM_keeps {I : σ → Prop} (hI : ∀ {s k s'}, I s → step s k = some s' → I s')
    (hl : l.foldlM step s = some s') (h : I s) : I s' := by
  have hall : MeetsAlong step (fun _ _ => True) s l := by
    clear hl h
    induction l generalizing s with
    | nil => trivial
    | cons k l ih => exact ⟨trivial, fun _ _ => ih⟩
  exact hall.foldlM (fun h _ => hI h) hl h

end Along

end Fold
