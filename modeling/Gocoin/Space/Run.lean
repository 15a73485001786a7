import Mathlib.Logic.Relation
import Gocoin.Space.Frame

/-!
# Space/Run — runs of a chain

A chain moves by `Insert`, by `insertChain` and by the arrival of liquidation reports.  `Run P C`
are the runs in which every executed `Insert` — also one inside `insertChain` — meets the condition
`C` on the chain before it and its block; with the trivial condition they are all runs.  A property
is an invariant of these runs as soon as a single `Insert` and a report keep it (`Run.invariant`).
-/

namespace Gocoin.Space

open State

namespace BlockChain

variable (P : Prims)

/-! ## What one insertion does -/

variable {ord : IterOrder} {bc bc' : BlockChain} {b : Block} {evs : List CreatethresholdEvent}

/-- The part of `Insert` behind its checks leaves the chain alone or makes the block the head. -/
theorem insertHead_cases (h : insertHead P ord bc b = some (bc', evs)) :
    bc' = bc ∨
      ∃ s env s' c db, stateAt bc.db bc.currentBlock = .ok s ∧
        process P bc b s = some (env, s', evs) ∧ s'.commitTo P.keccak ord env.db = some c ∧
        writeHead P c.db b = some db ∧ bc' = ⟨db, b, env.validateGroup⟩ := by
  unfold insertHead at h
  split at h
  · cases h
  · cases h
    exact .inl rfl
  · next s hs =>
    simp only [bind_eq_some, Prod.exists] at h
    obtain ⟨env, s', evs', hp, c, hc, db, hw, h⟩ := h
    cases h
    exact .inr ⟨s, env, s', c, db, hs, hp, hc, hw, rfl⟩

/-- **What `Insert` can do**: nothing, or — behind its three checks — make the block the head. -/
theorem insert_cases (h : insert P ord bc b = some (bc', evs)) :
    bc' = bc ∨
      (blockSigerVerifier P b = some true ∧ b.numberU64 ≠ bc.currentBlock.numberU64 ∧
        getCanonicalHash bc.db b.numberU64 ≠ b.hash P.keccak ∧
        insertHead P ord bc b = some (bc', evs)) := by
  simp only [insert, bind_eq_some] at h
  obtain ⟨ok, hok, h⟩ := h
  split at h
  · next hv =>
    rw [hv] at hok
    split at h
    · cases h
      exact .inl rfl
    · next hn =>
      split at h
      · next hh => exact .inr ⟨hok, hn, hh, h⟩
      · cases h
        exact .inl rfl
  · cases h
    exact .inl rfl

/-- The database of a new head: the execution, the commit, then the head's own entries. -/
theorem insertHead_sameOff (h : insertHead P ord bc b = some (bc', evs)) :
    bc' = bc ∨ ∃ db, bc.db.SameOff executedKeys db ∧
      writeHead P db b = some bc'.db ∧ bc'.currentBlock = b := by
  obtain h | ⟨s, env, s', c, db, -, hp, hc, hw, rfl⟩ := insertHead_cases P h
  · exact .inl h
  · refine .inr ⟨c.db, ?_, hw, rfl⟩
    refine ((process_sameOff P hp).mono Set.subset_union_left).trans ((commitTo_sameOff hc).mono ?_)
    exact Set.union_subset_union_left _ Set.subset_union_right

/-! ## Steps and runs -/

/-- Every insertion that the loop of `insertChain` executes meets the condition. -/
def Meets (C : BlockChain → Block → Prop) : BlockChain → List (Block × IterOrder) → Prop
  | _, [] => True
  | bc, (b, ord) :: rest =>
    C bc b ∧ ∀ bc' evs, insert P ord bc b = some (bc', evs) → Meets C bc' rest

/-- The moves of a chain whose insertions meet the condition. -/
inductive Step (C : BlockChain → Block → Prop) : BlockChain → BlockChain → Prop
  | insert {bc bc' : BlockChain} {ord : IterOrder} {b : Block} {evs : List CreatethresholdEvent}
      (hC : C bc b) (h : insert P ord bc b = some (bc', evs)) : Step C bc bc'
  | insertChain {bc bc' : BlockChain} {chain : List (Block × IterOrder)} {n : ℕ}
      {evs : List CreatethresholdEvent} (hC : linked P (chain.map Prod.fst) → Meets P C bc chain)
      (h : insertChain P bc chain = some (n, bc', evs)) : Step C bc bc'
  | report (bc : BlockChain) (hash : Hash) (data : Bytes) :
      Step C bc { bc with db := writeLiquidationHash bc.db hash data }

/-- The runs whose insertions meet the condition. -/
def Run (C : BlockChain → Block → Prop) : BlockChain → BlockChain → Prop :=
  Relation.ReflTransGen (Step P C)

variable {P} {C : BlockChain → Block → Prop} {I : BlockChain → Prop}

/-- What a single insertion keeps, the loop of `insertChain` keeps. -/
theorem insertAll_invariant
    (hins : ∀ {bc bc' ord b evs}, I bc → C bc b → insert P ord bc b = some (bc', evs) → I bc')
    {chain : List (Block × IterOrder)} (hI : I bc) (hC : Meets P C bc chain)
    (h : insertAll P bc chain = some (bc', evs)) : I bc' := by
  induction chain generalizing bc evs with
  | nil =>
    cases h
    exact hI
  | cons p rest ih =>
    simp only [insertAll, bind_eq_some, Prod.exists] at h
    obtain ⟨bc₁, evs₁, h₁, bc₂, evs₂, h₂, h⟩ := h
    cases h
    exact ih (hins hI hC.1 h₁) (hC.2 bc₁ evs₁ h₁) h₂

/-- **The invariant rule**: a property that holds at the start and that an insertion and a report
keep holds in every chain of the run. -/
theorem Run.invariant {bc₀ : BlockChain} (hr : Run P C bc₀ bc) (h₀ : I bc₀)
    (hins : ∀ {bc bc' ord b evs}, I bc → C bc b → insert P ord bc b = some (bc', evs) → I bc')
    (hrep : ∀ {bc} (hash : Hash) (data : Bytes), I bc →
      I { bc with db := writeLiquidationHash bc.db hash data }) : I bc := by
  induction hr with
  | refl => exact h₀
  | tail _ hstep ih =>
    cases hstep with
    | insert hC h => exact hins ih hC h
    | insertChain hC h =>
      unfold insertChain at h
      split at h
      · next hl =>
        simp only [bind_eq_some, Prod.exists] at h
        obtain ⟨bc₁, evs₁, h₁, h⟩ := h
        cases h
        exact insertAll_invariant hins ih (hC hl) h₁
      · cases h
        exact ih
    | report hash data => exact hrep hash data ih

end BlockChain

end Gocoin.Space
