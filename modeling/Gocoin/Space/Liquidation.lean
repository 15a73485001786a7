import Mathlib.Algebra.Order.BigOperators.Group.List
import Gocoin.State.Aliasing
import Gocoin.State.Bindings
import Gocoin.Space.Execution

/-!
# Space/Liquidation — what settled reports take from a space

`LiquidationToState`, of which the chain and the worker have a copy each.  A report is compared with
the low 64 bits of the balance: while the gas stays below them it is subtracted, and the first
report that does not leaves the space with nothing.  So all the gas of a space together takes
`min(balance, gas)` from it, unless the balance is beyond 64 bits and the gas lies between its low
bits and the whole of it (`liquidation_takes_min_iff`).  An id of more than 64 bits names no space,
and still its report is taken from the space of its low word, if the cache has that one
(`reaching`).
-/

namespace Gocoin.Space

open State Trie
open Sample (keccak prims)

/-! ## One balance -/

/-- What one report leaves of a balance. -/
def charge (b : ℤ) (gas : UInt64) : ℤ := if gas < intU64 b then b - gas.toNat else 0

/-- All the gas of some reports. -/
def totalGas (gases : List UInt64) : ℤ := (gases.map fun g => (g.toNat : ℤ)).sum

theorem totalGas_nonneg (gases : List UInt64) : 0 ≤ totalGas gases :=
  List.sum_nonneg fun x hx => by
    obtain ⟨g, -, rfl⟩ := List.mem_map.mp hx
    exact Int.natCast_nonneg _

variable {b : ℤ} {gases : List UInt64}

/-- The comparison with the low bits of a balance that is not negative. -/
theorem lt_intU64 (hb : 0 ≤ b) (gas : UInt64) : gas < intU64 b ↔ (gas.toNat : ℤ) < b % 2 ^ 64 := by
  obtain ⟨n, rfl⟩ := Int.eq_ofNat_of_zero_le hb
  rw [UInt64.lt_iff_toNat_lt, intU64, Int.natAbs_natCast, UInt64.toNat_ofNat']
  exact_mod_cast Iff.rfl

/-- **What some reports leave of a balance**: the difference while all the gas is below the low 64
bits, and nothing otherwise. -/
theorem foldl_charge (hne : gases ≠ []) (hb : 0 ≤ b) :
    gases.foldl charge b
      = if totalGas gases < b % 2 ^ 64 then b - totalGas gases else 0 := by
  induction gases generalizing b with
  | nil => exact absurd rfl hne
  | cons g gases ih =>
    have htotal : totalGas (g :: gases) = g.toNat + totalGas gases := by simp [totalGas]
    have hnonneg := totalGas_nonneg gases
    have hmod : b % 2 ^ 64 ≤ b := by omega
    rw [List.foldl_cons, htotal]
    by_cases hlt : (g.toNat : ℤ) < b % 2 ^ 64
    · have hcharge : charge b g = b - g.toNat := if_pos ((lt_intU64 hb g).mpr hlt)
      have hlow : (b - g.toNat) % 2 ^ 64 = b % 2 ^ 64 - g.toNat := by omega
      rw [hcharge]
      cases gases with
      | nil =>
        have hzero : totalGas [] = 0 := rfl
        rw [hzero, if_pos (by omega), add_zero]
        rfl
      | cons g' gases =>
        rw [ih (List.cons_ne_nil _ _) (by omega), hlow]
        split_ifs <;> omega
    · have hcharge : charge b g = 0 := if_neg fun h => hlt ((lt_intU64 hb g).mp h)
      rw [hcharge, if_neg (by omega)]
      cases gases with
      | nil => rfl
      | cons g' gases =>
        rw [ih (List.cons_ne_nil _ _) le_rfl, if_neg (by simpa using hnonneg)]

/-! ## The spaces of a book -/

/-- What one report does to its space. -/
def chargeSpace (sp : State.Space) (gas : UInt64) : State.Space :=
  if gas < intU64 sp.balance then sp.sub gas.toNat else sp.sub sp.balance

theorem balance_sub (amount : ℤ) (sp : State.Space) :
    (sp.sub amount).balance = sp.balance - amount := by
  unfold State.Space.sub
  split
  · next h => rw [h, sub_zero]
  · rfl

theorem balance_chargeSpace (sp : State.Space) (gas : UInt64) :
    (chargeSpace sp gas).balance = charge sp.balance gas := by
  unfold chargeSpace charge
  split
  · exact balance_sub _ _
  · rw [balance_sub, sub_self]

theorem bindAddr_chargeSpace (sp : State.Space) (gas : UInt64) :
    (chargeSpace sp gas).bindAddr = sp.bindAddr := by
  unfold chargeSpace
  split <;> exact State.Space.bindAddr_sub _ _

theorem foldl_chargeSpace (gases : List UInt64) (sp : State.Space) :
    (gases.foldl chargeSpace sp).balance = gases.foldl charge sp.balance ∧
      (gases.foldl chargeSpace sp).bindAddr = sp.bindAddr := by
  induction gases generalizing sp with
  | nil => exact ⟨rfl, rfl⟩
  | cons g gases ih =>
    obtain ⟨hbalance, hbind⟩ := ih (chargeSpace sp g)
    rw [List.foldl_cons, List.foldl_cons, hbalance, hbind, balance_chargeSpace,
      bindAddr_chargeSpace]
    exact ⟨rfl, rfl⟩

variable (reports : List LiquidationReport)

/-- The gas reported for a space. -/
def gasesOf (i : UInt64) : List UInt64 :=
  (reports.filter fun r => u64 r.spaceId = i).map LiquidationReport.gas

theorem account_foldl_chargeReport (B : Book) :
    (reports.foldl chargeReport B).account = B.account := by
  induction reports generalizing B with
  | nil => rfl
  | cons r reports ih => rw [List.foldl_cons, ih, chargeReport, Book.account_onSpace]

theorem space_chargeReport (B : Book) (r : LiquidationReport) (i : UInt64) :
    (chargeReport B r).space i
      = if u64 r.spaceId = i then (B.space i).map (chargeSpace · r.gas) else B.space i := by
  unfold chargeReport Book.onSpace
  by_cases hi : u64 r.spaceId = i
  · rw [if_pos hi, hi]
    cases hsp : B.space i with
    | found sp => exact Book.space_setSpace_self
    | absent => exact hsp
    | failed => exact hsp
  · rw [if_neg hi]
    cases B.space (u64 r.spaceId) with
    | found sp => exact Book.space_setSpace_of_ne (Ne.symm hi)
    | absent => rfl
    | failed => rfl

/-- **Every space is charged with its own gas**, in order. -/
theorem space_foldl_chargeReport (B : Book) (i : UInt64) :
    (reports.foldl chargeReport B).space i
      = (B.space i).map fun sp => (gasesOf reports i).foldl chargeSpace sp := by
  induction reports generalizing B with
  | nil => cases h : B.space i <;> simp [gasesOf, Lookup.map, h]
  | cons r reports ih =>
    rw [List.foldl_cons, ih, space_chargeReport]
    by_cases hi : u64 r.spaceId = i
    · have hgas : gasesOf (r :: reports) i = r.gas :: gasesOf reports i := by
        simp [gasesOf, hi]
      rw [if_pos hi, hgas]
      cases B.space i <;> rfl
    · have hgas : gasesOf (r :: reports) i = gasesOf reports i := by
        simp [gasesOf, hi]
      rw [if_neg hi, hgas]

/-! ## Ids beyond 64 bits

A lookup asks the cache for the low word of the id, and only then the trie for all of it. -/

/-- **The reports that reach a space.**  An id of 64 bits reaches its own space; a longer one
reaches the space of its low word while the cache has it, from before or since an earlier report. -/
def reaching (cached : UInt64 → Bool) : List LiquidationReport → List LiquidationReport
  | [] => []
  | r :: reports =>
    if r.spaceId < 2 ^ 64 then
      r :: reaching (fun i => cached i || decide (i = u64 r.spaceId)) reports
    else if cached (u64 r.spaceId) then r :: reaching cached reports
    else reaching cached reports

/-- The reports that name their space. -/
def naming : List LiquidationReport := reports.filter fun r => r.spaceId < 2 ^ 64

theorem reaching_of_small {reports : List LiquidationReport}
    (hids : ∀ r ∈ reports, r.spaceId < 2 ^ 64) (cached : UInt64 → Bool) :
    reaching cached reports = reports := by
  induction reports generalizing cached with
  | nil => rfl
  | cons r reports ih =>
    rw [reaching, if_pos (hids r List.mem_cons_self),
      ih fun r' h => hids r' (List.mem_cons_of_mem r h)]

/-- What is named is taken, and longer ids only add to it. -/
theorem totalGas_naming_le (cached : UInt64 → Bool) (i : UInt64) :
    totalGas (gasesOf (naming reports) i) ≤ totalGas (gasesOf (reaching cached reports) i) := by
  have hcons : ∀ r rs, totalGas (gasesOf (r :: rs) i)
      = (if u64 r.spaceId = i then (r.gas.toNat : ℤ) else 0) + totalGas (gasesOf rs i) :=
    fun r rs => by
      by_cases hi : u64 r.spaceId = i <;> simp [gasesOf, hi, totalGas]
  induction reports generalizing cached with
  | nil => exact le_rfl
  | cons r reports ih =>
    unfold naming reaching
    rw [List.filter_cons]
    by_cases hr : r.spaceId < 2 ^ 64
    · rw [if_pos (decide_eq_true hr), if_pos hr, hcons, hcons]
      exact Int.add_le_add_left (ih _) _
    · rw [if_neg (by simpa using hr), if_neg hr]
      split
      · rw [hcons]
        have hle := ih cached
        split <;> (unfold naming at hle; omega)
      · exact ih cached

section

variable {P : Prims} {get : Nodes} {C : Contents} {s s' : StateDB}
  {r : LiquidationReport}

/-- With the space of its low word in the cache, a report is one for that space. -/
theorem settleReport_of_cached {sp : SpaceObject} (hc : s.spaceObjects (u64 r.spaceId) = some sp) :
    settleReport P get s r = settleReport P get s { r with spaceId := (u64 r.spaceId).toNat } := by
  have hget : s.getSpaceObject P.keccak get r.spaceId = some (.found sp, s) := by
    rw [StateDB.getSpaceObject, hc]
  have hget' : s.getSpaceObject P.keccak get (u64 r.spaceId).toNat = some (.found sp, s) := by
    rw [StateDB.getSpaceObject, u64_toNat, hc]
  simp only [settleReport, StateDB.getSpaceBalanceByID, StateDB.subSpaceBalanceByID,
    StateDB.withSpace, hget, hget', some_bind]

/-- A settled report leaves the other cache entries, and caches a space that is there. -/
theorem settleReport_caches (h : Bounded P get C s) (hs' : settleReport P get s r = some s') :
    (∀ j ≠ u64 r.spaceId, s'.spaceObjects j = s.spaceObjects j) ∧
      ∀ sp, s.spaceAt P.keccak C r.spaceId = .found sp →
        ∃ sp', s'.spaceObjects (u64 r.spaceId) = some sp' := by
  obtain ⟨s₁, hget, hl⟩ := h.anyId.exists_getSpaceObject r.spaceId fun _ _ => trivial
  have hap := hl.apart h.anyId
  have hsub : ∀ amount, s₁.subSpaceBalanceByID P.keccak get r.spaceId amount = some s' →
      Apart P.keccak get C r.spaceId s₁ s' ∧
        ((∃ sp, s₁.spaceObjects (u64 r.spaceId) = some sp) →
          ∃ sp, s'.spaceObjects (u64 r.spaceId) = some sp) := fun amount hs => by
    obtain ⟨s₂, hs₂, hap₂⟩ := hap.good.apart_withSpace r.spaceId
      (editsSpace_subSpaceBalance amount)
    obtain ⟨s₃, hs₃, hr₃⟩ := hap.good.exists_withSpace (T := False) (n := r.spaceId)
      (allowsStored_true _ _) trivial False.elim (editsSpace_subSpaceBalance amount)
    obtain rfl := Option.some.inj (hs₂.symm.trans hs)
    obtain rfl := Option.some.inj (hs₃.symm.trans hs)
    exact ⟨hap₂, hr₃.moves.space_cached⟩
  have hboth : ∃ amount, s₁.subSpaceBalanceByID P.keccak get r.spaceId amount = some s' := by
    unfold settleReport StateDB.getSpaceBalanceByID at hs'
    rw [hget] at hs'
    cases hat : s.spaceAt P.keccak C r.spaceId with
    | _ =>
      rw [hat] at hs'
      simp only [some_bind] at hs'
      split at hs'
      · exact ⟨_, hs'⟩
      · exact ⟨_, hs'⟩
  obtain ⟨amount, hs⟩ := hboth
  obtain ⟨hap', hcached⟩ := hsub amount hs
  exact ⟨(hap.trans hap').spaces, fun sp hsp => hcached ⟨sp, (hl.cache sp).mpr hsp⟩⟩

/-- Without it, and with nothing stored, a report changes nothing. -/
theorem exists_settleReport_unstored (hK : StoresSmall P C) (h : Bounded P get C s)
    (hc : s.spaceObjects (u64 r.spaceId) = none)
    (hst : C.storedSpace P.keccak r.spaceId = .absent) :
    ∃ s', settleReport P get s r = some s' ∧ Bounded P get C s' ∧
      s'.spaceObjects = s.spaceObjects ∧ s'.book P.keccak C = s.book P.keccak C := by
  have hlook : ∀ {s₀ : StateDB}, Bounded P get C s₀ → s₀.spaceObjects (u64 r.spaceId) = none →
      ∃ s₁, s₀.getSpaceObject P.keccak get r.spaceId = some (.absent, s₁) ∧ Bounded P get C s₁ ∧
        s₁.spaceObjects = s₀.spaceObjects ∧ s₁.book P.keccak C = s₀.book P.keccak C :=
    fun {s₀} h₀ hc₀ => by
      have hat : s₀.spaceAt P.keccak C r.spaceId = .absent := by rw [StateDB.spaceAt, hc₀, hst]
      obtain ⟨s₁, hget, hl⟩ := h₀.exists_getSpaceObject r.spaceId fun sp hsp => by
        rw [hst] at hsp
        cases hsp
      have hsame : s₁.spaceObjects = s₀.spaceObjects := funext fun j => by
        by_cases hj : j = u64 r.spaceId
        · rw [hj, hc₀, Option.eq_none_iff_forall_ne_some]
          intro sp hsp
          rw [hl.cache, hat] at hsp
          cases hsp
        · exact hl.others j hj
      exact ⟨s₁, by rw [hget, hat], h₀.moves hK hl.moves, hsame,
        Book.ext (funext fun b => congrArg (Lookup.map _) (hl.accountAt b))
          (funext fun j => book_space_congr (congrFun hsame j))⟩
  obtain ⟨s₁, hget₁, hb₁, hsame₁, hbook₁⟩ := hlook h hc
  obtain ⟨s₂, hget₂, hb₂, hsame₂, hbook₂⟩ := hlook hb₁ (by rw [hsame₁, hc])
  refine ⟨s₂, ?_, hb₂, hsame₂.trans hsame₁, hbook₂.trans hbook₁⟩
  simp only [settleReport, StateDB.getSpaceBalanceByID, StateDB.subSpaceBalanceByID,
    StateDB.withSpace, hget₁, hget₂, some_bind, ite_self]

/-- `cached` says which spaces the cache has, up to spaces that are not there. -/
structure Tracks (P : Prims) (C : Contents) (s : StateDB) (cached : UInt64 → Bool) : Prop where
  hit : ∀ i, cached i = true →
    (∃ sp, s.spaceObjects i = some sp) ∨ ∀ sp, (s.book P.keccak C).space i ≠ .found sp
  miss : ∀ i, cached i = false → s.spaceObjects i = none

/-- A report with an id of 64 bits has its space cached, if there is one. -/
theorem Tracks.settle {cached : UInt64 → Bool} (hc : Tracks P C s cached) (h : Bounded P get C s)
    (hid : Small r.spaceId) (hs' : settleReport P get s r = some s')
    (hbook : s'.book P.keccak C = chargeReport (s.book P.keccak C) r) :
    Tracks P C s' fun i => cached i || decide (i = u64 r.spaceId) := by
  obtain ⟨hothers, hfound⟩ := settleReport_caches h hs'
  refine ⟨fun i hi => ?_, fun i hi => ?_⟩
  · rw [hbook, space_chargeReport]
    by_cases hir : i = u64 r.spaceId
    · subst hir
      rw [if_pos rfl, book_space_eq hid rfl]
      cases hat : s.spaceAt P.keccak C r.spaceId with
      | found sp => exact .inl (hfound sp hat)
      | _ => exact .inr fun sp => nofun
    · rw [if_neg (Ne.symm hir), hothers i hir]
      exact hc.hit i (by simpa [hir] using hi)
  · simp only [Bool.or_eq_false_iff, decide_eq_false_iff_not] at hi
    rw [hothers i hi.2, hc.miss i hi.1]

end

/-! ## Settling -/

section

variable {P : Prims} {get : Nodes} {C : Contents} {s : StateDB}

/-- **Settling charges the reports that reach a space**, one after the other. -/
theorem exists_settleReports_reaching (hK : StoresSmall P C) {reports : List LiquidationReport}
    (hbig : ∀ r ∈ reports, 2 ^ 64 ≤ r.spaceId → C.storedSpace P.keccak r.spaceId = .absent)
    (h : Bounded P get C s) {cached : UInt64 → Bool} (hc : Tracks P C s cached) :
    ∃ s', reports.foldlM (settleReport P get) s = some s' ∧
      s'.book P.keccak C = (reaching cached reports).foldl chargeReport (s.book P.keccak C) := by
  induction reports generalizing s cached with
  | nil => exact ⟨s, rfl, rfl⟩
  | cons r reports ih =>
    have hstep : ∀ {s₁ : StateDB} {cached' : UInt64 → Bool} {rs : List LiquidationReport},
        settleReport P get s r = some s₁ → Bounded P get C s₁ → Tracks P C s₁ cached' →
        (reaching cached' reports).foldl chargeReport (s₁.book P.keccak C)
          = rs.foldl chargeReport (s.book P.keccak C) →
        ∃ s', (r :: reports).foldlM (settleReport P get) s = some s' ∧
          s'.book P.keccak C = rs.foldl chargeReport (s.book P.keccak C) :=
      fun hs₁ hb₁ hc₁ hrs => by
        obtain ⟨s', hs', hbook⟩ := ih (fun r' hr' => hbig r' (List.mem_cons_of_mem r hr')) hb₁ hc₁
        exact ⟨s', by rw [List.foldlM_cons, hs₁]; exact hs', hbook.trans hrs⟩
    unfold reaching
    by_cases hid : r.spaceId < 2 ^ 64
    · obtain ⟨s₁, hs₁, hr₁⟩ := exists_settleReport (T := True) hK h hid fun _ => hid
      have hbook := hr₁.book trivial
      rw [if_pos hid]
      exact hstep hs₁ (h.moves hK hr₁.moves) (hc.settle h hid hs₁ hbook)
        (by rw [hbook, List.foldl_cons])
    · rw [if_neg hid]
      have hst := hbig r List.mem_cons_self (Nat.le_of_not_lt hid)
      cases hobj : s.spaceObjects (u64 r.spaceId) with
      | some sp =>
        have hhit : cached (u64 r.spaceId) = true := by
          by_contra hmiss
          rw [hc.miss _ (by simpa using hmiss)] at hobj
          cases hobj
        let low : LiquidationReport := { r with spaceId := (u64 r.spaceId).toNat }
        have hlow : Small low.spaceId := UInt64.toNat_lt _
        have hkey : u64 low.spaceId = u64 r.spaceId := u64_toNat _
        obtain ⟨s₁, hs₁, hr₁⟩ := exists_settleReport (T := True) hK h hlow fun _ => hlow
        have hbook := hr₁.book trivial
        have hc₁ := hc.settle h hlow hs₁ hbook
        have hsame : (fun i => cached i || decide (i = u64 low.spaceId)) = cached := by
          funext i
          rw [hkey]
          by_cases hi : i = u64 r.spaceId <;> simp [hi, hhit]
        have hcharge : chargeReport (s.book P.keccak C) low
          = chargeReport (s.book P.keccak C) r := by
          rw [chargeReport, hkey]
          rfl
        rw [if_pos hhit]
        exact hstep ((settleReport_of_cached hobj).trans hs₁) (h.moves hK hr₁.moves) (hsame ▸ hc₁)
          (by rw [hbook, hcharge, List.foldl_cons])
      | none =>
        obtain ⟨s₁, hs₁, hb₁, hsame, hbook⟩ := exists_settleReport_unstored hK h hobj hst
        have hc₁ : Tracks P C s₁ cached := ⟨by rw [hsame, hbook]; exact hc.hit, by
          rw [hsame]; exact hc.miss⟩
        split
        · next hhit =>
          have hno := (hc.hit _ hhit).resolve_left (by simp [hobj])
          exact hstep hs₁ hb₁ hc₁ (by
            rw [hbook, List.foldl_cons, chargeReport, Book.onSpace_of_not hno])
        · exact hstep hs₁ hb₁ hc₁ (by rw [hbook])

/-- **Liquidation takes `min(balance, gas)`** from a space with a balance that is not negative
exactly when the gas named for it covers the balance, or stays below its low 64 bits and no other
gas reaches it; every space that no report reaches, and every account, is unchanged.  Nothing is
stored for the ids beyond 64 bits that are reported; when there are none, what reaches a space is
what names it. -/
theorem liquidation_takes_min_iff (hK : StoresSmall P C) (h : Bounded P get C s) {data : Bytes}
    {reports : List LiquidationReport} (hdata : decodeReports data = some reports)
    (hbig : ∀ r ∈ reports, 2 ^ 64 ≤ r.spaceId → C.storedSpace P.keccak r.spaceId = .absent) :
    ∃ s', liquidationToState P get data s = some s' ∧
      (s'.book P.keccak C).account = (s.book P.keccak C).account ∧
      let named := gasesOf (naming reports)
      let taken := gasesOf (reaching (fun i => (s.spaceObjects i).isSome) reports)
      ((∀ r ∈ reports, r.spaceId < 2 ^ 64) → named = gasesOf reports ∧ taken = gasesOf reports) ∧
      (∀ i, taken i = [] → (s'.book P.keccak C).space i = (s.book P.keccak C).space i) ∧
      ∀ i sp, taken i ≠ [] → (s.book P.keccak C).space i = .found sp → 0 ≤ sp.balance →
        ∃ sp', (s'.book P.keccak C).space i = .found sp' ∧ sp'.bindAddr = sp.bindAddr ∧
          (sp'.balance = max (sp.balance - totalGas (named i)) 0 ↔
            sp.balance ≤ totalGas (named i) ∨
              totalGas (taken i) = totalGas (named i) ∧
                totalGas (named i) < sp.balance % 2 ^ 64) := by
  have hc : Tracks P C s fun i => (s.spaceObjects i).isSome :=
    ⟨fun i hi => .inl (Option.isSome_iff_exists.mp hi), fun i hi => by simpa using hi⟩
  obtain ⟨s', hs', hbook⟩ := exists_settleReports_reaching hK hbig h hc
  refine ⟨s', by rw [liquidationToState, hdata]; exact hs', ?_, fun hids => ?_, fun i hi => ?_,
    fun i sp hne hsp hb => ?_⟩
  · rw [hbook, account_foldl_chargeReport]
  · rw [reaching_of_small hids, naming,
      List.filter_eq_self.mpr fun r hr => by simpa using hids r hr]
    exact ⟨rfl, rfl⟩
  · rw [hbook, space_foldl_chargeReport, hi]
    cases (s.book P.keccak C).space i <;> rfl
  · obtain ⟨hbalance, hbind⟩ := foldl_chargeSpace
      (gasesOf (reaching (fun i => (s.spaceObjects i).isSome) reports) i) sp
    refine ⟨_, by rw [hbook, space_foldl_chargeReport, hsp]; rfl, hbind, ?_⟩
    rw [hbalance, foldl_charge hne hb]
    have hle := totalGas_naming_le reports (fun i => (s.spaceObjects i).isSome) i
    have hnonneg := totalGas_nonneg (gasesOf (naming reports) i)
    have hmod : sp.balance % 2 ^ 64 ≤ sp.balance := by omega
    split <;> omega

end

/-- A space with a balance. -/
def fundedSpace (balance : ℤ) : List Op :=
  [.createSpaceAndBindAddr 1 1 (Sample.address 1), .addSpaceBalanceByID 1 balance]

/-- Two reports of the gas 5 for the first space, and one each for the ids 9 and `2 ^ 64 + 9`, which
are not there. -/
def fourReports : Bytes :=
  [0xd5, 0xc2, 0x05, 0x01, 0xc2, 0x05, 0x09, 0xcb, 0x05, 0x89, 1, 0, 0, 0, 0, 0, 0, 0, 9,
    0xc2, 0x05, 0x01]

/-- Ten is taken from a hundred. -/
theorem liquidation_takes_ten :
    ∃ s, sampleRun (fundedSpace 100) = some s ∧
      ∃ s', liquidationToState prims Db.empty.nodes fourReports s = some s' ∧
        ∃ sp', (s'.book keccak .nothing).space 1 = .found sp' ∧ sp'.balance = 90 := by
  obtain ⟨s, hs, hg, hbook⟩ := exists_sampleRun_book (fundedSpace 100) (by decide)
  have hdata : decodeReports fourReports = some [⟨5, 1⟩, ⟨5, 9⟩, ⟨5, 2 ^ 64 + 9⟩, ⟨5, 1⟩] := by
    decide +kernel
  obtain ⟨s', hs', -, -, -, hcharged⟩ := liquidation_takes_min_iff (P := prims)
    (allowsStored_empty keccak) hg hdata fun _ _ _ => rfl
  have hspace : (s.book keccak .nothing).space 1
      = .found ⟨1, 100, [Sample.address 1]⟩ := by
    rw [hbook]
    rfl
  have htaken : ∀ b : UInt64 → Bool,
      gasesOf (reaching b [⟨5, 1⟩, ⟨5, 9⟩, ⟨5, 2 ^ 64 + 9⟩, ⟨5, 1⟩]) 1 = [5, 5] := fun b => by
    simp [reaching, gasesOf, u64]
  have hnamed : gasesOf (naming [⟨5, 1⟩, ⟨5, 9⟩, ⟨5, 2 ^ 64 + 9⟩, ⟨5, 1⟩]) 1 = [5, 5] := by decide
  obtain ⟨sp', hsp', -, hiff⟩ := hcharged 1 _ (by rw [htaken]; decide) hspace (by decide)
  rw [htaken, hnamed] at hiff
  exact ⟨s, hs, s', hs', sp', hsp', (hiff.mpr (by decide +kernel)).trans (by decide +kernel)⟩

/-- Of a balance of `2 ^ 64` the first report of the gas 5 leaves nothing. -/
theorem liquidation_takes_all :
    ∃ s ∈ sampleRun (fundedSpace (2 ^ 64)),
      ∃ s' ∈ liquidationToState prims Db.empty.nodes [0xc3, 0xc2, 0x05, 0x01] s,
        decodeReports [0xc3, 0xc2, 0x05, 0x01] = some [⟨5, 1⟩] ∧
        (∃ sp ∈ s.viewSpace keccak Db.empty.nodes 1, sp.balance = 2 ^ 64) ∧
        ∃ sp' ∈ s'.viewSpace keccak Db.empty.nodes 1, sp'.balance = 0 := by
  decide +kernel

end Gocoin.Space
