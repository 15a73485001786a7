import Mathlib.Data.Option.Basic
import Gocoin.Space.Execution

/-!
# Space/Agreement — when the three copies of the transition agree

`buildBlock` and `validateBlock` execute a list of transactions alike.  `ApplyTransaction` differs
in its side effects, of which only one can be seen by a later transaction of the list: a settlement
report that has been used is deleted.  So the three copies agree on a list, from every state and
over every store of reports, exactly when no report is named twice (`agree_iff`) — unless the list
crashes anyway.
-/

namespace Gocoin.Space

open State Trie

section

variable (P : Prims)

/-- Two results show the same: the ids, the cost, and every account and space. -/
structure SameOutcome (get : Nodes) (acc acc' : Totals) : Prop where
  spaceid : acc.spaceid = acc'.spaceid
  walletid : acc.walletid = acc'.walletid
  cost : acc.cost = acc'.cost
  account : ∀ addr, (acc.state.getAccountObject P.keccak get addr).map Prod.fst
    = (acc'.state.getAccountObject P.keccak get addr).map Prod.fst
  space : ∀ id, (acc.state.getSpaceObject P.keccak get id).map Prod.fst
    = (acc'.state.getSpaceObject P.keccak get id).map Prod.fst

/-- The three copies agree on a list: from every state, over every database and with every group,
they crash together or show the same. -/
def Agree (txs : List Tx) : Prop :=
  ∀ (env : Surroundings) (acc : Totals),
    Option.Rel (SameOutcome P env.db.nodes) ((applyAll P env acc txs).map Prod.snd)
        (validateAll P env.db acc txs) ∧
      Option.Rel (SameOutcome P env.db.nodes) (buildAll P env.db acc txs)
        (validateAll P env.db acc txs)

/-- The transaction settles the reports under a hash. -/
def settles (h : Hash) (tx : Tx) : Bool := tx.ptype = some .stellReport ∧ tx.hash P = h

/-- The hashes of the settlement reports of a list. -/
def reportHashes (txs : List Tx) : List Hash :=
  (txs.filter fun tx => tx.ptype = some .stellReport).map (Tx.hash P)

variable {P}

theorem SameOutcome.rel_refl (get : Nodes) (r : Option Totals) :
    Option.Rel (SameOutcome P get) r r := by
  cases r with
  | none => exact .none
  | some acc => exact .some ⟨rfl, rfl, rfl, fun _ => rfl, fun _ => rfl⟩

variable {tx : Tx} {db : Db} {txs : List Tx} {env : Surroundings} {s : StateDB} {b : ℕ}
  {acc : Totals}

theorem reportHashes_cons_of_report (hp : tx.ptype = some .stellReport) (txs : List Tx) :
    reportHashes P (tx :: txs) = tx.hash P :: reportHashes P txs := by
  simp [reportHashes, hp]

theorem reportHashes_cons_of_ne (hp : tx.ptype ≠ some .stellReport) (txs : List Tx) :
    reportHashes P (tx :: txs) = reportHashes P txs := by
  simp [reportHashes, hp]

/-! ## Lists that name no report twice -/

/-- The switch sees of the database the nodes and the report it names. -/
theorem validateTransaction_congr {db' : Db} (hnodes : db.nodes = db'.nodes) (acc : Totals)
    (hreport : tx.ptype = some .stellReport →
      getLiquidation db (tx.hash P) = getLiquidation db' (tx.hash P)) :
    validateTransaction P db acc tx = validateTransaction P db' acc tx := by
  unfold validateTransaction
  cases hp : tx.ptype with
  | none => rfl
  | some kind =>
    rw [hnodes]
    cases kind with
    | stellReport =>
      simp only [settle, some_bind, hreport hp, hnodes]
    | _ => rfl

/-- A list that crashes in one transaction crashes in `ApplyTransaction` too. -/
theorem applyAll_of_crashes (h : ∃ tx ∈ txs, tx.Crashes) (env : Surroundings) (acc : Totals) :
    applyAll P env acc txs = none := by
  induction txs generalizing env acc with
  | nil => simp at h
  | cons tx txs ih =>
    rw [applyAll_cons]
    by_cases hc : tx.Crashes
    · rw [validateTransaction_of_crashes hc]
      rfl
    · have htail : ∃ tx ∈ txs, tx.Crashes := by simpa [hc] using h
      cases validateTransaction P env.db acc tx with
      | none => rfl
      | some acc' => exact ih htail _ acc'

/-- **Without repetitions `ApplyTransaction` computes what `validateBlock` does**, over any database
with the same nodes and the same reports for the rest of the list. -/
theorem applyAll_of_nodup (hnodup : (reportHashes P txs).Nodup) (hnodes : env.db.nodes = db.nodes)
    (hreports : ∀ h ∈ reportHashes P txs, getLiquidation env.db h = getLiquidation db h)
    (acc : Totals) :
    (applyAll P env acc txs).map Prod.snd = validateAll P db acc txs := by
  induction txs generalizing env acc with
  | nil => rfl
  | cons tx txs ih =>
    have hstep : validateTransaction P env.db acc tx = validateTransaction P db acc tx :=
      validateTransaction_congr hnodes acc fun hp =>
        hreports _ (by rw [reportHashes_cons_of_report hp]; exact List.mem_cons_self)
    rw [applyAll_cons, validateAll_cons, hstep, Option.map_bind]
    congr 1
    funext acc'
    have hnodes' : (sideEffect P env tx).db.nodes = db.nodes := by rw [nodes_sideEffect, hnodes]
    by_cases hp : tx.ptype = some .stellReport
    · rw [reportHashes_cons_of_report hp] at hnodup hreports
      refine ih (List.nodup_cons.mp hnodup).2 hnodes' (fun h hh => ?_) acc'
      rw [getLiquidation_sideEffect P env fun _ he => (List.nodup_cons.mp hnodup).1 (he ▸ hh)]
      exact hreports h (List.mem_cons_of_mem _ hh)
    · rw [reportHashes_cons_of_ne hp] at hnodup hreports
      refine ih hnodup hnodes' (fun h hh => ?_) acc'
      rw [getLiquidation_sideEffect P env fun hp' => absurd hp' hp]
      exact hreports h hh

/-! ## Lists that name a report twice

The store holds one report, of one unit of gas in space zero, which has two units.  Every execution
of the report takes one unit, and nothing else in a list changes the balance of a space. -/

/-- A report of one unit in space zero. -/
def unitReport : Bytes := [0xc3, 0xc2, 0x01, 0x80]

theorem decodeReports_unitReport : decodeReports unitReport = some [⟨1, 0⟩] := by decide +kernel

/-- A healthy state over empty tries with a cached space zero of a given balance. -/
structure HasUnits (P : Prims) (get : Nodes) (s : StateDB) (b : ℕ) : Prop where
  healthy : Healthy P get Contents.nothing s
  balance : ∃ obj, s.spaceObjects 0 = some obj ∧ obj.data.balance = b

/-- At most one report is stored: the unit report under `h`. -/
structure OnlyReport (get : Nodes) (h : Hash) (present : Bool) (db : Db) : Prop where
  nodes : db.nodes = get
  self : getLiquidation db h = if present then unitReport else []
  other : ∀ h', h' ≠ h → getLiquidation db h' = []

variable {get : Nodes} {h : Hash} {present : Bool}

theorem HasUnits.of_calm {s' : StateDB} (hs : HasUnits P get s b)
    (hm : Goes P get Contents.nothing .calm s s') : HasUnits P get s' b := by
  obtain ⟨obj, hobj, hbal⟩ := hs.balance
  obtain ⟨obj', hobj', hbal'⟩ := Good.space_balance_moves (E := .calm) (allowsStored_true _ _)
    hs.healthy (fun _ _ hE => hE) hm hobj
  exact ⟨hs.healthy.goes hm, obj', hobj', hbal'.trans hbal⟩

/-- Taking from the balance of the space. -/
theorem HasUnits.subSpaceBalance {c : ℕ} (hs : HasUnits P get s b) {obj : SpaceObject}
    (hobj : s.spaceObjects 0 = some obj) (hbal : obj.data.balance = b) (hc : c ≤ b) :
    HasUnits P get (s.subSpaceBalance obj c) (b - c) := by
  have hm : Goes P get Contents.nothing .spaces s (s.subSpaceBalance obj c) :=
    (hs.healthy.reaches_editSpace (T := False) (editsSpace_subSpaceBalance c) hobj).moves
  refine ⟨hs.healthy.goes hm, ?_⟩
  unfold StateDB.subSpaceBalance
  split
  · next hzero =>
    obtain rfl : c = 0 := by exact_mod_cast hzero
    exact ⟨obj, hobj, hbal⟩
  · have hcached := congrFun (spaceObjects_touchSpace s { obj with data :=
      { obj.data with balance := obj.data.balance - c, nonce := obj.data.nonce + 1 } }) 0
    rw [hs.healthy.spaceKey 0 obj hobj, Function.update_self] at hcached
    refine ⟨_, hcached, ?_⟩
    show obj.data.balance - c = _
    rw [hbal, Nat.cast_sub hc]

/-- Executing the report takes one unit, if there is one. -/
theorem HasUnits.settleReport (hs : HasUnits P get s b) (hb : b ≤ 2) :
    ∃ s', Space.settleReport P get s ⟨1, 0⟩ = some s' ∧ HasUnits P get s' (b - 1) := by
  obtain ⟨obj, hobj, hbal⟩ := hs.balance
  have hget : s.getSpaceObject P.keccak get 0 = some (.found obj, s) := by
    unfold StateDB.getSpaceObject
    rw [show u64 0 = 0 from rfl, hobj]
  have hsettle : Space.settleReport P get s ⟨1, 0⟩
      = some (s.subSpaceBalance obj ((if 1 < intU64 b then 1 else b : ℕ) : ℤ)) := by
    simp only [Space.settleReport, StateDB.getSpaceBalanceByID, StateDB.subSpaceBalanceByID,
      StateDB.withSpace, hget, hbal, some_bind]
    split <;> rfl
  refine ⟨_, hsettle, ?_⟩
  interval_cases b
  · exact hs.subSpaceBalance hobj hbal (by decide)
  · exact hs.subSpaceBalance hobj hbal (by decide)
  · exact hs.subSpaceBalance hobj hbal (by decide)

/-- **One transaction** takes a unit exactly when it settles the stored report. -/
theorem HasUnits.validateTransaction (hdb : OnlyReport get h present db)
    (hs : HasUnits P get acc.state b) (hb : b ≤ 2) (htx : ¬ tx.Crashes) :
    ∃ acc', Space.validateTransaction P db acc tx = some acc' ∧
      HasUnits P get acc'.state (b - if present && settles P h tx then 1 else 0) := by
  by_cases hset : (present && settles P h tx) = true
  · rw [if_pos hset]
    rw [Bool.and_eq_true, settles, decide_eq_true_eq] at hset
    obtain ⟨rfl, hp, rfl⟩ := hset
    obtain ⟨s', hs', hunits⟩ := hs.settleReport hb
    refine ⟨{ acc with cost := acc.cost + tx.cost, state := s' }, ?_, hunits⟩
    have hself : getLiquidation db (tx.hash P) = unitReport := hdb.self
    simp only [Space.validateTransaction, hp, settle, hself, liquidationToState,
      decodeReports_unitReport, hdb.nodes, List.foldlM_cons, List.foldlM_nil, hs',
      some_bind]
    rfl
  · rw [if_neg hset, Nat.sub_zero]
    obtain ⟨acc', hacc', hdid⟩ := hs.healthy.exists_validateTransaction hdb.nodes htx
    refine ⟨acc', hacc', hs.of_calm (hdid.calm fun hp => ?_)⟩
    by_cases hh : tx.hash P = h
    · rw [hh, hdb.self, if_neg]
      rintro rfl
      exact hset (by rw [Bool.true_and, settles, decide_eq_true_eq]; exact ⟨hp, hh⟩)
    · exact hdb.other _ hh

/-- The side effect of a transaction deletes the stored report when the transaction settles it. -/
theorem OnlyReport.sideEffect (hdb : OnlyReport get h present env.db) (tx : Tx) :
    OnlyReport get h (present && !settles P h tx) (sideEffect P env tx).db := by
  have hother : ∀ h', h' ≠ h → getLiquidation (Space.sideEffect P env tx).db h' = [] := by
    intro h' hne
    by_cases hh : tx.ptype = some .stellReport ∧ h' = tx.hash P
    · have hnil : getLiquidation env.db (tx.hash P) = [] := hdb.other _ (hh.2 ▸ hne)
      rw [hh.2, Space.sideEffect, hh.1]
      simp [hnil]
    · rw [getLiquidation_sideEffect P env fun hp he => hh ⟨hp, he⟩, hdb.other h' hne]
  refine ⟨by rw [nodes_sideEffect, hdb.nodes], ?_, hother⟩
  by_cases hset : settles P h tx = true
  · rw [hset, Bool.not_true, Bool.and_false, if_neg Bool.false_ne_true]
    rw [settles, decide_eq_true_eq] at hset
    obtain ⟨hp, rfl⟩ := hset
    rw [Space.sideEffect, hp]
    simp only
    split
    · show (Function.update env.db.get (liquidationKey (tx.hash P)) none _).getD [] = []
      rw [Function.update_self]
      rfl
    · next hlen => exact List.length_eq_zero_iff.mp (by omega)
  · rw [getLiquidation_sideEffect P env fun hp he => hset (decide_eq_true ⟨hp, he.symm⟩), hdb.self]
    rw [Bool.not_eq_true] at hset
    rw [hset, Bool.not_false, Bool.and_true]

/-- The number of transactions of a list that settle a report. -/
theorem count_reportHashes (h : Hash) (txs : List Tx) :
    (reportHashes P txs).count h = txs.countP (settles P h) := by
  rw [reportHashes, List.count, List.countP_map, List.countP_filter]
  refine List.countP_congr fun tx _ => ?_
  simp [settles, and_comm]

/-- **`validateBlock` takes a unit for every time the report is named.** -/
theorem HasUnits.validateAll (hdb : OnlyReport get h true db) (hs : HasUnits P get acc.state b)
    (hb : b ≤ 2) (htxs : ∀ tx ∈ txs, ¬ tx.Crashes) :
    ∃ acc', Space.validateAll P db acc txs = some acc' ∧
      HasUnits P get acc'.state (b - txs.countP (settles P h)) := by
  induction txs generalizing acc b with
  | nil => exact ⟨acc, rfl, hs⟩
  | cons tx txs ih =>
    obtain ⟨acc₁, hacc₁, hs₁⟩ := hs.validateTransaction hdb hb (htxs tx List.mem_cons_self)
    obtain ⟨acc₂, hacc₂, hs₂⟩ :=
      ih hs₁ (by omega) fun tx' h' => htxs tx' (List.mem_cons_of_mem _ h')
    refine ⟨acc₂, by rw [validateAll_cons, hacc₁, Option.bind_some, hacc₂], ?_⟩
    rw [Bool.true_and, Nat.sub_sub, add_comm] at hs₂
    rwa [List.countP_cons]

/-- **`ApplyTransaction` takes at most one**, since it deletes the report with it. -/
theorem HasUnits.applyAll (hdb : OnlyReport get h present env.db) (hs : HasUnits P get acc.state b)
    (hb : b ≤ 2) (htxs : ∀ tx ∈ txs, ¬ tx.Crashes) :
    ∃ env' acc', Space.applyAll P env acc txs = some (env', acc') ∧
      HasUnits P get acc'.state (b - if present then min 1 (txs.countP (settles P h)) else 0) := by
  induction txs generalizing env acc b present with
  | nil => exact ⟨env, acc, rfl, by simpa using hs⟩
  | cons tx txs ih =>
    obtain ⟨acc₁, hacc₁, hs₁⟩ := hs.validateTransaction hdb hb (htxs tx List.mem_cons_self)
    obtain ⟨env₂, acc₂, hacc₂, hs₂⟩ := ih (hdb.sideEffect tx) hs₁ (by omega)
      fun tx' h' => htxs tx' (List.mem_cons_of_mem _ h')
    refine ⟨env₂, acc₂, by rw [applyAll_cons, hacc₁, Option.bind_some, hacc₂], ?_⟩
    convert hs₂ using 1
    rw [List.countP_cons]
    cases present <;> cases settles P h tx <;> simp

/-! ## The two directions together -/

/-- The store with the unit report under a hash. -/
def unitStore (h : Hash) : Db := writeLiquidationHash Db.empty h unitReport

theorem nodes_unitStore (h : Hash) : (unitStore h).nodes = fun _ => none := by
  funext k
  refine Function.update_of_ne (fun he => ?_) ..
  exact notMem_of_hash k (.inr ⟨h, he.symm⟩)

theorem onlyReport_unitStore (h : Hash) :
    OnlyReport (fun _ => none) h true (unitStore h) where
  nodes := nodes_unitStore h
  self := by
    show ((Db.empty.put (liquidationKey h) unitReport).get _).getD [] = _
    rw [Db.get_put_self]
    rfl
  other := fun h' hne => by
    show (Function.update Db.empty.get (liquidationKey h) (some unitReport) _).getD [] = _
    rw [Function.update_of_ne fun he => hne (liquidationKey_injective he)]
    rfl

/-- Empty tries, and space zero with two units. -/
def unitState : StateDB where
  trieSpace := ⟨⟨.nil, 0, 0⟩, ∅⟩
  trieAccount := ⟨⟨.nil, 0, 0⟩, ∅⟩
  spaceObjects := fun i => if i = 0 then some (newSpaceObject 0 ⟨0, 2, []⟩) else none
  accountObjects := fun _ => none
  spaceObjectsDirty := []
  accountObjectsDirty := []

theorem hasUnits_unitState (get : Nodes) : HasUnits P get unitState 2 := by
  have hcached : ∀ {i obj}, unitState.spaceObjects i = some obj →
      i = 0 ∧ obj = newSpaceObject 0 ⟨0, 2, []⟩ := fun {i obj} h => by
    simp only [unitState, Option.ite_none_right_eq_some, Option.some.injEq] at h
    exact ⟨h.1, h.2.symm⟩
  refine ⟨⟨⟨.nil, .nil, .nil⟩, ⟨.nil, .nil, .nil⟩, nofun, fun i obj h => ?_, fun _ _ _ => trivial,
    nofun, nofun, nofun, List.nodup_nil, List.nodup_nil⟩, newSpaceObject 0 ⟨0, 2, []⟩, rfl, rfl⟩
  obtain ⟨rfl, rfl⟩ := hcached h
  rfl

/-- What space zero shows has the balance of its units. -/
theorem HasUnits.getSpaceObject (hs : HasUnits P get s b) :
    ∃ obj, (s.getSpaceObject P.keccak get 0).map Prod.fst = some (.found obj) ∧
      obj.data.balance = b := by
  obtain ⟨obj, hobj, hbal⟩ := hs.balance
  refine ⟨obj, ?_, hbal⟩
  unfold StateDB.getSpaceObject
  rw [show u64 0 = 0 from rfl, hobj]
  rfl

/-- A report that is named twice is executed twice by `validateBlock` and once by
`ApplyTransaction`. -/
theorem not_agree_of_duplicate (htxs : ∀ tx ∈ txs, ¬ tx.Crashes)
    (hdup : 2 ≤ (reportHashes P txs).count h) : ¬ Agree P txs := by
  intro hagree
  rw [count_reportHashes] at hdup
  have hdb := onlyReport_unitStore h
  have hs : HasUnits P (fun _ => none) (⟨0, 0, 0, unitState⟩ : Totals).state 2 :=
    hasUnits_unitState _
  obtain ⟨acc, hacc, hunits⟩ := hs.validateAll hdb le_rfl htxs
  obtain ⟨env', acc', hacc', hunits'⟩ :=
    HasUnits.applyAll (show OnlyReport _ h true (⟨unitStore h, none⟩ : Surroundings).db from hdb) hs
      le_rfl htxs
  obtain ⟨hrel, -⟩ := hagree ⟨unitStore h, none⟩ ⟨0, 0, 0, unitState⟩
  rw [hacc, hacc', Option.map_some, nodes_unitStore] at hrel
  obtain ⟨obj, hobj, hbal⟩ := hunits.getSpaceObject
  obtain ⟨obj', hobj', hbal'⟩ := hunits'.getSpaceObject
  cases hrel with
  | some hsame =>
    have hshow := hsame.space 0
    rw [hobj, hobj', Option.some.injEq, Lookup.found.injEq] at hshow
    rw [hshow, hbal, if_pos rfl] at hbal'
    have : 2 - txs.countP (settles P h) = 2 - min 1 (txs.countP (settles P h)) := by
      exact_mod_cast hbal'
    omega

/-- **The three copies of the transition agree on a list exactly when it names no settlement report
twice** — or crashes in every copy. -/
theorem agree_iff (txs : List Tx) :
    Agree P txs ↔ (∃ tx ∈ txs, tx.Crashes) ∨ (reportHashes P txs).Nodup := by
  constructor
  · intro hagree
    by_contra hno
    push Not at hno
    obtain ⟨htxs, hdup⟩ := hno
    obtain ⟨h, hh⟩ := List.exists_duplicate_iff_not_nodup.mpr hdup
    exact not_agree_of_duplicate htxs (List.duplicate_iff_two_le_count.mp hh) hagree
  · rintro (hcrash | hnodup) env acc
    · rw [buildAll_eq, applyAll_of_crashes hcrash, validateAll_of_crashes hcrash]
      exact ⟨.none, .none⟩
    · rw [buildAll_eq, applyAll_of_nodup hnodup rfl (fun _ _ => rfl) acc]
      exact ⟨SameOutcome.rel_refl _ _, SameOutcome.rel_refl _ _⟩

end

/-! ## A report that is named twice -/

/-- A settlement report. -/
def reportTx : Tx := ⟨0, none, 0, 0, [9], 0, 0, 0⟩

/-- A new space with two units on it. -/
def twoUnits : List Op := [.createSpaceAndBindAddr 0 1 (Sample.address 1), .addSpaceBalanceByID 0 2]

/-- On a list with one report twice `ApplyTransaction` leaves a unit that `validateBlock` takes. -/
theorem repeated_report_disagrees :
    ∃ s ∈ sampleRun twoUnits,
      let db := unitStore (reportTx.hash Sample.prims)
      ∃ r ∈ applyAll Sample.prims ⟨db, none⟩ ⟨1, 2, 0, s⟩ [reportTx, reportTx],
        ∃ acc ∈ validateAll Sample.prims db ⟨1, 2, 0, s⟩ [reportTx, reportTx],
          (r.2.state.getSpaceBalanceByID Sample.keccak db.nodes 0).map Prod.fst = some 1 ∧
          (acc.state.getSpaceBalanceByID Sample.keccak db.nodes 0).map Prod.fst = some 0 := by
  decide +kernel

end Gocoin.Space
