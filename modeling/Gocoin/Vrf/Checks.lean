import Gocoin.Vrf.Coins

/-!
# Vrf/Checks — whose coins a member says it has validated

`ValidateCoin` deals out the places of a list, `CheckValidateCoin` asks a map that has one owner for
each id.  An id that stands at several places may have several owners — a coin at the end of a run
goes to the owner of the run, the same coin alone to the one its hash draws — and the map keeps the
owner of the last place (`record_get`).  So what an honest member returns passes the check exactly
when the last place of every coin it returns is its own (`honest_check_iff`); a list without
repeated ids is the plain case.
-/

namespace Gocoin.Vrf

open Rlp

variable {cids : List UInt64}

/-- The check looks every coin up. -/
theorem checkValidateCoin_eq_true {f : Vrf} {addr : Address} :
    f.checkValidateCoin cids addr = true ↔
      cids ≠ [] ∧ ∀ cid ∈ cids, f.coinValidateInfo cid = some addr := by
  cases cids with
  | nil => simp [checkValidateCoin]
  | cons c cs =>
    rw [checkValidateCoin, if_neg (by simp), List.all_eq_true,
      and_iff_right (List.cons_ne_nil c cs)]
    refine forall₂_congr fun cid _ => ?_
    cases f.coinValidateInfo cid <;> simp

/-! ## What the map has of an id -/

theorem record_of_notMem {cid : UInt64} (h : cid ∉ cids) (info : UInt64 → Option Address)
    (os : List Address) : record info cids os cid = info cid := by
  induction cids generalizing info os with
  | nil => rfl
  | cons c cs ih =>
    obtain ⟨hne, hcs⟩ := not_or.mp (mt List.mem_cons.mpr h)
    cases os with
    | nil => rfl
    | cons o os =>
      show record (Function.update info c (some o)) cs os cid = info cid
      rw [ih hcs, Function.update_of_ne hne]

/-- The id at this place does not stand further behind. -/
def IsLastPlace (cids : List UInt64) (j : Fin cids.length) : Prop :=
  ∀ k, cids.get k = cids.get j → k ≤ j

/-- **The map has the owner of the last place.** -/
theorem record_get {j : Fin cids.length} (hlast : IsLastPlace cids j)
    (info : UInt64 → Option Address) {os : List Address} (hlen : os.length = cids.length) :
    record info cids os (cids.get j) = some (os.get (j.cast hlen.symm)) := by
  induction cids generalizing info os with
  | nil => exact j.elim0
  | cons c cs ih =>
    obtain ⟨o, os, rfl⟩ := List.exists_cons_of_length_eq_add_one hlen
    have hlen' : os.length = cs.length := Nat.succ.inj hlen
    show record (Function.update info c (some o)) cs os _ = _
    cases j using Fin.cases with
    | zero =>
      have hnot : c ∉ cs := by
        intro hmem
        obtain ⟨k, hk⟩ := List.mem_iff_get.mp hmem
        exact absurd (hlast k.succ hk) (not_le.mpr (Fin.succ_pos k))
      exact (record_of_notMem hnot _ os).trans (Function.update_self ..)
    | succ j =>
      exact ih (fun k hk => Fin.succ_le_succ_iff.mp (hlast k.succ hk)) _ hlen'

/-- Every id has a last place. -/
theorem exists_isLastPlace (cids : List UInt64) (i : Fin cids.length) :
    ∃ j, cids.get j = cids.get i ∧ IsLastPlace cids j := by
  obtain ⟨j, hj, hmax⟩ := (Finset.univ.filter fun j => cids.get j = cids.get i).exists_max_image id
    ⟨i, Finset.mem_filter.mpr ⟨Finset.mem_univ i, rfl⟩⟩
  have hji := (Finset.mem_filter.mp hj).2
  exact ⟨j, hji, fun k hk =>
    hmax k (Finset.mem_filter.mpr ⟨Finset.mem_univ k, hk.trans hji⟩)⟩

/-! ## Members that have run `ValidateCoin` -/

section Members

variable (P : Prims) (group : List Address) (cids : List UInt64) (txhash blockhash : Hash)

/-- A member of the group has run `ValidateCoin`, whatever it had validated before: it returned
these coins, and this is its `Vrf` afterwards. -/
def Validated (address : Address) (R : List UInt64) (f : Vrf) : Prop :=
  ∃ id info f₀, newVrf P id address group = some f₀ ∧
    { f₀ with coinValidateInfo := info }.validateCoin P cids txhash blockhash = some (R, f)

variable {P group cids txhash blockhash}

variable {A : Address}

/-- The members have dealt the coins to the same owners, those that the draws of the group give. -/
theorem exists_owners_of_validated {R : List UInt64} {f : Vrf}
    (h : Validated P group cids txhash blockhash A R f) :
    ∃ os : List Address, os.length = cids.length ∧
      owners 4 (fun cid => f.validateAddress (coinHash P txhash blockhash cid)) Scan.start.turn cids
        = some os ∧ ∀ B R g,
      Validated P group cids txhash blockhash B R g →
        R = pick B cids os ∧ g.coinValidateInfo = record (fun _ => none) cids os := by
  obtain ⟨g, -, -, hnew⟩ := exists_newVrf P group
  let common : Vrf := ⟨0, .zero 20, g, fun _ => none⟩
  let draw : UInt64 → Option Address := fun cid =>
    common.validateAddress (coinHash P txhash blockhash cid)
  have hrun : ∀ {B R f}, Validated P group cids txhash blockhash B R f →
      (owners 4 draw Scan.start.turn cids).map
        (fun os => (pick B cids os, record (fun _ => none) cids os))
          = some (R, f.coinValidateInfo) := by
    rintro B R f ⟨id, info, f₀, hf₀, hvalid⟩
    obtain rfl := Option.some.inj ((hnew id B).symm.trans hf₀)
    rw [validateCoin, Option.map_eq_some_iff] at hvalid
    obtain ⟨s, hs, heq⟩ := hvalid
    obtain ⟨rfl, rfl⟩ := Prod.mk.inj heq
    have hscan := Scan.run_eq 4 draw (Scan.flagged_start B) cids
    exact hscan.symm.trans (congrArg (Option.map _) hs)
  have hdraw : (fun cid => f.validateAddress (coinHash P txhash blockhash cid)) = draw := by
    obtain ⟨id, info, f₀, hf₀, hvalid⟩ := h
    obtain rfl := Option.some.inj ((hnew id A).symm.trans hf₀)
    obtain ⟨s, -, heq⟩ := Option.map_eq_some_iff.mp hvalid
    obtain ⟨-, rfl⟩ := Prod.mk.inj heq
    rfl
  rw [hdraw]
  cases hos : owners 4 draw Scan.start.turn cids with
  | none =>
    have hnone := hrun h
    rw [hos] at hnone
    cases hnone
  | some os =>
    refine ⟨os, length_owners hos, rfl, fun B R g hg => ?_⟩
    have hsome := hrun hg
    rw [hos] at hsome
    obtain ⟨hR, hinfo⟩ := Prod.mk.inj (Option.some.inj hsome)
    exact ⟨hR.symm, hinfo.symm⟩

/-- **When honest validation passes the check.**  Every place of the list has an owner, the one that
the draws of the group and the carried runs deal it to, and each member returns the coins at its own
places.  What a member returns passes the check for that member on every `Vrf` of the group, and no
part of it passes for another address, exactly when the last place of every coin that it returns is
its own. -/
theorem honest_check_iff {A : Address} {R : List UInt64} {f : Vrf}
    (h : Validated P group cids txhash blockhash A R f) (hR : R ≠ []) :
    ∃ owner : Fin cids.length → Address,
      owners 4 (fun cid => f.validateAddress (coinHash P txhash blockhash cid)) Scan.start.turn cids
        = some (List.ofFn owner) ∧
      (∀ B RB g, Validated P group cids txhash blockhash B RB g →
        RB = ((List.finRange cids.length).filter fun i => owner i = B).map cids.get) ∧
      ((∀ B RB g, Validated P group cids txhash blockhash B RB g → g.checkValidateCoin R A = true ∧
          ∀ part, part ≠ [] → part ⊆ R → ∀ C ≠ A, g.checkValidateCoin part C = false) ↔
        ∀ i j, owner i = A → cids.get j = cids.get i → IsLastPlace cids j → owner j = A) := by
  obtain ⟨os, hlen, hos, hall⟩ := exists_owners_of_validated h
  have hpick : ∀ B, pick B cids os = ((List.finRange cids.length).filter fun i =>
      os.get (i.cast hlen.symm) = B).map cids.get := fun B => pick_eq hlen
  have hfn : List.ofFn (fun i : Fin cids.length => os.get (i.cast hlen.symm)) = os := by
    rw [← List.ofFn_congr hlen os.get, List.ofFn_get]
  refine ⟨fun i => os.get (i.cast hlen.symm), hos.trans (congrArg some hfn.symm),
    fun B RB g hg => (hall B RB g hg).1.trans (hpick B), fun hpass i j hi hji hlast => ?_,
    fun hlast B RB g hg => ?_⟩
  · have hmem : cids.get i ∈ R := by
      rw [(hall A R f h).1, hpick A]
      exact List.mem_map_of_mem (List.mem_filter.mpr ⟨List.mem_finRange i, by simpa using hi⟩)
    have hown := (checkValidateCoin_eq_true.mp (hpass A R f h).1).2 _ hmem
    rw [(hall A R f h).2, ← hji, record_get hlast _ hlen] at hown
    exact Option.some.inj hown
  · have hinfo : ∀ cid ∈ R, g.coinValidateInfo cid = some A := by
      intro cid hcid
      rw [(hall A R f h).1, hpick A] at hcid
      obtain ⟨i, hi, rfl⟩ := List.mem_map.mp hcid
      have hown : os.get (i.cast hlen.symm) = A := by simpa using (List.mem_filter.mp hi).2
      obtain ⟨j, hji, hj⟩ := exists_isLastPlace cids i
      rw [(hall B RB g hg).2, ← hji, record_get hj _ hlen]
      exact congrArg some (hlast i j hown hji hj)
    refine ⟨checkValidateCoin_eq_true.mpr ⟨hR, hinfo⟩, fun part hne hsub C hC => ?_⟩
    rw [← Bool.not_eq_true, checkValidateCoin_eq_true]
    rintro ⟨-, hpart⟩
    obtain ⟨cid, hcid⟩ := List.exists_mem_of_ne_nil part hne
    have heq := (hpart cid hcid).symm.trans (hinfo cid (hsub hcid))
    exact hC (Option.some.inj heq)

/-- A run that has been evaluated. -/
theorem exists_validated {α : Type} (id : UInt64) (view : List UInt64 × Vrf → α) {v : α}
    (h : ((newVrf P id A group).bind fun f =>
      f.validateCoin P cids txhash blockhash).map view = some v) :
    ∃ R f, Validated P group cids txhash blockhash A R f ∧ view (R, f) = v := by
  obtain ⟨⟨R, f⟩, hrun, hview⟩ := Option.map_eq_some_iff.mp h
  obtain ⟨f₀, hnew, hvalid⟩ := Option.bind_eq_some_iff.mp hrun
  exact ⟨R, f, ⟨id, f₀.coinValidateInfo, f₀, hnew, hvalid⟩, hview⟩

end Members

/-- A list without repeated ids. -/
theorem honest_check_iff_pair : let zero : Hash := .zero 32
    let cids : List UInt64 := [3, 9, 10, 20]
    let R : List UInt64 := [3, 9, 10]
    let A := Sample.address 1
    ∃ f, Validated Sample.prims Sample.pair cids zero zero A R f ∧ R ≠ [] ∧
      ∃ owner : Fin cids.length → Address,
        owners 4 (fun cid => f.validateAddress (coinHash Sample.prims zero zero cid))
          Scan.start.turn cids = some (List.ofFn owner) ∧
        (∀ B RB g, Validated Sample.prims Sample.pair cids zero zero B RB g →
          RB = ((List.finRange cids.length).filter fun i => owner i = B).map cids.get) ∧
        ((∀ B RB g, Validated Sample.prims Sample.pair cids zero zero B RB g →
            g.checkValidateCoin R A = true ∧
            ∀ part, part ≠ [] → part ⊆ R → ∀ C ≠ A, g.checkValidateCoin part C = false) ↔
          ∀ i j, owner i = A → cids.get j = cids.get i → IsLastPlace cids j → owner j = A) := by
  intro zero cids R A
  obtain ⟨R', f, hvalid, rfl⟩ : ∃ R' f, Validated Sample.prims Sample.pair cids zero zero A R' f ∧
      R' = R := exists_validated 0 Prod.fst (by decide +kernel)
  exact ⟨f, hvalid, List.cons_ne_nil _ _, honest_check_iff hvalid (List.cons_ne_nil _ _)⟩

/-- The coin `5` alone is drawn for the first member; behind the coin `4` it goes to the second,
who has that one.  What the first member returns is not its own, and passes for the second. -/
theorem honest_check_fails :
    ∃ f, Validated Sample.prims Sample.pair [5, 4, 5] (.zero 32) (.zero 32)
        (Sample.address 1) [5] f ∧
      f.checkValidateCoin [5] (Sample.address 1) = false ∧
      f.checkValidateCoin [5] (Sample.address 2) = true := by
  let view : List UInt64 × Vrf → List UInt64 × Bool × Bool := fun r =>
    (r.1, r.2.checkValidateCoin [5] (Sample.address 1),
      r.2.checkValidateCoin [5] (Sample.address 2))
  obtain ⟨R, f, hvalid, hview⟩ : ∃ R f, Validated Sample.prims Sample.pair [5, 4, 5]
      (.zero 32) (.zero 32) (Sample.address 1) R f ∧
        view (R, f) = ([5], false, true) := exists_validated 0 view (by decide +kernel)
  obtain ⟨rfl, hfirst, hsecond⟩ : R = [5] ∧ _ ∧ _ := by simpa [view] using hview
  exact ⟨f, hvalid, hfirst, hsecond⟩

end Gocoin.Vrf
