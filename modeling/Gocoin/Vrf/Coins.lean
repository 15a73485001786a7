import Gocoin.Vrf.Order

/-!
# Vrf/Coins — coins are dealt out

The loop of `ValidateCoin` keeps, beside what the member itself has to validate, the last id, the
counter of carried coins and the address that has the last coin.  These three do not depend on the
member (`Turn`), and the flag of the loop always says whether the address is the member's own
(`Scan.Flagged`).  So the loop of a member picks the coins whose owner it is from a list of owners
that all members compute alike (`Scan.run_eq`), and **every coin has exactly one owner**
(`validateCoin_partition`).
-/

namespace Gocoin.Vrf

open Rlp

/-! ## What all members compute -/

/-- The part of the loop's variables that does not depend on the member. -/
structure Turn where
  continuity : ℕ
  oldcid : UInt64
  addr : Address

/-- The body of the loop, on this part. -/
def Turn.step (limit : ℕ) (draw : UInt64 → Option Address) (t : Turn) (cid : UInt64) :
    Option Turn :=
  if 0 < t.oldcid ∧ t.oldcid + 1 = cid then
    if limit < t.continuity + 1 then (draw cid).map fun addr => ⟨0, cid, addr⟩
    else some ⟨t.continuity + 1, cid, t.addr⟩
  else (draw cid).map fun addr => ⟨t.continuity, cid, addr⟩

/-- Who has each coin. -/
def owners (limit : ℕ) (draw : UInt64 → Option Address) : Turn → List UInt64 → Option (List Address)
  | _, [] => some []
  | t, cid :: cids => do
    let t ← t.step limit draw cid
    let os ← owners limit draw t cids
    some (t.addr :: os)

/-- The coins of one owner. -/
def pick (address : Address) (cids : List UInt64) (os : List Address) : List UInt64 :=
  ((cids.zip os).filter fun x => x.2 = address).map Prod.fst

/-- The map of who has which coin, written coin by coin. -/
def record (info : UInt64 → Option Address) (cids : List UInt64) (os : List Address) :
    UInt64 → Option Address :=
  (cids.zip os).foldl (fun m x => Function.update m x.1 (some x.2)) info

namespace Scan

/-- The part that does not depend on the member. -/
def turn (s : Scan) : Turn := ⟨s.continuity, s.oldcid, s.addr⟩

/-- The flag says whether the last coin is the member's own. -/
def Flagged (address : Address) (s : Scan) : Prop :=
  0 < s.oldcid → s.addFlag = decide (s.addr = address)

/-- The loop's variables after a coin whose turn is known. -/
def advance (address : Address) (s : Scan) (cid : UInt64) (t : Turn) : Scan where
  validateCid := if t.addr = address then s.validateCid ++ [cid] else s.validateCid
  continuity := t.continuity
  oldcid := t.oldcid
  addFlag := decide (t.addr = address)
  addr := t.addr
  coinValidateInfo := Function.update s.coinValidateInfo cid (some t.addr)

variable {address : Address} {limit : ℕ} {draw : UInt64 → Option Address}

theorem flagged_start (address : Address) : Flagged address start := fun h => absurd h (by decide)

theorem flagged_advance (address : Address) (s : Scan) (cid : UInt64) (t : Turn) :
    Flagged address (s.advance address cid t) :=
  fun _ => rfl

variable {s : Scan}

/-- **One coin**: the turn is the shared one, and the member takes the coin if it is its own. -/
theorem step_eq (h : Flagged address s) (cid : UInt64) :
    s.step address limit draw cid = (s.turn.step limit draw cid).map (s.advance address cid) := by
  unfold step Turn.step
  by_cases hrun : 0 < s.oldcid ∧ s.oldcid + 1 = cid
  · rw [if_pos hrun, if_pos (show 0 < s.turn.oldcid ∧ s.turn.oldcid + 1 = cid from hrun)]
    by_cases hlimit : limit < s.continuity + 1
    · rw [if_pos hlimit, if_pos (show limit < s.turn.continuity + 1 from hlimit), Option.map_map]
      rfl
    · rw [if_neg hlimit, if_neg (show ¬ limit < s.turn.continuity + 1 from hlimit), Option.map_some]
      have hflag := h hrun.1
      by_cases hown : s.addr = address <;>
        simp [carried, advance, turn, hflag, hown]
  · rw [if_neg hrun, if_neg (show ¬ (0 < s.turn.oldcid ∧ s.turn.oldcid + 1 = cid) from hrun),
      Option.map_map]
    rfl

/-- **The loop of a member picks its own coins** from the owners that all members compute, and its
map records these owners. -/
theorem run_eq (limit : ℕ) (draw : UInt64 → Option Address) (h : Flagged address s)
    (cids : List UInt64) :
    (cids.foldlM (step address limit draw) s).map (fun s => (s.validateCid, s.coinValidateInfo))
      = (owners limit draw s.turn cids).map fun os =>
          (s.validateCid ++ pick address cids os, record s.coinValidateInfo cids os) := by
  induction cids generalizing s with
  | nil => simp [owners, pick, record]
  | cons cid cids ih =>
    rw [List.foldlM_cons, step_eq h, owners]
    cases hturn : s.turn.step limit draw cid with
    | none => rfl
    | some t =>
      have hrest := ih (flagged_advance address s cid t)
      simp only [Option.map_some, Option.bind_eq_bind, Option.bind_some, hrest]
      rw [show (s.advance address cid t).turn = t from rfl]
      cases owners limit draw t cids with
      | none => rfl
      | some os =>
        simp only [Option.map_some, Option.bind_some, advance, pick, record, List.zip_cons_cons,
          List.filter_cons, decide_eq_true_eq, List.foldl_cons]
        split <;> simp

/-- The coins of a member. -/
theorem validateCid_run (limit : ℕ) (draw : UInt64 → Option Address) (cids : List UInt64) :
    (cids.foldlM (step address limit draw) start).map validateCid
      = (owners limit draw start.turn cids).map (pick address cids) := by
  have h := congrArg (Option.map Prod.fst) (run_eq limit draw (flagged_start address) cids)
  rw [Option.map_map, Option.map_map] at h
  exact h

end Scan

variable {cids : List UInt64} {os : List Address} {draw : UInt64 → Option Address} {t : Turn}

theorem length_owners {limit : ℕ} (h : owners limit draw t cids = some os) :
    os.length = cids.length := by
  induction cids generalizing t os with
  | nil =>
    obtain rfl := Option.some.inj h
    rfl
  | cons cid cids ih =>
    obtain ⟨t', -, h⟩ := Option.bind_eq_some_iff.mp h
    obtain ⟨os', hos', h⟩ := Option.bind_eq_some_iff.mp h
    obtain rfl := Option.some.inj h
    rw [List.length_cons, List.length_cons, ih hos']

/-- **Every coin has an owner**, who is drawn from the group. -/
theorem exists_owners (limit : ℕ) {g : List Address} (hdraw : ∀ cid, ∃ a ∈ g, draw cid = some a)
    (ht : 0 < t.oldcid → t.addr ∈ g) (cids : List UInt64) :
    ∃ os, owners limit draw t cids = some os ∧ os.length = cids.length ∧ ∀ a ∈ os, a ∈ g := by
  induction cids generalizing t with
  | nil => exact ⟨[], rfl, rfl, nofun⟩
  | cons cid cids ih =>
    have hstep : ∃ t', t.step limit draw cid = some t' ∧ t'.addr ∈ g := by
      obtain ⟨a, ha, hcid⟩ := hdraw cid
      unfold Turn.step
      split
      · next h =>
        split
        · exact ⟨_, by rw [hcid, Option.map_some], ha⟩
        · exact ⟨_, rfl, ht h.1⟩
      · exact ⟨_, by rw [hcid, Option.map_some], ha⟩
    obtain ⟨t', ht', hmem⟩ := hstep
    obtain ⟨os, hos, hlen, hall⟩ := ih fun _ => hmem
    refine ⟨t'.addr :: os, ?_, by rw [List.length_cons, List.length_cons, hlen],
      List.forall_mem_cons.mpr ⟨hmem, hall⟩⟩
    simp only [owners, ht', hos, some_bind]

/-! ## The coins of the members -/

theorem validateCoin_eq (P : Prims) (f : Vrf) (cids : List UInt64) (txhash blockhash : Hash) :
    (f.validateCoin P cids txhash blockhash).map Prod.fst
      = (owners 4 (fun cid => f.validateAddress (coinHash P txhash blockhash cid))
        Scan.start.turn cids).map (pick f.address cids) := by
  rw [validateCoin, Option.map_map]
  exact Scan.validateCid_run 4 _ cids

theorem multipleValidateCoin_eq (P : Prims) (f : Vrf) (times : ℤ) (cids : List UInt64)
    (txhash blockhash : Hash) :
    f.multipleValidateCoin P times cids txhash blockhash
      = (owners 5 (fun cid => f.multiplevalidateAddress times (coinHash P txhash blockhash cid))
        Scan.start.turn cids).map (pick f.address cids) :=
  Scan.validateCid_run 5 _ cids

theorem exists_validateAddress {f : Vrf} (hf : f.groupAddress ≠ []) (hash : Hash) :
    ∃ a ∈ f.groupAddress, f.validateAddress hash = some a := by
  have hlt : BigEndian.ofBytes hash.bytes % f.groupAddress.length < f.groupAddress.length :=
    Nat.mod_lt _ (List.length_pos_iff.mpr hf)
  exact ⟨_, List.getElem_mem hlt, by rw [validateAddress, if_neg hf, List.getElem?_eq_getElem hlt]⟩

/-- The coins of an owner, by their places. -/
theorem pick_eq {address : Address} (hlen : os.length = cids.length) :
    pick address cids os = ((List.finRange cids.length).filter
      fun i => os.get (i.cast hlen.symm) = address).map cids.get := by
  have hzip : cids.zip os = (List.finRange cids.length).map
      fun i => (cids.get i, os.get (i.cast hlen.symm)) := by
    refine List.ext_getElem (by simp [hlen]) fun i hi hi' => ?_
    simp
  rw [pick, hzip, List.filter_map, List.map_map]
  rfl

/-- The same, with the owners as places of a group. -/
theorem pick_eq_idxOf {group : List Address} (hnodup : group.Nodup) (hlen : os.length = cids.length)
    (hmem : ∀ i : Fin cids.length, os.get (i.cast hlen.symm) ∈ group) (m : Fin group.length) :
    pick (group.get m) cids os = ((List.finRange cids.length).filter
      fun i => (⟨group.idxOf (os.get (i.cast hlen.symm)),
        List.idxOf_lt_length_iff.mpr (hmem i)⟩ : Fin group.length) = m).map cids.get := by
  rw [pick_eq hlen]
  refine congrArg (List.map cids.get) (List.filter_congr fun i _ => decide_eq_decide.mpr ?_)
  constructor
  · intro h
    refine Fin.ext ?_
    show group.idxOf (os.get (i.cast hlen.symm)) = m
    rw [h]
    exact hnodup.idxOf_getElem m m.isLt
  · rintro rfl
    exact (List.getElem_idxOf (List.idxOf_lt_length_iff.mpr (hmem i))).symm

/-- **Coin validation is a partition.**  Whatever the coins and the hashes, every place of the list
has one member of the group, and each member's `ValidateCoin` — whatever it validated before —
returns the coins at the places that it has. -/
theorem validateCoin_partition (P : Prims) {group : List Address} (hne : group ≠ [])
    (hnodup : group.Nodup) (cids : List UInt64) (txhash blockhash : Hash) :
    ∃ owner : Fin cids.length → Fin group.length, ∀ (m : Fin group.length) (id : UInt64)
      (info : UInt64 → Option Address), ∃ f, newVrf P id (group.get m) group = some f ∧
        ({ f with coinValidateInfo := info }.validateCoin P cids txhash blockhash).map Prod.fst
          = some (((List.finRange cids.length).filter fun i => owner i = m).map cids.get) := by
  obtain ⟨g, -, hperm, hnew⟩ := exists_newVrf P group
  have hgne : g ≠ [] := fun h => hne (List.perm_nil.mp (h ▸ hperm.symm))
  let common : Vrf := ⟨0, .zero 20, g, fun _ => none⟩
  obtain ⟨os, hos, hlen, hall⟩ := exists_owners 4
    (fun cid => exists_validateAddress (f := common) hgne (coinHash P txhash blockhash cid))
    (t := Scan.start.turn) (fun h => absurd h (by decide)) cids
  have hmem : ∀ i : Fin cids.length, os.get (i.cast hlen.symm) ∈ group :=
    fun i => hperm.mem_iff.mp (hall _ (List.get_mem os _))
  refine ⟨fun i => ⟨group.idxOf (os.get (i.cast hlen.symm)), List.idxOf_lt_length_iff.mpr (hmem i)⟩,
    fun m id info => ⟨_, hnew id (group.get m), ?_⟩⟩
  refine (validateCoin_eq P _ cids txhash blockhash).trans ?_
  refine (congrArg (Option.map (pick (group.get m) cids)) hos).trans ?_
  rw [Option.map_some, pick_eq_idxOf hnodup hlen hmem]

/-- Two members and a list with a run, a repetition and the id zero. -/
theorem validateCoin_partition_pair : let group := Sample.pair
    let cids : List UInt64 := [5, 6, 7, 5, 0, 1]
    group ≠ [] ∧ group.Nodup ∧ ∃ owner : Fin cids.length → Fin group.length,
      ∀ (m : Fin group.length) (id : UInt64) (info : UInt64 → Option Address),
        ∃ f, newVrf Sample.prims id (group.get m) group = some f ∧
          ({ f with coinValidateInfo := info }.validateCoin Sample.prims cids (.zero 32)
              (.zero 32)).map Prod.fst
            = some (((List.finRange cids.length).filter fun i => owner i = m).map cids.get) := by
  exact ⟨Sample.pair_ne_nil, Sample.pair_nodup,
    validateCoin_partition Sample.prims Sample.pair_ne_nil Sample.pair_nodup _ _ _⟩

end Gocoin.Vrf
