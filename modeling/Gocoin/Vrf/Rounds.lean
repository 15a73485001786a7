import Gocoin.Vrf.Coins

/-!
# Vrf/Rounds — coins are dealt out again

`MultipleValidateCoin` runs the loop of `ValidateCoin` with every draw shifted by the round and with
five carried coins instead of four.  The counter and the last id do not depend on what is drawn, so
shifting the draws shifts all owners (`owners_map`): **after as many rounds as there are members,
every member has had every coin once** (`multipleValidateCoin_rotates`).

The first round shifts nothing, and still is not `ValidateCoin`: the two loops part at the fifth
coin that continues its predecessor — of the whole list, as the counter is not reset where a run
ends — and agree on all lists with at most four (`multipleValidateCoin_zero_iff`).
-/

namespace Gocoin.Vrf

open Rlp
open Sample (prims pair pair_ne_nil pair_nodup)

/-! ## Shifted draws -/

variable {draw : UInt64 → Option Address} {t : Turn} {g os : List Address} {cids : List UInt64}
  {limit : ℕ} {a : Address} {f : Vrf} {cid : UInt64}

/-- **A change of the draws is the same change of the owners.** -/
theorem owners_map {draw' : UInt64 → Option Address} {σ : Address → Address}
    (hdraw : ∀ cid, draw' cid = (draw cid).map σ) {t' : Turn}
    (hcount : t'.continuity = t.continuity) (hold : t'.oldcid = t.oldcid)
    (haddr : 0 < t.oldcid → t'.addr = σ t.addr) (cids : List UInt64) :
    owners limit draw' t' cids = (owners limit draw t cids).map (List.map σ) := by
  induction cids generalizing t t' with
  | nil => rfl
  | cons cid cids ih =>
    have hstep : (t'.step limit draw' cid = none ∧ t.step limit draw cid = none) ∨
        ∃ u u', t'.step limit draw' cid = some u' ∧ t.step limit draw cid = some u ∧
          u'.continuity = u.continuity ∧ u'.oldcid = u.oldcid ∧ u'.addr = σ u.addr := by
      unfold Turn.step
      rw [hold, hcount, hdraw]
      split_ifs with hrun hlimit
      · cases draw cid with
        | none => exact .inl ⟨rfl, rfl⟩
        | some a => exact .inr ⟨_, _, rfl, rfl, rfl, rfl, rfl⟩
      · exact .inr ⟨_, _, rfl, rfl, rfl, rfl, haddr hrun.1⟩
      · cases draw cid with
        | none => exact .inl ⟨rfl, rfl⟩
        | some a => exact .inr ⟨_, _, rfl, rfl, rfl, rfl, rfl⟩
    rcases hstep with ⟨h', h⟩ | ⟨u, u', h', h, hc, ho, ha⟩
    · rw [owners, owners, h', h]
      rfl
    · rw [owners, owners, h', h]
      simp only [some_bind, ih hc ho fun _ => ha]
      cases owners limit draw u cids with
      | none => rfl
      | some os => simp [ha]

/-- The member so many places behind. -/
def rotate (g : List Address) (t : ℕ) (a : Address) : Address :=
  g.getD ((g.idxOf a + t) % g.length) a

theorem getElem?_rotate (ha : a ∈ g) (t : ℕ) :
    g[(g.idxOf a + t) % g.length]? = some (rotate g t a) := by
  have hlt := Nat.mod_lt (g.idxOf a + t) (List.length_pos_of_mem ha)
  rw [rotate, List.getD_eq_getElem?_getD, List.getElem?_eq_getElem hlt]
  rfl

/-- Different rounds, different members. -/
theorem rotate_injOn (hg : g.Nodup) (ha : a ∈ g) :
    Set.InjOn (fun t => rotate g t a) (Set.Iio g.length) := by
  intro t ht u hu h
  have hpos := List.length_pos_of_mem ha
  have hget : g[(g.idxOf a + t) % g.length]? = g[(g.idxOf a + u) % g.length]? := by
    rw [getElem?_rotate ha, getElem?_rotate ha]
    exact congrArg some h
  have hmod : (g.idxOf a + t) ≡ (g.idxOf a + u) [MOD g.length] :=
    (List.getElem?_inj (Nat.mod_lt _ hpos) hg).mp hget
  exact (Nat.ModEq.add_left_cancel' _ hmod).eq_of_lt_of_lt ht hu

/-- The index wraps around once, which is enough. -/
theorem cell_wrapped {k t : ℕ} (hk : k < g.length) (ht : t < g.length) :
    Quicksort.cell g (if (g.length : ℤ) ≤ k + t then k + t - g.length else k + t)
      = g[(k + t) % g.length]? := by
  unfold Quicksort.cell
  split_ifs with hwrap hneg hneg
  · rw [Nat.mod_eq_sub_mod (by omega), Nat.mod_eq_of_lt (by omega)]
    congr 1
    omega
  · omega
  · rw [Nat.mod_eq_of_lt (by omega)]
    congr 1
  · omega

theorem multiplevalidateAddress_eq_getElem {t : ℕ} (ht : t < f.groupAddress.length) (hash : Hash) :
    f.multiplevalidateAddress t hash = f.groupAddress[
      (BigEndian.ofBytes hash.bytes % f.groupAddress.length + t) % f.groupAddress.length]? := by
  have hne : f.groupAddress ≠ [] := List.ne_nil_of_length_pos (Nat.zero_lt_of_lt ht)
  rw [multiplevalidateAddress, if_neg hne]
  exact cell_wrapped (Nat.mod_lt _ (Nat.zero_lt_of_lt ht)) ht

/-- **The address drawn in a round** is the one of the first round, so many places on. -/
theorem multiplevalidateAddress_eq (hnodup : f.groupAddress.Nodup) {t : ℕ}
    (ht : t < f.groupAddress.length) (hash : Hash) :
    f.multiplevalidateAddress t hash = (f.validateAddress hash).map (rotate f.groupAddress t) := by
  have hne : f.groupAddress ≠ [] := List.ne_nil_of_length_pos (Nat.zero_lt_of_lt ht)
  have hlt : BigEndian.ofBytes hash.bytes % f.groupAddress.length < f.groupAddress.length :=
    Nat.mod_lt _ (Nat.zero_lt_of_lt ht)
  have hidx := hnodup.idxOf_getElem _ hlt
  have hrot := getElem?_rotate (List.getElem_mem hlt) t
  rw [hidx] at hrot
  rw [multiplevalidateAddress_eq_getElem ht, hrot, validateAddress, if_neg hne,
    List.getElem?_eq_getElem hlt, Option.map_some]

/-- **Repeated validation rotates through the group.**  In every round of `0, …, n - 1` every call
returns, every place of the list has one member, and each member's call returns the coins at the
places it has; and over the rounds every place has every member once. -/
theorem multipleValidateCoin_rotates (P : Prims) {group : List Address} (hne : group ≠ [])
    (hnodup : group.Nodup) (cids : List UInt64) (txhash blockhash : Hash) :
    ∃ owner : Fin group.length → Fin cids.length → Fin group.length,
      (∀ (t m : Fin group.length) (id : UInt64) (info : UInt64 → Option Address),
        ∃ f, newVrf P id (group.get m) group = some f ∧
          { f with coinValidateInfo := info }.multipleValidateCoin P t.val cids txhash blockhash
            = some (((List.finRange cids.length).filter fun i => owner t i = m).map cids.get)) ∧
      ∀ i, Function.Bijective fun t => owner t i := by
  obtain ⟨g, -, hperm, hnew⟩ := exists_newVrf P group
  have hgne : g ≠ [] := fun h => hne (List.perm_nil.mp (h ▸ hperm.symm))
  have hgnodup : g.Nodup := hperm.nodup_iff.mpr hnodup
  have hround : ∀ t : Fin group.length, t.val < g.length :=
    fun t => t.isLt.trans_eq hperm.length_eq.symm
  let common : Vrf := ⟨0, .zero 20, g, fun _ => none⟩
  obtain ⟨os, hos, hlen, hall⟩ := exists_owners 5
    (fun cid => exists_validateAddress (f := common) hgne (coinHash P txhash blockhash cid))
    (t := Scan.start.turn) (fun h => absurd h (by decide)) cids
  have hlen' : ∀ t, (os.map (rotate g t)).length = cids.length :=
    fun t => List.length_map .. |>.trans hlen
  have hget : ∀ t (i : Fin cids.length), (os.map (rotate g t)).get (i.cast (hlen' t).symm)
      = rotate g t (os.get (i.cast hlen.symm)) := fun t i => List.getElem_map ..
  have hmem : ∀ t (i : Fin cids.length),
      (os.map (rotate g t)).get (i.cast (hlen' t).symm) ∈ group := by
    intro t i
    rw [hget]
    exact hperm.mem_iff.mp (List.mem_of_getElem? (getElem?_rotate (hall _ (List.get_mem os _)) t))
  refine ⟨fun t i => ⟨_, List.idxOf_lt_length_iff.mpr (hmem t.val i)⟩,
    fun t m id info => ⟨_, hnew id (group.get m), ?_⟩, fun i => ?_⟩
  · have howners : owners 5 (fun cid => common.multiplevalidateAddress t.val
        (coinHash P txhash blockhash cid)) Scan.start.turn cids
          = some (os.map (rotate g t.val)) := by
      rw [owners_map (fun cid => multiplevalidateAddress_eq (f := common) hgnodup
          (hround t) (coinHash P txhash blockhash cid)) rfl rfl
        (fun h => absurd h (by decide)) cids, hos, Option.map_some]
    refine (multipleValidateCoin_eq P _ _ cids txhash blockhash).trans ?_
    refine (congrArg (Option.map (pick (group.get m) cids)) howners).trans ?_
    rw [Option.map_some, pick_eq_idxOf hnodup (hlen' t.val) (hmem t.val)]
  · refine Finite.injective_iff_bijective.mp fun t u h => Fin.ext ?_
    have hidx := Fin.val_eq_of_eq h
    have heq := (List.idxOf_inj (hmem t.val i)).mp hidx
    rw [hget, hget] at heq
    exact rotate_injOn hgnodup (hall _ (List.get_mem os _)) (hround t) (hround u) heq

theorem multipleValidateCoin_rotates_pair : let group := pair
    let cids : List UInt64 := [5, 6, 7, 5, 0, 1]
    group ≠ [] ∧ group.Nodup ∧
      ∃ owner : Fin group.length → Fin cids.length → Fin group.length,
        (∀ (t m : Fin group.length) (id : UInt64) (info : UInt64 → Option Address),
          ∃ f, newVrf prims id (group.get m) group = some f ∧
            { f with coinValidateInfo := info }.multipleValidateCoin prims t.val cids
                (.zero 32) (.zero 32)
              = some (((List.finRange cids.length).filter fun i => owner t i = m).map cids.get)) ∧
        ∀ i, Function.Bijective fun t => owner t i := by
  exact ⟨pair_ne_nil, pair_nodup, multipleValidateCoin_rotates prims pair_ne_nil pair_nodup _ _ _⟩

/-! ## The first round -/

theorem multiplevalidateAddress_zero (f : Vrf) (hash : Hash) :
    f.multiplevalidateAddress 0 hash = f.validateAddress hash := by
  by_cases hne : f.groupAddress = []
  · rw [multiplevalidateAddress, if_pos hne, validateAddress, if_pos hne]
  · rw [validateAddress, if_neg hne]
    refine (multiplevalidateAddress_eq_getElem (List.length_pos_iff.mpr hne) hash).trans ?_
    rw [Nat.add_zero, Nat.mod_mod]

/-- How many coins continue the one before them, behind a given one. -/
def continuing : UInt64 → List UInt64 → ℕ
  | _, [] => 0
  | oldcid, cid :: cids =>
    (if 0 < oldcid ∧ oldcid + 1 = cid then 1 else 0) + continuing cid cids

/-- The two limits treat the first four continuing coins alike. -/
theorem owners_five_eq (h : t.continuity + continuing t.oldcid cids ≤ 4) :
    owners 5 draw t cids = owners 4 draw t cids := by
  induction cids generalizing t with
  | nil => rfl
  | cons cid cids ih =>
    rw [owners, owners]
    unfold Turn.step
    rw [continuing] at h
    split_ifs at h ⊢ with hrun h5 h4 h4
    · omega
    · omega
    · omega
    · simp only [some_bind]
      rw [ih (t := ⟨t.continuity + 1, cid, t.addr⟩)
        (by show t.continuity + 1 + continuing cid cids ≤ 4; omega)]
    · cases draw cid with
      | none => rfl
      | some a =>
        simp only [Option.map_some, some_bind]
        rw [ih (t := ⟨t.continuity, cid, a⟩)
          (by show t.continuity + continuing cid cids ≤ 4; omega)]

/-! ## Where the limits part

One coin is drawn to a member of its own and all others to another member.  If that coin is the
fifth continuing one, `ValidateCoin` draws it; `MultipleValidateCoin` carries it to the member of
the coin that started its run, which is another coin. -/

theorem pick_cons (address : Address) (cid : UInt64) (cids : List UInt64) (o : Address)
    (os : List Address) : pick address (cid :: cids) (o :: os)
      = if o = address then cid :: pick address cids os else pick address cids os := by
  simp only [pick, List.zip_cons_cons, List.filter_cons, decide_eq_true_eq]
  split <;> rfl

theorem pick_cons_ne {address : Address} {os' : List Address}
    (h : pick address cids os ≠ pick address cids os') (cid : UInt64) (o : Address) :
    pick address (cid :: cids) (o :: os) ≠ pick address (cid :: cids) (o :: os') := by
  rw [pick_cons, pick_cons]
  split
  · exact fun heq => h (List.cons.inj heq).2
  · exact h

theorem owners_cons (h : owners limit draw t (cid :: cids) = some os) :
    ∃ t' os', t.step limit draw cid = some t' ∧ owners limit draw t' cids = some os' ∧
      os = t'.addr :: os' := by
  rw [owners, bind_eq_some] at h
  obtain ⟨t', ht', h⟩ := h
  rw [bind_eq_some] at h
  obtain ⟨os', hos', h⟩ := h
  exact ⟨t', os', ht', hos', (Option.some.inj h).symm⟩

theorem add_one_u64 (x : UInt64) (d : ℕ) : x + u64 d + 1 = x + u64 (d + 1) := by
  rw [UInt64.add_assoc, u64, u64, UInt64.ofNat_add]
  rfl

theorem ne_add_u64 {x : UInt64} {d : ℕ} (h0 : 0 < d) (hd : d < 2 ^ 64) : x ≠ x + u64 d := by
  intro h
  have hnat := congrArg UInt64.toNat h
  have hx := x.toNat_lt
  rw [UInt64.toNat_add, toNat_u64 hd] at hnat
  omega

section Part

variable {a b : Address} {c : UInt64}

/-- All coins but one are drawn to the same member. -/
def oneTo (a b : Address) (c cid : UInt64) : Option Address := some (if cid = c then b else a)

variable {cids : List UInt64}

/-- Behind a coin of `b`, the first coin of `a` is not `c`. -/
theorem head?_pick_ne (hab : a ≠ b) {limit : ℕ} {t : Turn} (haddr : t.addr = b) {os : List Address}
    (h : owners limit (oneTo a b c) t cids = some os) :
    (pick a cids os).head? ≠ some c := by
  induction cids generalizing t os with
  | nil => exact nofun
  | cons cid cids ih =>
    obtain ⟨t', os', ht', hos', rfl⟩ := owners_cons h
    have hcase : t'.addr = b ∨ t'.addr = a ∧ cid ≠ c := by
      by_cases hc : cid = c
      · rw [Turn.step, oneTo, if_pos hc] at ht'
        split_ifs at ht' <;> cases ht'
        exacts [.inl rfl, .inl haddr, .inl rfl]
      · rw [Turn.step, oneTo, if_neg hc] at ht'
        split_ifs at ht' <;> cases ht'
        exacts [.inr ⟨rfl, hc⟩, .inl haddr, .inr ⟨rfl, hc⟩]
    rw [pick_cons]
    rcases hcase with hb | ⟨ha, hc⟩
    · rw [hb, if_neg hab.symm]
      exact ih hb hos'
    · rw [if_pos ha]
      exact fun h => hc (Option.some.inj h)

/-- **The fifth continuing coin tells the limits apart.**  The coin that started the run is at most
as far back as the counter says, so it is not the continuing coin itself. -/
theorem exists_pick_ne (hab : a ≠ b) {k : ℕ} {old : UInt64} (hk : k ≤ 4)
    (h5 : 5 ≤ k + continuing old cids) :
    ∃ c, ∀ addr os os', (0 < old → ∃ lead d, d ≤ k ∧ old = lead + u64 d ∧
        addr = if lead = c then b else a) →
      owners 4 (oneTo a b c) ⟨k, old, addr⟩ cids = some os →
      owners 5 (oneTo a b c) ⟨k, old, addr⟩ cids = some os' → pick a cids os ≠ pick a cids os' := by
  induction cids generalizing k old with
  | nil => exact absurd h5 (by rw [continuing]; omega)
  | cons cid cids ih =>
    rw [continuing] at h5
    by_cases hrun : 0 < old ∧ old + 1 = cid
    · rw [if_pos hrun] at h5
      rcases hk.eq_or_lt with rfl | hk
      · refine ⟨cid, fun addr os os' hlead h h' => ?_⟩
        obtain ⟨lead, d, hd, rfl, rfl⟩ := hlead hrun.1
        have hne : lead ≠ cid := by
          rw [← hrun.2, add_one_u64]
          exact ne_add_u64 (by omega) (by omega)
        obtain ⟨t, os, ht, hos, rfl⟩ := owners_cons h
        obtain ⟨t', os', ht', -, rfl⟩ := owners_cons h'
        rw [Turn.step, if_pos hrun, if_pos (Nat.lt_succ_self 4), oneTo, if_pos rfl] at ht
        rw [Turn.step, if_pos hrun, if_neg (Nat.lt_irrefl 5)] at ht'
        cases ht
        cases ht'
        rw [pick_cons, pick_cons, if_neg hab.symm, if_pos (if_neg hne)]
        intro heq
        exact head?_pick_ne hab rfl hos (congrArg List.head? heq)
      · obtain ⟨c, hc⟩ := ih hk (show 5 ≤ k + 1 + continuing cid cids by omega)
        refine ⟨c, fun addr os os' hlead h h' => ?_⟩
        obtain ⟨lead, d, hd, rfl, haddr⟩ := hlead hrun.1
        have hnext : cid = lead + u64 (d + 1) := hrun.2.symm.trans (add_one_u64 lead d)
        obtain ⟨t, os, ht, hos, rfl⟩ := owners_cons h
        obtain ⟨t', os', ht', hos', rfl⟩ := owners_cons h'
        rw [Turn.step, if_pos hrun, if_neg (by show ¬ 4 < k + 1; omega)] at ht
        rw [Turn.step, if_pos hrun, if_neg (by show ¬ 5 < k + 1; omega)] at ht'
        cases ht
        cases ht'
        exact pick_cons_ne (hc _ _ _
          (fun _ => ⟨lead, d + 1, Nat.succ_le_succ hd, hnext, haddr⟩) hos hos') cid addr
    · rw [if_neg hrun] at h5
      obtain ⟨c, hc⟩ := ih hk (show 5 ≤ k + continuing cid cids by omega)
      refine ⟨c, fun addr os os' hlead h h' => ?_⟩
      obtain ⟨t, os, ht, hos, rfl⟩ := owners_cons h
      obtain ⟨t', os', ht', hos', rfl⟩ := owners_cons h'
      rw [Turn.step, if_neg hrun] at ht ht'
      cases ht
      cases ht'
      exact pick_cons_ne (hc _ _ _
        (fun _ => ⟨cid, 0, Nat.zero_le k, (UInt64.add_zero cid).symm, rfl⟩) hos hos') cid _

end Part

/-! ## The exact condition -/

variable (P : Prims)

theorem multipleValidateCoin_zero_eq (f : Vrf) (cids : List UInt64) (txhash blockhash : Hash) :
    f.multipleValidateCoin P 0 cids txhash blockhash
      = (owners 5 (fun cid => f.validateAddress (coinHash P txhash blockhash cid))
        Scan.start.turn cids).map (pick f.address cids) := by
  rw [multipleValidateCoin_eq]
  simp only [multiplevalidateAddress_zero]

/-- What is hashed for a coin. -/
def coinItem (cid : UInt64) : Item :=
  .list [.ofNat cid.toNat, .str (FixedBytes.zero 32).bytes, .str (FixedBytes.zero 32).bytes]

theorem eq_of_encode_coinItem {c : UInt64} (h : encode (coinItem cid) = encode (coinItem c)) :
    cid = c := by
  have hitems : (encodeItems [.ofNat cid.toNat, .str (FixedBytes.zero 32).bytes,
      .str (FixedBytes.zero 32).bytes]).length ≤ 3 * 41 := by
    have hzero : (encode (.str (FixedBytes.zero 32).bytes)).length ≤ 41 := by decide +kernel
    refine length_encodeItems_le fun x hx => ?_
    simp only [List.mem_cons, List.not_mem_nil, or_false] at hx
    rcases hx with rfl | rfl | rfl
    · exact (length_encode_ofNat_le cid.toNat_lt).trans (by decide)
    · exact hzero
    · exact hzero
  have hsmall : (encode (coinItem cid)).length < 2 ^ 64 :=
    (length_encode_list_le (by omega)).trans_lt (by omega)
  have hhead := (List.cons.inj (Item.list.inj (encode_injective hsmall h))).1
  exact UInt64.toNat_inj.mp (Item.ofNat_injective hhead)

/-- Primitives that draw one coin to the second member of a pair and all others to the first. -/
def drawingPrims (c : UInt64) : Prims :=
  { prims with
    keccak := fun s => FixedBytes.ofBytes 32 (if s = encode (coinItem c) then [1] else []) }

/-- A pair of members, seen by the first. -/
def pairVrf : Vrf := ⟨0, Sample.address 1, pair, fun _ => none⟩

theorem validateAddress_drawingPrims (c cid : UInt64) :
    pairVrf.validateAddress
        (coinHash (drawingPrims c) (.zero 32) (.zero 32) cid)
      = oneTo (Sample.address 1) (Sample.address 2) c cid := by
  have hhash : coinHash (drawingPrims c) (.zero 32) (.zero 32) cid
      = FixedBytes.ofBytes 32 (if cid = c then [1] else []) := by
    refine congrArg (FixedBytes.ofBytes 32) (if_congr ⟨eq_of_encode_coinItem, ?_⟩ rfl rfl)
    rintro rfl
    rfl
  rw [hhash, oneTo]
  by_cases h : cid = c
  · rw [if_pos h, if_pos h]
    decide +kernel
  · rw [if_neg h, if_neg h]
    decide +kernel

/-- **The first round is plain validation exactly for lists with at most four continuing coins.** -/
theorem multipleValidateCoin_zero_iff (cids : List UInt64) :
    (∀ (P : Prims) (f : Vrf) (txhash blockhash : Hash),
      f.multipleValidateCoin P 0 cids txhash blockhash
        = (f.validateCoin P cids txhash blockhash).map Prod.fst) ↔ continuing 0 cids ≤ 4 := by
  constructor
  · intro heq
    by_contra hmany
    have hab : Sample.address 1 ≠ Sample.address 2 := by decide +kernel
    obtain ⟨c, hc⟩ := exists_pick_ne hab (Nat.zero_le 4)
      (show 5 ≤ 0 + continuing 0 cids by omega)
    have hdraw : ∀ cid, ∃ a ∈ pair, oneTo (Sample.address 1) (Sample.address 2) c cid = some a := by
      intro cid
      unfold oneTo
      split
      · exact ⟨_, List.mem_cons_of_mem _ List.mem_cons_self, rfl⟩
      · exact ⟨_, List.mem_cons_self, rfl⟩
    have hstart : 0 < Scan.start.turn.oldcid → Scan.start.turn.addr ∈ pair :=
      fun h => absurd h (by decide)
    obtain ⟨os, hos, -⟩ := exists_owners 4 hdraw hstart cids
    obtain ⟨os', hos', -⟩ := exists_owners 5 hdraw hstart cids
    have h := heq (drawingPrims c) pairVrf (.zero 32) (.zero 32)
    rw [multipleValidateCoin_zero_eq, validateCoin_eq] at h
    rw [funext (validateAddress_drawingPrims c), hos, hos'] at h
    exact hc _ os os' (fun h0 => absurd h0 (by decide)) hos hos' (Option.some.inj h).symm
  · intro hfew P f txhash blockhash
    rw [multipleValidateCoin_zero_eq, validateCoin_eq, owners_five_eq]
    exact (Nat.zero_add _).trans_le hfew

/-- Six consecutive coins: the last one is carried to the first member in one loop and drawn to the
second one in the other. -/
theorem multipleValidateCoin_zero_ne :
    ∃ f, newVrf prims 0 (Sample.address 1) pair = some f ∧
      f.multipleValidateCoin prims 0 [1, 2, 3, 4, 5, 6] (.zero 32)
          (.zero 32)
        ≠ (f.validateCoin prims [1, 2, 3, 4, 5, 6] (.zero 32)
          (.zero 32)).map Prod.fst := by
  obtain ⟨g, hsort, -, hnew⟩ := exists_newVrf prims pair
  have hg : sortAddresses prims.keccak pair
      = some pair := by decide +kernel
  obtain rfl := Option.some.inj (hg.symm.trans hsort)
  refine ⟨_, hnew 0 (Sample.address 1), ?_⟩
  decide +kernel

end Gocoin.Vrf
