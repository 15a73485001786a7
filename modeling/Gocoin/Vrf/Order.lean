import Gocoin.Common.Sample
import Gocoin.Vrf.Vrf

/-!
# Vrf/Order — the order of a group, and its leader

The hex string of an address tells the address, whatever case its letters have (`hex_injective`), so
sorting a group by hex strings gives one list for every order in which the group is told
(`newVrf_perm`).

In that order the hash of the last block draws one member, and among the members it is the only one
with the place zero (`one_leader`).  An address that is not in the group is not found by the search
either, and keeps the place the search starts with — the first (`stranger_leads`).  Up to eleven
members all have places of their own, counted around the group (`ranks_bijective`).
-/

namespace Gocoin

open Rlp
open Sample (prims pair pair_ne_nil pair_nodup)

/-! ## Hex strings -/

/-- The value of a digit of either case. -/
def digitValue (c : UInt8) : ℕ :=
  if c < 0x3a then c.toNat - 0x30 else if c < 0x47 then c.toNat - 0x37 else c.toNat - 0x57

theorem digitValue_hexDigit : ∀ a : Fin 17, a ≠ Trie.term → digitValue (hexDigit a) = a.val := by
  decide

theorem digitValue_upper : ∀ a : Fin 17, a ≠ Trie.term → 0x39 < hexDigit a →
    digitValue (hexDigit a - 32) = a.val := by
  decide

section

variable (keccak : HashFn)
include keccak

theorem map_digitValue (a : Address) :
    ((hex keccak a).drop 2).map digitValue = (Trie.toNibbles a.bytes).map Fin.val := by
  have hterm := Trie.term_notMem_toNibbles a.bytes
  simp only [hex, encodeToString, List.cons_append, List.nil_append, List.drop_succ_cons,
    List.drop_zero]
  refine List.ext_getElem (by simp) fun i hi hi' => ?_
  have hlt : i < (Trie.toNibbles a.bytes).length := by simpa using hi'
  have hne : (Trie.toNibbles a.bytes)[i] ≠ Trie.term :=
    fun h => hterm (h ▸ List.getElem_mem hlt)
  simp only [List.getElem_map, List.getElem_mapIdx]
  split
  · next h => exact digitValue_upper _ hne h.1
  · exact digitValue_hexDigit _ hne

/-- **The hex string tells the address.** -/
theorem hex_injective : Function.Injective (hex keccak) := by
  intro a b h
  have hvalues := map_digitValue keccak a
  rw [h, map_digitValue keccak b] at hvalues
  exact FixedBytes.ext_bytes (Trie.toNibbles_injective
    (List.map_injective_iff.mpr Fin.val_injective hvalues).symm)

theorem hexKey_injective : Function.Injective (hexKey keccak) := by
  intro a b h
  exact hex_injective keccak
    (List.map_injective_iff.mpr (fun x y hxy => UInt8.toNat_inj.mp hxy) h)

/-! ## The group -/

theorem sortAddresses_spec (l : List Address) :
    ∃ g, sortAddresses keccak l = some g ∧ g.Perm l ∧
      g.Pairwise fun a b => hexKey keccak a ≤ hexKey keccak b :=
  Quicksort.sort_spec (hexKey keccak) l

end

/-- **`sortByHex` sorts a stretch.**  For bounds inside the list it returns — also when every access
outside `l..r` is a crash —, the elements between the bounds are permuted so that their hex strings
ascend, and the others stay where they are.  So `SortAddresses` sorts every list. -/
theorem sortByHex_stretch (keccak : HashFn) (addresses : List Address) {l r : ℤ}
    (hl : 0 ≤ l) (hr : r < addresses.length) :
    (∃ ys, sortByHex keccak addresses l r = some ys ∧
      Quicksort.sortRange (hexKey keccak) l r (addresses.length + 1) addresses l r = some ys ∧
      (Quicksort.stretch ys l r).Perm (Quicksort.stretch addresses l r) ∧
      ((Quicksort.stretch ys l r).Pairwise fun a b => hexKey keccak a ≤ hexKey keccak b) ∧
      ys.take l.toNat = addresses.take l.toNat ∧
      ys.drop (r + 1).toNat = addresses.drop (r + 1).toNat) ∧
    ∃ g, sortAddresses keccak addresses = some g ∧ g.Perm addresses ∧
      g.Pairwise fun a b => hexKey keccak a ≤ hexKey keccak b := by
  refine ⟨?_, sortAddresses_spec keccak addresses⟩
  have hfuel : (r - l).toNat < addresses.length + 1 := by omega
  obtain ⟨ys, hsort, hre, hasc⟩ := Quicksort.sortRange_spec (hexKey keccak) _
    (⟨hl, hl, by omega, hr⟩ : Quicksort.Window 0 (addresses.length - 1) addresses l r) hfuel
  obtain ⟨zs, hconfined, hre', hasc'⟩ := Quicksort.sortRange_spec (hexKey keccak) _
    (⟨hl, le_rfl, le_rfl, hr⟩ : Quicksort.Window l r addresses l r) hfuel
  obtain rfl : ys = zs := hre.eq_of_ascending (hexKey_injective keccak) hl hasc hre' hasc'
  exact ⟨ys, hsort, hconfined, hre.stretch_perm hl, hasc.pairwise hl, hre.take_eq, hre.drop_eq⟩

/-- The last three of four addresses, two of them equal. -/
theorem sortByHex_stretch_tail :
    let addresses := [Sample.address 3, Sample.address 2, Sample.address 1, Sample.address 1]
    ∃ ys, sortByHex Sample.keccak addresses 1 3 = some ys ∧ ys.take 1 = [Sample.address 3] ∧
      (Quicksort.stretch ys 1 3).Perm [Sample.address 2, Sample.address 1, Sample.address 1] ∧
      (Quicksort.stretch ys 1 3).Pairwise
        fun a b => hexKey Sample.keccak a ≤ hexKey Sample.keccak b := by
  obtain ⟨⟨ys, hsort, -, hperm, hasc, htake, -⟩, -⟩ := sortByHex_stretch Sample.keccak
    [Sample.address 3, Sample.address 2, Sample.address 1, Sample.address 1] (l := 1) (r := 3)
    (by decide) (by decide)
  exact ⟨ys, hsort, htake, hperm, hasc⟩

theorem sortAddresses_perm (keccak : HashFn) {l l' : List Address} (h : l.Perm l') :
    sortAddresses keccak l = sortAddresses keccak l' :=
  Quicksort.sort_eq_of_perm (hexKey_injective keccak) h

namespace Vrf

variable (P : Prims)

/-- `NewVrf` succeeds, with the addresses in order. -/
theorem exists_newVrf (l : List Address) :
    ∃ g, sortAddresses P.keccak l = some g ∧ g.Perm l ∧
      ∀ id addr, newVrf P id addr l = some ⟨id, addr, g, fun _ => none⟩ := by
  obtain ⟨g, hsort, hperm, -⟩ := sortAddresses_spec P.keccak l
  exact ⟨g, hsort, hperm, fun id addr => by rw [newVrf, hsort, Option.map_some]⟩

/-- **The order of a group does not depend on how it is told**: on two orders of the same addresses
`NewVrf` makes the same group, and so its functions give the same results. -/
theorem newVrf_perm {l l' : List Address} (h : l.Perm l') :
    ∃ g : List Address, g.Perm l ∧ ∀ id id' addr addr', ∃ f f' : Vrf,
      newVrf P id addr l = some f ∧ newVrf P id' addr' l' = some f' ∧
      f.groupAddress = g ∧ f'.groupAddress = g ∧
      (∀ number blockhash a, f.validateBlock P number blockhash a
        = f'.validateBlock P number blockhash a) ∧
      (addr = addr' → ∀ cids txhash blockhash,
        (f.validateCoin P cids txhash blockhash).map Prod.fst
            = (f'.validateCoin P cids txhash blockhash).map Prod.fst ∧
          (f.validateCoin P cids txhash blockhash).map (·.2.coinValidateInfo)
            = (f'.validateCoin P cids txhash blockhash).map (·.2.coinValidateInfo)) ∧
      (addr = addr' → ∀ times cids txhash blockhash,
        f.multipleValidateCoin P times cids txhash blockhash
          = f'.multipleValidateCoin P times cids txhash blockhash) := by
  obtain ⟨g, hsort, hperm, hnew⟩ := exists_newVrf P l
  have hnew' : ∀ id addr, newVrf P id addr l' = some ⟨id, addr, g, fun _ => none⟩ := by
    intro id addr
    rw [newVrf, ← sortAddresses_perm P.keccak h, hsort, Option.map_some]
  refine ⟨g, hperm, fun id id' addr addr' =>
    ⟨_, _, hnew id addr, hnew' id' addr', rfl, rfl, fun _ _ _ => rfl, ?_, ?_⟩⟩
  · rintro rfl cids txhash blockhash
    simp only [validateCoin, Option.map_map]
    exact ⟨rfl, rfl⟩
  · rintro rfl times cids txhash blockhash
    rfl

/-- Two members, told in both orders. -/
theorem newVrf_perm_pair :
    pair.Perm [Sample.address 2, Sample.address 1] ∧
    ∃ g : List Address, ∀ id id' addr addr', ∃ f f' : Vrf, newVrf prims id addr pair = some f ∧
      newVrf prims id' addr' [Sample.address 2, Sample.address 1] = some f' ∧
      f.groupAddress = g ∧ f'.groupAddress = g := by
  obtain ⟨g, -, hg⟩ := newVrf_perm prims (List.Perm.swap (Sample.address 2)
    (Sample.address 1) [])
  refine ⟨.swap _ _ _, g, fun id id' addr addr' => ?_⟩
  obtain ⟨f, f', hf, hf', hg, hg', -⟩ := hg id id' addr addr'
  exact ⟨f, f', hf, hf', hg, hg'⟩

/-! ## The leader -/

section Search

variable {α : Type} [DecidableEq α] (F : ℕ → ℕ) {x : α}

/-- A search that finds nothing leaves the value it starts with. -/
theorem foldl_search_of_notMem {g : List α} (hx : x ∉ g) (k n : ℕ) :
    (g.zipIdx n).foldl (fun k a => if a.1 = x then F a.2 else k) k = k := by
  induction g generalizing k n with
  | nil => rfl
  | cons a g ih =>
    rw [List.mem_cons, not_or] at hx
    rw [List.zipIdx_cons, List.foldl_cons, if_neg (Ne.symm hx.1), ih hx.2]

/-- A search through distinct elements finds the place of the element. -/
theorem foldl_search_of_mem {g : List α} (hg : g.Nodup) {p : ℕ} (hp : g[p]? = some x) (k n : ℕ) :
    (g.zipIdx n).foldl (fun k a => if a.1 = x then F a.2 else k) k = F (n + p) := by
  induction g generalizing k n p with
  | nil => cases hp
  | cons a g ih =>
    rw [List.nodup_cons] at hg
    rw [List.zipIdx_cons, List.foldl_cons]
    cases p with
    | zero =>
      obtain rfl := Option.some.inj hp
      rw [if_pos rfl, foldl_search_of_notMem F hg.1, Nat.add_zero]
    | succ p =>
      rw [ih hg.2 hp, Nat.add_right_comm n 1 p]
      rfl

end Search

/-- The place that the hash of the last block draws. -/
def drawnIndex (n : ℕ) (number : UInt64) (blockhash : Hash) : ℕ :=
  BigEndian.ofBytes (rlpHash P.keccak
    (some (.list [.ofNat number.toNat, .str blockhash.bytes]))).bytes % n

variable {g : List Address} {a : Address}

/-- The place of a member: how far it is behind the one that is drawn. -/
theorem sortIndex_of_mem (hg : g.Nodup) {p : ℕ} (hp : g[p]? = some a) (number : UInt64)
    (blockhash : Hash) :
    sortIndex P g number blockhash a = min 10 (if p < drawnIndex P g.length number blockhash
      then g.length - drawnIndex P g.length number blockhash + p
      else p - drawnIndex P g.length number blockhash) := by
  have hfold := foldl_search_of_mem (fun i => if i < drawnIndex P g.length number blockhash
    then g.length - drawnIndex P g.length number blockhash + i
    else i - drawnIndex P g.length number blockhash) hg hp 0 0
  rw [Nat.zero_add] at hfold
  exact congrArg (min 10) hfold

/-- A stranger is ranked first. -/
theorem sortIndex_of_notMem (ha : a ∉ g) (number : UInt64) (blockhash : Hash) :
    sortIndex P g number blockhash a = 0 :=
  congrArg (min 10) (foldl_search_of_notMem (fun i => if i < drawnIndex P g.length number blockhash
    then g.length - drawnIndex P g.length number blockhash + i
    else i - drawnIndex P g.length number blockhash) ha 0 0)

/-- Of the members only the one that is drawn is ranked first. -/
theorem sortIndex_eq_zero_iff (hg : g.Nodup) (ha : a ∈ g) (number : UInt64) (blockhash : Hash) :
    sortIndex P g number blockhash a = 0
      ↔ g[drawnIndex P g.length number blockhash]? = some a := by
  obtain ⟨p, hp⟩ := List.mem_iff_getElem?.mp ha
  obtain ⟨hlt, -⟩ := List.getElem?_eq_some_iff.mp hp
  have hdrawn : drawnIndex P g.length number blockhash < g.length :=
    Nat.mod_lt _ (Nat.zero_lt_of_lt hlt)
  rw [sortIndex_of_mem P hg hp]
  constructor
  · intro h
    have heq : p = drawnIndex P g.length number blockhash := by
      split at h <;> omega
    rw [← heq, hp]
  · intro h
    have heq : drawnIndex P g.length number blockhash = p :=
      (List.getElem?_inj hdrawn hg).mp (h.trans hp.symm)
    rw [heq, if_neg (lt_irrefl p), Nat.sub_self, Nat.min_zero]

/-- No place is above ten. -/
theorem sortIndex_le (g : List Address) (number : UInt64) (blockhash : Hash) (a : Address) :
    sortIndex P g number blockhash a ≤ 10 := min_le_left ..

theorem doubled_eq (k : ℕ) : doubled k = 2 ^ k := by
  induction k with
  | zero => rfl
  | succ k ih =>
    rw [doubled, Function.iterate_succ_apply', ← doubled, ih, Nat.shiftLeft_eq, pow_one, pow_succ]

/-- **The coefficient is exact**: the sum and its inverse are powers of two. -/
theorem coefficient_eq {k : ℕ} (hk : k ≤ 10) : coefficient k = 1 / 2 ^ k := by
  rw [coefficient, doubled_eq, Nat.cast_pow, Nat.cast_ofNat]
  exact Binary32.div_ofInt_two_pow (hk.trans (by decide))

variable {P} in
theorem validateBlock_eq {f : Vrf} (hf : f.groupAddress ≠ []) (number : UInt64) (blockhash : Hash)
    (a : Address) : f.validateBlock P number blockhash a
      = some (1 / 2 ^ sortIndex P f.groupAddress number blockhash a,
        sortIndex P f.groupAddress number blockhash a) := by
  rw [validateBlock, if_neg hf]
  exact congrArg (fun c => some (c, _)) (coefficient_eq (sortIndex_le P ..))

variable {P} in
theorem validateBlock_eq_leader {f : Vrf} (hf : f.groupAddress ≠ []) {number : UInt64}
    {blockhash : Hash} : f.validateBlock P number blockhash a = some (1, 0)
      ↔ sortIndex P f.groupAddress number blockhash a = 0 := by
  rw [validateBlock_eq hf, Option.some.injEq, Prod.mk.injEq]
  refine ⟨And.right, fun h => ⟨?_, h⟩⟩
  rw [h, pow_zero, div_one]

/-- A group has a leader, and no other member leads. -/
theorem existsUnique_sortIndex (hg : g.Nodup) (hne : g ≠ []) (number : UInt64) (blockhash : Hash) :
    ∃! a, a ∈ g ∧ sortIndex P g number blockhash a = 0 := by
  have hlt : drawnIndex P g.length number blockhash < g.length :=
    Nat.mod_lt _ (List.length_pos_iff.mpr hne)
  refine ⟨g[drawnIndex P g.length number blockhash], ⟨List.getElem_mem hlt, ?_⟩, ?_⟩
  · rw [sortIndex_eq_zero_iff P hg (List.getElem_mem hlt)]
    exact List.getElem?_eq_getElem hlt
  · rintro a ⟨ha, hlead⟩
    rw [sortIndex_eq_zero_iff P hg ha] at hlead
    exact (List.getElem?_eq_some_iff.mp hlead).2.symm

/-- **Among the members there is exactly one leader, and only among them.**  Whatever the last
block, one address of the group has the place zero and the coefficient one; beside it exactly the
addresses outside the group have them.  So there is one leader of all exactly if all addresses are
in the group, and an address is the leader or ranked behind it exactly if it is in the group. -/
theorem one_leader {group : List Address} (hne : group ≠ []) (hnodup : group.Nodup) (id : UInt64)
    (addr : Address) (number : UInt64) (blockhash : Hash) :
    ∃ f leader, newVrf P id addr group = some f ∧ leader ∈ group ∧
      (∀ a, f.validateBlock P number blockhash a = some (1, 0) ↔ a = leader ∨ a ∉ group) ∧
      ((∃! a, f.validateBlock P number blockhash a = some (1, 0)) ↔ ∀ a, a ∈ group) ∧
      ∀ a, ∃ c place, f.validateBlock P number blockhash a = some (c, place) ∧
        (a = leader ∨ c < 1 ∧ 0 < place ↔ a ∈ group) := by
  obtain ⟨g, -, hperm, hnew⟩ := exists_newVrf P group
  have hgne : g ≠ [] := fun h => hne (List.perm_nil.mp (h ▸ hperm.symm))
  obtain ⟨leader, ⟨hmem, hlead⟩, honly⟩ :=
    existsUnique_sortIndex P (hperm.nodup_iff.mpr hnodup) hgne number blockhash
  rw [hperm.mem_iff] at hmem
  have hzero : ∀ a, sortIndex P g number blockhash a = 0 ↔ a = leader ∨ a ∉ group := by
    intro a
    by_cases ha : a ∈ group
    · rw [or_iff_left (not_not.mpr ha)]
      exact ⟨fun h => honly a ⟨hperm.mem_iff.mpr ha, h⟩, fun h => h ▸ hlead⟩
    · exact iff_of_true (sortIndex_of_notMem P (fun h => ha (hperm.mem_iff.mp h)) number blockhash)
        (.inr ha)
  have hfirst : ∀ a, Vrf.validateBlock P ⟨id, addr, g, fun _ => none⟩ number blockhash a
      = some (1, 0) ↔ a = leader ∨ a ∉ group := fun a =>
    (validateBlock_eq_leader (f := ⟨id, addr, g, fun _ => none⟩) hgne).trans (hzero a)
  refine ⟨_, leader, hnew id addr, hmem, hfirst, ⟨fun h a => ?_, fun h => ?_⟩, fun a => ?_⟩
  · by_contra ha
    exact ha (h.unique ((hfirst a).mpr (.inr ha)) ((hfirst leader).mpr (.inl rfl)) ▸ hmem)
  · exact ⟨leader, (hfirst leader).mpr (.inl rfl), fun a ha =>
      ((hfirst a).mp ha).resolve_right (not_not.mpr (h a))⟩
  · refine ⟨_, _, validateBlock_eq (f := ⟨id, addr, g, fun _ => none⟩) hgne number blockhash a, ?_⟩
    constructor
    · rintro (rfl | ⟨-, hplace⟩)
      · exact hmem
      · by_contra ha
        exact hplace.ne' ((hzero a).mpr (.inr ha))
    · intro ha
      refine or_iff_not_imp_left.mpr fun hleader => ?_
      have hpos := Nat.pos_of_ne_zero fun h => ((hzero a).mp h).elim hleader (· ha)
      refine ⟨?_, hpos⟩
      rw [one_div]
      exact inv_lt_one_of_one_lt₀ (one_lt_pow₀ one_lt_two hpos.ne')

/-- Of two members one leads, and an address outside ranks with it. -/
theorem one_leader_pair : pair ≠ [] ∧ pair.Nodup ∧
    ∃ f leader, newVrf prims 0 (Sample.address 1) pair
        = some f ∧ leader ∈ pair ∧
      f.validateBlock prims 7 (.zero 32) leader = some (1, 0) ∧
      ∀ a ∈ pair, a ≠ leader → f.validateBlock prims 7 (.zero 32) a ≠ some (1, 0) := by
  obtain ⟨f, leader, hf, hmem, hfirst, -⟩ :=
    one_leader prims pair_ne_nil pair_nodup 0 (Sample.address 1) 7 (.zero 32)
  exact ⟨pair_ne_nil, pair_nodup, f, leader, hf, hmem, (hfirst leader).mpr (.inl rfl),
    fun a ha hother hlead => ((hfirst a).mp hlead).elim hother (· ha)⟩

/-- A stranger leads beside the member that is drawn. -/
theorem stranger_leads : pair.Nodup ∧ Sample.address 3 ∉ pair ∧
    ∃ f, newVrf prims 0 (Sample.address 1) pair = some f ∧
      f.validateBlock prims 7 (.zero 32) (Sample.address 3) = some (1, 0) ∧
      ∃ a ∈ pair, f.validateBlock prims 7 (.zero 32) a = some (1, 0) := by
  have hstranger : Sample.address 3 ∉ pair := by decide +kernel
  obtain ⟨g, -, hperm, hnew⟩ := exists_newVrf prims pair
  have hgne : g ≠ [] := fun h => pair_ne_nil (List.perm_nil.mp (h ▸ hperm.symm))
  obtain ⟨a, ⟨ha, hlead⟩, -⟩ := existsUnique_sortIndex prims
    (hperm.nodup_iff.mpr pair_nodup) hgne 7 (.zero 32)
  refine ⟨pair_nodup, hstranger, _, hnew 0 (Sample.address 1), ?_, a, hperm.mem_iff.mp ha, ?_⟩
  · rw [validateBlock_eq_leader hgne]
    exact sortIndex_of_notMem prims (fun h => hstranger (hperm.mem_iff.mp h)) _ _
  · rw [validateBlock_eq_leader hgne]
    exact hlead

/-! ## Ranks -/

/-- In a group of at most eleven no place is cut off: a member is ranked as far as it is behind the
one that is drawn, around the group. -/
theorem sortIndex_rotated (hg : g.Nodup) (h11 : g.length ≤ 11) (number : UInt64) (blockhash : Hash)
    {k : ℕ} (hk : k < g.length)
    (ha : g[(drawnIndex P g.length number blockhash + k) % g.length]? = some a) :
    sortIndex P g number blockhash a = k := by
  have hdrawn : drawnIndex P g.length number blockhash < g.length :=
    Nat.mod_lt _ (Nat.zero_lt_of_lt hk)
  rw [sortIndex_of_mem P hg ha]
  rcases Nat.lt_or_ge (drawnIndex P g.length number blockhash + k) g.length with h | h
  · rw [Nat.mod_eq_of_lt h, if_neg (by omega)]
    omega
  · rw [Nat.mod_eq_sub_mod h, Nat.mod_eq_of_lt (by omega), if_pos (by omega)]
    omega

/-- The members, from the one that is drawn around the group. -/
theorem exists_rotated (number : UInt64) (blockhash : Hash) (ha : a ∈ g) : ∃ k < g.length,
      g[(drawnIndex P g.length number blockhash + k) % g.length]? = some a := by
  obtain ⟨p, hlt, hp⟩ := List.mem_iff_getElem.mp ha
  have hdrawn : drawnIndex P g.length number blockhash < g.length :=
    Nat.mod_lt _ (Nat.zero_lt_of_lt hlt)
  have hshift : (drawnIndex P g.length number blockhash
      + (g.length - drawnIndex P g.length number blockhash + p) % g.length) % g.length = p := by
    rw [Nat.add_mod_mod, ← Nat.add_assoc, Nat.add_sub_of_le hdrawn.le, Nat.add_mod_left,
      Nat.mod_eq_of_lt hlt]
  exact ⟨_, Nat.mod_lt _ (Nat.zero_lt_of_lt hlt), by rw [hshift, List.getElem?_eq_getElem hlt, hp]⟩

/-- **Members have distinct ranks.**  In a group of one to eleven distinct addresses the place is a
bijection onto `0, …, n - 1`, a rotation of the sorted order, and the coefficient is exactly the
inverse power of two; so no two members hold the same coefficient. -/
theorem ranks_bijective {group : List Address} (hnodup : group.Nodup) (h1 : 1 ≤ group.length)
    (h11 : group.length ≤ 11) (id : UInt64) (addr : Address) (number : UInt64) (blockhash : Hash) :
    ∃ (f : Vrf) (rank : Address → ℕ), newVrf P id addr group = some f ∧
      (∀ a, f.validateBlock P number blockhash a = some (1 / 2 ^ rank a, rank a)) ∧
      Set.BijOn rank {a | a ∈ group} (Set.Iio group.length) ∧
      (∃ start < group.length, ∀ k < group.length, ∃ a,
        f.groupAddress[(start + k) % group.length]? = some a ∧ rank a = k) ∧
      ∀ a ∈ group, ∀ b ∈ group, (f.validateBlock P number blockhash a).map Prod.fst
        = (f.validateBlock P number blockhash b).map Prod.fst → a = b := by
  obtain ⟨g, -, hperm, hnew⟩ := exists_newVrf P group
  have hgnodup : g.Nodup := hperm.nodup_iff.mpr hnodup
  rw [← hperm.length_eq] at h1 h11 ⊢
  have hgne : g ≠ [] := List.ne_nil_of_length_pos h1
  have hblock := validateBlock_eq (P := P) (f := ⟨id, addr, g, fun _ => none⟩) hgne number blockhash
  have hrank : ∀ a ∈ group, ∃ k < g.length,
      g[(drawnIndex P g.length number blockhash + k) % g.length]? = some a ∧
        sortIndex P g number blockhash a = k := by
    intro a ha
    obtain ⟨k, hk, hget⟩ := exists_rotated P number blockhash (hperm.mem_iff.mpr ha)
    exact ⟨k, hk, hget, sortIndex_rotated P hgnodup h11 number blockhash hk hget⟩
  have hinj : ∀ a ∈ group, ∀ b ∈ group, sortIndex P g number blockhash a
      = sortIndex P g number blockhash b → a = b := by
    intro a ha b hb hab
    obtain ⟨k, -, hka, hra⟩ := hrank a ha
    obtain ⟨k', -, hkb, hrb⟩ := hrank b hb
    obtain rfl : k = k' := hra.symm.trans (hab.trans hrb)
    exact Option.some.inj (hka.symm.trans hkb)
  have hsurj : ∀ k < g.length, ∃ a,
      g[(drawnIndex P g.length number blockhash + k) % g.length]? = some a ∧
        sortIndex P g number blockhash a = k := by
    intro k hk
    have hlt := Nat.mod_lt (drawnIndex P g.length number blockhash + k) h1
    have hget := List.getElem?_eq_getElem hlt
    exact ⟨_, hget, sortIndex_rotated P hgnodup h11 number blockhash hk hget⟩
  refine ⟨_, sortIndex P g number blockhash, hnew id addr, hblock, ⟨?_, ?_, ?_⟩,
    ⟨_, Nat.mod_lt _ h1, hsurj⟩, ?_⟩
  · intro a ha
    obtain ⟨k, hk, -, hr⟩ := hrank a ha
    exact hr.trans_lt hk
  · exact fun a ha b hb hab => hinj a ha b hb hab
  · intro k hk
    obtain ⟨a, hget, hr⟩ := hsurj k hk
    exact ⟨a, hperm.mem_iff.mp (List.mem_of_getElem? hget), hr⟩
  · intro a ha b hb hab
    rw [hblock a, hblock b, Option.map_some, Option.map_some, Option.some.injEq, one_div, one_div,
      inv_inj] at hab
    exact hinj a ha b hb (Nat.pow_right_injective le_rfl (by exact_mod_cast hab))

theorem ranks_bijective_pair : pair.Nodup ∧
    ∃ (f : Vrf) (rank : Address → ℕ), newVrf prims 0 (Sample.address 1) pair = some f ∧
      (∀ a, f.validateBlock prims 7 (.zero 32) a
        = some (1 / 2 ^ rank a, rank a)) ∧
      Set.BijOn rank {a | a ∈ pair} (Set.Iio 2) := by
  obtain ⟨f, rank, hnew, hblock, hbij, -⟩ := ranks_bijective prims pair_nodup (by decide)
    (by decide) 0 (Sample.address 1) 7 (.zero 32)
  exact ⟨pair_nodup, f, rank, hnew, hblock, hbij⟩

end Vrf

end Gocoin
