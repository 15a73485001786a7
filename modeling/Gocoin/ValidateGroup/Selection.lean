import Mathlib.Data.List.Perm.Subperm
import Gocoin.Common.Sample
import Gocoin.Machinery.Fold

/-!
# ValidateGroup/Selection — who is selected

`RandomPerm` exchanges the first places of a list of indices with random later ones.  Whatever the
randomness, the list stays a permutation, so the places that are taken are different ones: a
selection draws distinct members of the list, all of them up to ten and ten of more
(`exists_selectMembers`). The selection that a group remembers until its next reset is one of these,
too.
-/

namespace Gocoin.ValidateGroup

open Fold

variable (keccak : HashFn)

/-! ## The shuffle -/

theorem swap_eq_some {l : List ℕ} {i j : ℕ} (hi : i < l.length) (hj : j < l.length) :
    swap l i j = some (l.swap i j) := by
  simp only [swap, List.getElem?_eq_getElem hi, List.getElem?_eq_getElem hj, some_bind,
    List.swap_eq, dif_pos (And.intro hi hj)]

theorem length_randFromBytes (b : Bytes) : (randFromBytes keccak b).length = randLength :=
  (keccak b).length_eq

theorem exists_deri {r : Bytes} (hr : randLength ≤ r.length) (i : ℕ) :
    ∃ d, deri keccak r i = some d :=
  ⟨_, if_neg hr.not_gt⟩

/-- The loop of the shuffle permutes. -/
theorem exists_permFrom {r : Bytes} (hr : randLength ≤ r.length) {n todo i : ℕ} (h : i + todo ≤ n)
    {l : List ℕ} (hl : l.length = n) :
    ∃ l', permFrom keccak r n todo i l = some l' ∧ l'.Perm l := by
  induction todo generalizing i l with
  | zero => exact ⟨l, rfl, .refl l⟩
  | succ todo ih =>
    have hpos : 0 < n - i := by omega
    obtain ⟨d, hd⟩ := exists_deri keccak hr i
    set j := BigEndian.ofBytes d % (n - i) with hj
    have hmod : modulo d (n - i) = some j := if_neg hpos.ne'
    have hlt : j < n - i := Nat.mod_lt _ hpos
    have hswap : swap l i (j + i) = some (l.swap i (j + i)) :=
      swap_eq_some (by omega) (by omega)
    have hperm : (l.swap i (j + i)).Perm l := List.swap_perm l i (j + i)
    obtain ⟨l', hl', hperm'⟩ := @ih (i + 1) (by omega) (l.swap i (j + i))
      (hperm.length_eq.trans hl)
    refine ⟨l', ?_, hperm'.trans hperm⟩
    simp only [permFrom, hd, hmod, hswap, hl', some_bind]

/-- The shuffle takes the first places of a permutation. -/
theorem exists_randomPerm {r : Bytes} (hr : randLength ≤ r.length) {n k : ℕ} (h : k ≤ n) :
    ∃ l : List ℕ, randomPerm keccak r n k = some (l.take k) ∧ l.Perm (List.range n) ∧
      (l.take k).length = k := by
  obtain ⟨l, hl, hperm⟩ := exists_permFrom keccak hr (by omega : 0 + k ≤ n)
    (List.length_range (n := n))
  refine ⟨l, by rw [randomPerm, hl, Option.map_some], hperm, ?_⟩
  rw [List.length_take, hperm.length_eq, List.length_range, min_eq_left h]

/-- **`RandomPerm` draws without repetition.**  Whatever the seed, the `k` indices that are taken of
`n ≥ k` are the first of a permutation of `0, …, n - 1`: different ones, and all below `n`.  No
modulus is zero and no index is out of range, as both would be a panic. -/
theorem randomPerm_take {r : Bytes} (hr : randLength ≤ r.length) {n k : ℕ} (h : k ≤ n) :
    ∃ idx, randomPerm keccak r n k = some idx ∧ idx.length = k ∧ idx.Nodup ∧ (∀ i ∈ idx, i < n) ∧
      ∃ l : List ℕ, l.Perm (List.range n) ∧ idx = l.take k := by
  obtain ⟨l, hl, hperm, hlen⟩ := exists_randomPerm keccak hr h
  refine ⟨_, hl, hlen, ?_, fun i hi => ?_, l, hperm, rfl⟩
  · exact (hperm.nodup_iff.mpr List.nodup_range).sublist (l.take_sublist k)
  · exact List.mem_range.mp (hperm.mem_iff.mp (List.mem_of_mem_take hi))

/-- Two of three indices, from the seed of the first epoch. -/
theorem randomPerm_take_two : let r := randFromBytes Sample.keccak (encodeBlockNumber 0)
    ∃ idx, randomPerm Sample.keccak r 3 2 = some idx ∧ idx.length = 2 ∧ idx.Nodup := by
  obtain ⟨idx, hidx, hlen, hnodup, -⟩ := randomPerm_take Sample.keccak
    (length_randFromBytes Sample.keccak (encodeBlockNumber 0)).ge (by decide : 2 ≤ 3)
  exact ⟨idx, hidx, hlen, hnodup⟩

/-! ## The draw -/

/-- The addresses are drawn from the members, as many as there are up to the limit. -/
structure Draws (ms : List GroupMember) (addrs : List Address) : Prop where
  subperm : addrs.Subperm (ms.map GroupMember.address)
  length_eq : addrs.length = min ms.length validateLimit

variable {ms : List GroupMember} {addrs : List Address}

theorem Draws.nodup (h : Draws ms addrs) (hms : (ms.map GroupMember.address).Nodup) :
    addrs.Nodup := by
  obtain ⟨l, hl, hsub⟩ := h.subperm
  exact hl.nodup_iff.mp (hms.sublist hsub)

/-- A list within the limit is drawn as a whole. -/
theorem Draws.perm (h : Draws ms addrs) (hms : ms.length ≤ validateLimit) :
    addrs.Perm (ms.map GroupMember.address) :=
  h.subperm.perm_of_length_le (by rw [h.length_eq, min_eq_left hms, List.length_map])

theorem draws_nil : Draws [] [] := ⟨.refl _, rfl⟩

/-- **The spec of a selection**: it draws from the members. -/
theorem exists_selectMembers (hms : ms ≠ []) (epochNumber : UInt64) :
    ∃ addrs, selectMembers keccak ms epochNumber = some addrs ∧ Draws ms addrs := by
  have hpos : 0 < ms.length := List.length_pos_iff.mpr hms
  unfold selectMembers
  split
  · next h =>
    exact ⟨_, rfl, .refl _, by rw [List.length_map, min_eq_left h.2.le]⟩
  · next h =>
    have hlimit : validateLimit ≤ ms.length := not_lt.mp fun hlt => h ⟨hpos, hlt⟩
    obtain ⟨l, hidx, hperm, hlen⟩ := exists_randomPerm keccak
      (length_randFromBytes keccak (encodeBlockNumber epochNumber)).ge hlimit
    set idx := l.take validateLimit
    have hsub : idx.Subperm (List.range ms.length) :=
      (l.take_sublist validateLimit).subperm.trans hperm.subperm
    set pick : ℕ → Address := fun i => (ms.map GroupMember.address)[i]?.getD (.zero 20)
      with hpick
    have hmap : (idx.mapM fun i => (ms[i]?).map GroupMember.address) = some (idx.map pick) := by
      rw [mapM_eq_some_iff, List.forall₂_map_right_iff]
      refine List.forall₂_same.mpr fun i hi => ?_
      have hlt : i < ms.length := List.mem_range.mp (hsub.subset hi)
      simp [hpick, hlt]
    have hall : (List.range ms.length).map pick = ms.map GroupMember.address := by
      refine List.ext_getElem (by simp) fun i hi _ => ?_
      have hlt : i < ms.length := by simpa using hi
      simp [hpick, hlt]
    refine ⟨idx.map pick, by simp only [hidx, hmap, some_bind], ?_, ?_⟩
    · obtain ⟨l, hl, hl'⟩ := hsub
      rw [← hall]
      exact ⟨l.map pick, hl.map pick, hl'.map pick⟩
    · rw [List.length_map, hlen, min_eq_right hlimit]

namespace MemberGroup

/-- The remembered selection, if there is one, is drawn from the members. -/
def Cached (g : MemberGroup) : Prop := g.selected = [] ∨ Draws g.groupmembers g.selected

/-- **The spec of the `Select…` functions**: they draw from the group and remember the draw. -/
theorem exists_select {g : MemberGroup} (hg : g.Cached) (number : UInt64) :
    ∃ addrs, g.select keccak number = some (addrs, { g with selected := addrs }) ∧
      Draws g.groupmembers addrs := by
  unfold select
  simp only
  split
  · next h => exact ⟨g.selected, rfl, hg.resolve_left h.2⟩
  · split
    · next h => exact ⟨[], rfl, h ▸ draws_nil⟩
    · next h =>
      obtain ⟨addrs, haddrs, hdraws⟩ := exists_selectMembers keccak h (number / blockNumberLimet)
      exact ⟨addrs, by rw [haddrs, some_bind], hdraws⟩

/-- A selection changes what is remembered and nothing else. -/
theorem select_eq_some {g g' : MemberGroup} {number : UInt64} {addrs : List Address}
    (h : g.select keccak number = some (addrs, g')) : g' = { g with selected := addrs } := by
  unfold select at h
  simp only at h
  split at h
  · rw [Option.some.injEq, Prod.mk.injEq] at h
    rw [← h.1, ← h.2]
  · split at h
    · rw [Option.some.injEq, Prod.mk.injEq] at h
      rw [← h.1, ← h.2]
    · simp only [bind_eq_some, Option.some.injEq, Prod.mk.injEq] at h
      obtain ⟨addrs', -, rfl, rfl⟩ := h
      rfl

end MemberGroup

end Gocoin.ValidateGroup
