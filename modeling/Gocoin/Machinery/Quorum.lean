import Mathlib.Data.Finset.Card

/-!
# Machinery/Quorum — majorities of a group

Votes are a set of pairs of a voter and a ballot.  A ballot has a majority when more than half of
the group has voted for it; two majorities share a voter, so ballots of voters that vote only once
cannot both have one.  Messages that bring different voters bring as many as there are messages.
-/

namespace Quorum

variable {α β : Type*} {group : Finset α} {votes votes' : Set (α × β)} {x y : β}

/-- More than half of the group has voted for the ballot. -/
def Majority (group : Finset α) (votes : Set (α × β)) (x : β) : Prop :=
  ∃ Q ⊆ group, group.card / 2 + 1 ≤ Q.card ∧ ∀ a ∈ Q, (a, x) ∈ votes

theorem Majority.mono (h : Majority group votes x) (hsub : votes ⊆ votes') :
    Majority group votes' x := by
  obtain ⟨Q, hQ, hcard, hvotes⟩ := h
  exact ⟨Q, hQ, hcard, fun a ha => hsub (hvotes a ha)⟩

/-! ## Voters that several messages bring -/

theorem length_le_dedup_flatMap [DecidableEq β] {f : α → List β} {l : List α}
    (hne : ∀ a ∈ l, f a ≠ []) (hd : l.Pairwise fun a b => (f a).Disjoint (f b)) :
    l.length ≤ (l.flatMap f).dedup.length := by
  induction hd with
  | nil => exact Nat.zero_le _
  | @cons a l ha _ ih =>
    obtain ⟨x, hx⟩ := List.exists_mem_of_ne_nil _ (hne a List.mem_cons_self)
    have hnotin : x ∉ l.flatMap f := fun hmem => by
      obtain ⟨b, hb, hxb⟩ := List.mem_flatMap.mp hmem
      exact ha b hb hx hxb
    have hsub : (x :: (l.flatMap f).dedup).Subperm ((a :: l).flatMap f).dedup := by
      refine (List.nodup_cons.mpr ⟨mt List.mem_dedup.mp hnotin, List.nodup_dedup _⟩).subperm ?_
      intro y hy
      rw [List.mem_dedup, List.flatMap_cons, List.mem_append]
      rcases List.mem_cons.mp hy with rfl | hy
      · exact .inl hx
      · exact .inr (List.mem_dedup.mp hy)
    have hlen := ih fun b hb => hne b (List.mem_cons_of_mem _ hb)
    exact (Nat.succ_le_succ hlen).trans hsub.length_le

/-! ## Two majorities -/

variable [DecidableEq α]

/-- **Two majorities share a voter.** -/
theorem Majority.exists_common (hx : Majority group votes x) (hy : Majority group votes y) :
    ∃ a ∈ group, (a, x) ∈ votes ∧ (a, y) ∈ votes := by
  obtain ⟨Q, hQ, hcard, hvotes⟩ := hx
  obtain ⟨Q', hQ', hcard', hvotes'⟩ := hy
  have hlt : group.card < Q.card + Q'.card := by omega
  obtain ⟨a, ha⟩ := Finset.inter_nonempty_of_card_lt_card_add_card hQ hQ' hlt
  obtain ⟨haQ, haQ'⟩ := Finset.mem_inter.mp ha
  exact ⟨a, hQ haQ, hvotes a haQ, hvotes' a haQ'⟩

/-- A majority out of a list of voters. -/
theorem Majority.of_list {voters : List α} (hgroup : ∀ a ∈ voters, a ∈ group)
    (hvotes : ∀ a ∈ voters, (a, x) ∈ votes) (hcard : group.card / 2 + 1 ≤ voters.dedup.length) :
    Majority group votes x := by
  refine ⟨voters.toFinset, fun a ha => hgroup a (List.mem_toFinset.mp ha), ?_,
    fun a ha => hvotes a (List.mem_toFinset.mp ha)⟩
  rwa [List.card_toFinset]

end Quorum
