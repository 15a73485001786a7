import Gocoin.State.Bindings
import Gocoin.Space.Spending
import Gocoin.Space.Execution

/-!
# Space/Locality — a transaction touches only what it names

Of the accounts a transaction touches the recipient and the sender, of the spaces the one it
creates, the one the recipient leaves for it, and those of the reports it settles.  Everything else
in the book stays as it is, so every reader sees it as before (`transaction_local`).
-/

namespace Gocoin

open Trie
open Sample (keccak prims)

namespace State.Book

/-! ## Books that agree -/

/-- The books agree but for some accounts and some spaces. -/
structure AgreesOff (A : Set Address) (I : Set UInt64) (B B' : Book) : Prop where
  account : ∀ a ∉ A, B'.account a = B.account a
  space : ∀ i ∉ I, B'.space i = B.space i

variable {A A' : Set Address} {I I' : Set UInt64} {B B' B'' : Book} {a : Address} {i : UInt64}

theorem AgreesOff.refl (A : Set Address) (I : Set UInt64) (B : Book) : AgreesOff A I B B :=
  ⟨fun _ _ => rfl, fun _ _ => rfl⟩

theorem AgreesOff.trans (h : AgreesOff A I B B') (h' : AgreesOff A I B' B'') :
    AgreesOff A I B B'' :=
  ⟨fun a ha => (h'.account a ha).trans (h.account a ha),
    fun i hi => (h'.space i hi).trans (h.space i hi)⟩

theorem agreesOff_setAccount (h : Holder) (ha : a ∈ A) : AgreesOff A I B (B.setAccount a h) :=
  ⟨fun _ hb => account_setAccount_of_ne fun hba => hb (hba ▸ ha), fun _ _ => rfl⟩

theorem agreesOff_setSpace (sp : Space) (hi : i ∈ I) : AgreesOff A I B (B.setSpace i sp) :=
  ⟨fun _ _ => rfl, fun _ hj => space_setSpace_of_ne fun hji => hj (hji ▸ hi)⟩

theorem agreesOff_onAccount (f : Holder → Holder) (ha : a ∈ A) :
    AgreesOff A I B (B.onAccount a f) := by
  unfold onAccount
  split
  · exact agreesOff_setAccount _ ha
  · exact .refl A I B

theorem agreesOff_onSpace (f : Space → Space) (hi : i ∈ I) : AgreesOff A I B (B.onSpace i f) := by
  unfold onSpace
  split
  · exact agreesOff_setSpace _ hi
  · exact .refl A I B

/-- An account that leaves touches the space it was bound to. -/
theorem agreesOff_leaveSpace (ha : a ∈ A) (hi : B.boundTo a ∈ I) :
    AgreesOff A I B (B.leaveSpace a) := by
  unfold leaveSpace
  split
  · next h hfound =>
    rw [boundTo_of_found hfound] at hi
    split
    · exact .refl A I B
    · split
      · exact (agreesOff_onAccount _ ha).trans (agreesOff_onSpace _ hi)
      · exact .refl A I B
  · exact .refl A I B

theorem agreesOff_associate (ha : a ∈ A) (hbound : B.boundTo a ∈ I) (hi : i ∈ I) :
    AgreesOff A I B (B.associate i a) :=
  ((agreesOff_leaveSpace ha hbound).trans (agreesOff_onAccount _ ha)).trans
    (agreesOff_onSpace _ hi)

theorem agreesOff_settleAt (ha : a ∈ A) (hbound : B.boundTo a ∈ I) (hi : i ∈ I) :
    AgreesOff A I B (B.settleAt i a) := by
  unfold settleAt
  split
  · exact .refl A I B
  · exact (agreesOff_setSpace _ hi).trans (agreesOff_associate ha hbound hi)

theorem agreesOff_createSpaceAndBindAddr (w : UInt64) (ha : a ∈ A) (hbound : B.boundTo a ∈ I)
    (hi : i ∈ I) : AgreesOff A I B (B.createSpaceAndBindAddr i w a).2 := by
  unfold createSpaceAndBindAddr
  split
  · exact agreesOff_settleAt ha hbound hi
  · next habsent =>
    refine (agreesOff_setAccount _ ha).trans (agreesOff_settleAt ha ?_ hi)
    rw [boundTo_setAccount, if_pos rfl]
    rwa [boundTo, habsent] at hbound
  · show AgreesOff A I B (B.createSpace i)
    unfold createSpace
    split
    · exact .refl A I B
    · exact agreesOff_setSpace _ hi

end State.Book

open State

namespace Space

/-- The spaces a transaction touches: the one it creates and the one the recipient leaves, or those
of the reports. -/
def touchedSpaces (T : Tally) (reports : List LiquidationReport) (tx : Tx) (r : Address) :
    Set UInt64 :=
  {i | tx.ptype = some .spaceCreation ∧ (i = u64 T.spaceid ∨ i = T.book.boundTo r)} ∪
    {i | tx.ptype = some .stellReport ∧ ∃ report ∈ reports, i = u64 report.spaceId}

/-- **A transaction touches the recipient, the sender and the spaces it names.** -/
theorem tallyAfter_agreesOff (P : Prims) (reports : List LiquidationReport) (T : Tally) {tx : Tx}
    {r : Address} (hr : tx.recipient = some r) :
    Book.AgreesOff {r, tx.senderOrZero P} (touchedSpaces T reports tx r) T.book
      (tallyAfter P reports T tx).book := by
  have hpay : ∀ B, Book.AgreesOff {r, tx.senderOrZero P} (touchedSpaces T reports tx r) B
      (chargeSender P tx B) := fun B => Book.agreesOff_onAccount _ (.inr rfl)
  unfold tallyAfter
  rw [hr]
  cases hp : tx.ptype with
  | none => exact .refl _ _ _
  | some kind =>
    cases kind with
    | createGroup | publishCoin | epochSigTx | applyGroup | stellGroup | coinGroup
      | transactionGroup => exact hpay _
    | epochTx | other => exact .refl _ _ _
    | recharge | attrSet => exact (Book.agreesOff_onAccount _ (.inl rfl)).trans (hpay _)
    | spaceCreation =>
      exact (Book.agreesOff_createSpaceAndBindAddr T.walletid (.inl rfl)
        (.inl ⟨hp, .inr rfl⟩) (.inl ⟨hp, .inl rfl⟩)).trans (Book.agreesOff_onAccount _ (.inl rfl))
    | stellReport =>
      have hcharge : ∀ rs : List LiquidationReport, (∀ report ∈ rs, report ∈ reports) → ∀ B,
          Book.AgreesOff {r, tx.senderOrZero P} (touchedSpaces T reports tx r) B
            (rs.foldl chargeReport B) := by
        intro rs
        induction rs with
        | nil => exact fun _ B => .refl _ _ B
        | cons report rs ih =>
          intro hmem B
          exact (Book.agreesOff_onSpace _ (.inr ⟨hp, report, hmem report List.mem_cons_self,
            rfl⟩)).trans (ih (fun r hr => hmem r (List.mem_cons_of_mem report hr)) _)
      exact hcharge reports (fun _ h => h) _

/-- **Transactions are local.**  On a state whose ids are below `2 ^ 64`, a transaction with a
recipient and a payload returns; every account but the recipient and the sender — the zero address,
where nobody is recovered — reads as before, and so does every space but the one a creation makes
and the one its recipient was bound to, or those the reports of a settlement name. -/
theorem transaction_local {P : Prims} {C : Contents} {env : Surroundings} {acc : Totals} {tx : Tx}
    {r : Address} (hK : StoresSmall P C) (h : Bounded P env.db.nodes C acc.state)
    (hr : tx.recipient = some r) (hdata : tx.payload ≠ []) (hspaceid : acc.spaceid < 2 ^ 64)
    (hreports : tx.ptype = some .stellReport →
      ∀ report ∈ reportsOf P env.db tx, report.spaceId < 2 ^ 64) :
    ∃ env' acc', applyTransaction P env acc tx = some (env', acc') ∧
      (∀ a, a ≠ r → a ≠ tx.senderOrZero P →
        ∃ v, acc.state.viewAccount P.keccak env.db.nodes a = some v ∧
          acc'.state.viewAccount P.keccak env'.db.nodes a = some v) ∧
      ∀ id < 2 ^ 64,
        (tx.ptype = some .spaceCreation → id ≠ acc.spaceid ∧
          ∀ v ∈ acc.state.viewAccount P.keccak env.db.nodes r, id ≠ v.bindSpaceId) →
        (tx.ptype = some .stellReport → ∀ report ∈ reportsOf P env.db tx, id ≠ report.spaceId) →
        ∃ v, acc.state.viewSpace P.keccak env.db.nodes id = some v ∧
          acc'.state.viewSpace P.keccak env'.db.nodes id = some v := by
  have htx : ¬ tx.Crashes := by
    rintro (hp | ⟨hnone, -⟩)
    · cases hpl : tx.payload with
      | nil => exact hdata hpl
      | cons x xs => rw [Tx.ptype, hpl] at hp; cases hp
    · rw [hr] at hnone
      cases hnone
  obtain ⟨acc', hacc', hdid⟩ := exists_validateTransaction (T := True) hK (fun _ _ h => h) h htx
    ⟨fun _ => hspaceid, hreports⟩
  have h' : Bounded P env.db.nodes C acc'.state := h.moves hK hdid.goes
  have hagree : Book.AgreesOff {r, tx.senderOrZero P}
      (touchedSpaces (acc.tally P C) (reportsOf P env.db tx) tx r) (acc.state.book P.keccak C)
      (acc'.state.book P.keccak C) := by
    have hafter := tallyAfter_agreesOff P (reportsOf P env.db tx) (acc.tally P C) hr
    rwa [← hdid.tally trivial] at hafter
  have hnodes : (sideEffect P env tx).db.nodes = env.db.nodes := nodes_sideEffect P env tx
  refine ⟨sideEffect P env tx, acc', by rw [applyTransaction_eq, hacc', Option.map_some],
    fun a har has => ⟨_, Good.viewAccount_book hK h a, ?_⟩,
    fun id hid hcreated hreported => ⟨_, Good.viewSpace_book h hid, ?_⟩⟩
  · rw [hnodes, Good.viewAccount_book hK h' a, hagree.account a (by simp [har, has])]
  · rw [hnodes, Good.viewSpace_book h' hid, hagree.space (u64 id) ?_]
    rintro (⟨hp, hi | hi⟩ | ⟨hp, report, hmem, hi⟩)
    · exact (hcreated hp).1 (u64_inj hid hspaceid hi)
    · refine (hcreated hp).2 _ (Good.viewAccount_book hK h r) ?_
      rw [AccountView.bindSpaceId_ofHolder]
      exact (toNat_u64 hid).symm.trans (congrArg UInt64.toNat hi)
    · exact hreported hp report hmem (u64_inj hid (hreports hp report hmem) hi)

/-- Creating a third space on the state with two accounts, for the first of them. -/
theorem transaction_local_twoAccounts :
    ∃ s ∈ sampleRun twoAccounts,
      ∃ env' acc', applyTransaction prims ⟨Db.empty, none⟩ ⟨3, 3, 0, s⟩ (signedTx 1 1 0 0)
          = some (env', acc') ∧
        (∀ a, a ≠ Sample.address 1 → a ≠ (signedTx 1 1 0 0).senderOrZero prims →
          ∃ v, s.viewAccount keccak Db.empty.nodes a = some v ∧
            acc'.state.viewAccount keccak env'.db.nodes a = some v) ∧
        ∀ id < 2 ^ 64,
          ((signedTx 1 1 0 0).ptype = some .spaceCreation → id ≠ 3 ∧
            ∀ v ∈ s.viewAccount keccak Db.empty.nodes (Sample.address 1), id ≠ v.bindSpaceId) →
          ((signedTx 1 1 0 0).ptype = some .stellReport →
            ∀ report ∈ reportsOf prims Db.empty (signedTx 1 1 0 0), id ≠ report.spaceId) →
          ∃ v, s.viewSpace keccak Db.empty.nodes id = some v ∧
            acc'.state.viewSpace keccak env'.db.nodes id = some v := by
  obtain ⟨s, hs, h, -⟩ := exists_sampleRun_book twoAccounts (by decide)
  let env : Surroundings := ⟨Db.empty, none⟩
  let acc : Totals := ⟨3, 3, 0, s⟩
  exact ⟨s, hs, transaction_local (allowsStored_empty _)
    (show Bounded prims env.db.nodes Contents.nothing acc.state from h) rfl (by decide)
    (show 3 < 2 ^ 64 by norm_num) (by decide)⟩

end Space

end Gocoin
