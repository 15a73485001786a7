import Gocoin.Protocol.Binding
import Gocoin.Space.Agreement

/-!
# Space/Malleability — what a signature covers

`FrontierSigner.Hash` is over the cost, the recipient, the amount and the payload; the time of a
transaction is not signed.  The time is read in two places: the group applications hand it to the
group, which orders its members by it, and a settlement report is looked up under the hash of the
whole transaction.  So two transactions with the same signature have the same effect from every
state exactly when they have the same time or are of another type (`same_effect_iff`).
-/

namespace Gocoin

open Rlp State Trie ValidateGroup
open Sample (transfer prims address)

/-- The types whose execution reads the time, or the hash of the transaction. -/
def TxKind.Timed : TxKind → Prop
  | .applyGroup => True
  | .stellReport => True
  | .stellGroup => True
  | .coinGroup => True
  | .transactionGroup => True
  | _ => False

/-! ## The signed fields -/

namespace Tx

/-- The writer of the list of `FrontierSigner.Hash`. -/
def writeSigned (tx : Tx) : Writer :=
  writeList [writeBigInt tx.cost, writePtr (tx.recipient.map FixedBytes.bytes),
    writeBigInt tx.amount, writeBytes tx.payload]

/-- The list of `FrontierSigner.Hash`, of a transaction without negative integers. -/
def signedItem (tx : Tx) : Item :=
  .list [.ofNat tx.cost.toNat, recipientItem tx.recipient, .ofNat tx.amount.toNat, .str tx.payload]

variable {P : Prims} {tx tx₁ tx₂ : Tx}

theorem sigHash_eq (hcost : 0 ≤ tx.cost) (hamount : 0 ≤ tx.amount) :
    tx.sigHash P = rlpHash P.keccak (some tx.signedItem) := by
  rw [sigHash, Item.ofInt?_of_nonneg hcost, Item.ofInt?_of_nonneg hamount]
  rfl

theorem writes_writeSigned (hcost : 0 ≤ tx.cost) (hamount : 0 ≤ tx.amount) :
    Writes tx.writeSigned tx.signedItem :=
  writes_list (.cons (writes_bigInt hcost) (.cons (writes_ptr _) (.cons (writes_bigInt hamount)
    (.cons (writes_bytes _) .nil))))

theorem recipientItem_injective : Function.Injective recipientItem := fun a b h => by
  have ha := recipientOfItem_recipientItem a
  rw [h, recipientOfItem_recipientItem] at ha
  exact (Option.some.inj ha).symm

/-- **Transactions with one signature differ in their time only.** -/
theorem eq_of_sigHash (hcost₁ : 0 ≤ tx₁.cost) (hamount₁ : 0 ≤ tx₁.amount) (hcost₂ : 0 ≤ tx₂.cost)
    (hamount₂ : 0 ≤ tx₂.amount) (hfree : NoCollision P.keccak tx₁.writeSigned tx₂.writeSigned)
    (hsig : tx₁.sigHash P = tx₂.sigHash P) (hv : tx₁.v = tx₂.v) (hr : tx₁.r = tx₂.r)
    (hs : tx₁.s = tx₂.s) : tx₂ = { tx₁ with txtime := tx₂.txtime } := by
  rw [sigHash_eq hcost₁ hamount₁, sigHash_eq hcost₂ hamount₂,
    rlpHash_eq_iff (writes_writeSigned hcost₁ hamount₁) (writes_writeSigned hcost₂ hamount₂) hfree]
    at hsig
  simp only [signedItem, Item.list.injEq, List.cons.injEq, Item.str.injEq, Item.ofNat_inj,
    recipientItem_injective.eq_iff, and_true] at hsig
  obtain ⟨hcost, hrecipient, hamount, hpayload⟩ := hsig
  have hcost : tx₂.cost = tx₁.cost := by omega
  have hamount : tx₂.amount = tx₁.amount := by omega
  rw [← hcost, hrecipient, ← hamount, hpayload, hv, hr, hs]

theorem time_injective {t t' : UInt64} (h : ({ tx with txtime := t } : Tx).time
    = ({ tx with txtime := t' } : Tx).time) : t = t' :=
  UInt64.toBitVec_inj.mp (BitVec.toInt_inj.mp h)

end Tx

namespace Space

variable {P : Prims}

variable (P) in
/-- Two transactions have the same effect: from every state, over every database and with any groups
they crash together, or leave the same groups and show the same accounts and spaces. -/
def SameEffect (tx₁ tx₂ : Tx) : Prop :=
  ∀ (env : Surroundings) (acc : Totals),
    Option.Rel (fun r₁ r₂ => r₁.1.validateGroup = r₂.1.validateGroup ∧
        SameOutcome P env.db.nodes r₁.2 r₂.2)
      (applyTransaction P env acc tx₁) (applyTransaction P env acc tx₂)

theorem SameEffect.of_eq {tx₁ tx₂ : Tx}
    (h : ∀ env acc, applyTransaction P env acc tx₁ = applyTransaction P env acc tx₂) :
    SameEffect P tx₁ tx₂ := by
  intro env acc
  rw [h]
  cases applyTransaction P env acc tx₂ with
  | none => exact .none
  | some r => exact .some ⟨rfl, rfl, rfl, rfl, fun _ => rfl, fun _ => rfl⟩

variable {tx : Tx} {kind : TxKind}

/-- A type that does not read the time does the same at any time. -/
theorem applyTransaction_txtime (h : ∀ k ∈ tx.ptype, ¬ k.Timed) (t : UInt64) (env : Surroundings)
    (acc : Totals) :
    applyTransaction P env acc { tx with txtime := t } = applyTransaction P env acc tx := by
  have hp : ({ tx with txtime := t } : Tx).ptype = tx.ptype := rfl
  have hsender : ({ tx with txtime := t } : Tx).senderOrZero P = tx.senderOrZero P := by
    simp only [Tx.senderOrZero, Tx.sender, Tx.sigHash]
  cases hk : tx.ptype with
  | none =>
    simp only [applyTransaction, hp, hk, Option.bind_eq_bind, Option.bind_none]
  | some kind =>
    have hkind := h kind hk
    cases kind with
    | applyGroup | stellReport | stellGroup | coinGroup | transactionGroup =>
      exact absurd trivial hkind
    | _ =>
      simp only [applyTransaction, hp, hk, hsender, some_bind]

/-! ## Applications at two times -/

/-- No group has a member. -/
def emptyGroups : ValidateGroup where
  space := ⟨[], [], [], [], []⟩
  coin := ⟨[], [], [], [], []⟩
  transaction := ⟨[], [], [], [], []⟩
  stellgroupmembers := []
  stellAddresses := []

/-- The groups after an application show the applicant's time. -/
theorem time_eq_of_sideEffect {env : Surroundings} (henv : env.validateGroup = some emptyGroups)
    {tx' : Tx} (hp : tx.ptype = some kind) (hp' : tx'.ptype = some kind) (htimed : kind.Timed)
    (hreport : kind ≠ .stellReport)
    (h : (sideEffect P env tx).validateGroup = (sideEffect P env tx').validateGroup) :
    tx.time = tx'.time := by
  unfold sideEffect at h
  rw [hp, hp'] at h
  simp only [Surroundings.enter, henv] at h
  cases kind with
  | stellReport => exact absurd rfl hreport
  | applyGroup | stellGroup | coinGroup | transactionGroup =>
    simp [ValidateGroup.add, ValidateGroup.addStell, ValidateGroup.addCoin,
      ValidateGroup.addTransaction, MemberGroup.add, addMember, emptyGroups] at h
    exact h.1.2
  | _ => exact htimed.elim

/-- From the state of one unit every transaction that does not crash is executed. -/
theorem exists_applyTransaction (h : Hash) (tx : Tx) (htx : ¬ tx.Crashes)
    (vg : Option ValidateGroup) :
    ∃ acc, applyTransaction P ⟨unitStore h, vg⟩ ⟨0, 0, 0, unitState⟩ tx
        = some (sideEffect P ⟨unitStore h, vg⟩ tx, acc) ∧
      HasUnits P (fun _ => none) acc.state (2 - if settles P h tx then 1 else 0) := by
  have hs : HasUnits P (fun _ => none) (⟨0, 0, 0, unitState⟩ : Totals).state 2 :=
    hasUnits_unitState _
  obtain ⟨acc, hacc, hunits⟩ := hs.validateTransaction (onlyReport_unitStore h) le_rfl htx
  exact ⟨acc, by rw [applyTransaction_eq, hacc, Option.map_some], by simpa using hunits⟩

theorem not_crashes_of_timed (hp : tx.ptype = some kind) (htimed : kind.Timed) : ¬ tx.Crashes := by
  rintro (hc | ⟨-, hc⟩)
  · rw [hp] at hc
    cases hc
  · rw [hp] at hc
    rcases hc with hc | hc | hc <;> cases hc <;> exact htimed

/-- An application at another time leaves other groups. -/
theorem not_sameEffect_of_application (hp : tx.ptype = some kind) (htimed : kind.Timed)
    (hreport : kind ≠ .stellReport) {t : UInt64} (ht : tx.txtime ≠ t) :
    ¬ SameEffect P tx { tx with txtime := t } := by
  intro hsame
  obtain ⟨acc₁, hacc₁, -⟩ := exists_applyTransaction (P := P) (tx.hash P) tx
    (not_crashes_of_timed hp htimed) (some emptyGroups)
  obtain ⟨acc₂, hacc₂, -⟩ := exists_applyTransaction (P := P) (tx.hash P)
    { tx with txtime := t } (not_crashes_of_timed hp htimed) (some emptyGroups)
  have hrel := hsame ⟨unitStore (tx.hash P), some emptyGroups⟩ ⟨0, 0, 0, unitState⟩
  rw [hacc₁, hacc₂] at hrel
  cases hrel with
  | some hrel =>
    exact ht (Tx.time_injective (time_eq_of_sideEffect rfl hp hp htimed hreport hrel.1))

/-! ## A settlement report at two times -/

/-- A settlement at another time settles other reports. -/
theorem not_sameEffect_of_report (hp : tx.ptype = some .stellReport) {t : UInt64}
    (hhash : tx.hash P ≠ ({ tx with txtime := t } : Tx).hash P) :
    ¬ SameEffect P tx { tx with txtime := t } := by
  intro hsame
  have hp' : ({ tx with txtime := t } : Tx).ptype = some .stellReport := hp
  obtain ⟨acc₁, hacc₁, hunits₁⟩ := exists_applyTransaction (P := P) (tx.hash P) tx
    (not_crashes_of_timed hp trivial) none
  obtain ⟨acc₂, hacc₂, hunits₂⟩ := exists_applyTransaction (P := P) (tx.hash P)
    { tx with txtime := t } (not_crashes_of_timed hp' trivial) none
  have hset₁ : settles P (tx.hash P) tx = true := decide_eq_true ⟨hp, rfl⟩
  have hset₂ : settles P (tx.hash P) { tx with txtime := t } = false :=
    decide_eq_false fun h => hhash h.2.symm
  rw [hset₁, if_pos rfl] at hunits₁
  rw [hset₂, if_neg Bool.false_ne_true] at hunits₂
  have hrel := hsame ⟨unitStore (tx.hash P), none⟩ ⟨0, 0, 0, unitState⟩
  rw [hacc₁, hacc₂] at hrel
  cases hrel with
  | some hrel =>
    obtain ⟨obj₁, hobj₁, hbal₁⟩ := hunits₁.getSpaceObject
    obtain ⟨obj₂, hobj₂, hbal₂⟩ := hunits₂.getSpaceObject
    have hspace := hrel.2.space 0
    rw [show (⟨unitStore (tx.hash P), none⟩ : Surroundings).db.nodes = fun _ => none from
      nodes_unitStore _, hobj₁, hobj₂, Option.some.injEq, Lookup.found.injEq] at hspace
    rw [hspace, hbal₂] at hbal₁
    norm_num at hbal₁

/-- **When a signature covers everything a transaction does.**  Two transactions with the same
signed hash and the same signature have the same effect on accounts, spaces and groups, from every
state, exactly when they have the same time or are of a type that does not read it. -/
theorem same_effect_iff {tx₁ tx₂ : Tx} (hcost₁ : 0 ≤ tx₁.cost) (hamount₁ : 0 ≤ tx₁.amount)
    (hcost₂ : 0 ≤ tx₂.cost) (hamount₂ : 0 ≤ tx₂.amount) (hsig : tx₁.sigHash P = tx₂.sigHash P)
    (hv : tx₁.v = tx₂.v) (hr : tx₁.r = tx₂.r) (hs : tx₁.s = tx₂.s)
    (hfree : NoCollision P.keccak tx₁.writeSigned tx₂.writeSigned)
    (hfree' : NoCollision P.keccak tx₁.encodeRLP tx₂.encodeRLP) :
    SameEffect P tx₁ tx₂ ↔ tx₁.txtime = tx₂.txtime ∨ ∀ k ∈ tx₁.ptype, ¬ k.Timed := by
  obtain ⟨t, rfl⟩ : ∃ t, tx₂ = { tx₁ with txtime := t } :=
    ⟨_, Tx.eq_of_sigHash hcost₁ hamount₁ hcost₂ hamount₂ hfree hsig hv hr hs⟩
  constructor
  · intro hsame
    by_contra hno
    push Not at hno
    obtain ⟨htime, kind, hp, htimed⟩ := hno
    by_cases hreport : kind = .stellReport
    · subst hreport
      refine not_sameEffect_of_report hp (fun hhash => htime ?_) hsame
      obtain ⟨it₁, hit₁⟩ := Tx.exists_item hcost₁ hamount₁
      obtain ⟨it₂, hit₂⟩ := Tx.exists_item hcost₂ hamount₂
      rw [Tx.hash, Tx.hash, hit₁, hit₂, rlpHash_eq_iff (Tx.writes_encodeRLP hit₁)
        (Tx.writes_encodeRLP hit₂) hfree'] at hhash
      subst hhash
      exact congrArg Tx.txtime (Option.some.inj ((Tx.ofItem_item hit₁).symm.trans
        (Tx.ofItem_item hit₂)))
    · exact not_sameEffect_of_application hp htimed hreport htime hsame
  · rintro (htime | hkind)
    · have hsame : ({ tx₁ with txtime := t } : Tx) = tx₁ := by
        rw [show t = tx₁.txtime from htime.symm]
      exact .of_eq fun env acc => by rw [hsame]
    · exact .of_eq fun env acc => (applyTransaction_txtime hkind t env acc).symm

/-- A transfer of cost, sent again at another time, does the same. -/
theorem transfer_same_effect :
    transfer.sigHash prims
        = ({ transfer with txtime := 6 } : Tx).sigHash prims ∧
      SameEffect prims transfer { transfer with txtime := 6 } := by
  have hsig : transfer.sigHash prims
      = ({ transfer with txtime := 6 } : Tx).sigHash prims := by decide +kernel
  refine ⟨hsig, (same_effect_iff (by decide) (by decide) (by decide) (by decide) hsig rfl rfl rfl
    (by decide +kernel) (by decide +kernel)).mpr (.inr ?_)⟩
  intro k hk
  cases hk
  exact id

/-- An application to the space group, always with the same signature. -/
def applicationAt (t : UInt64) : Tx := ⟨0, none, 0, t, [8], 27, 1, 1⟩

/-- Groups with one new member in the space group, of time three. -/
def oneMember : ValidateGroup :=
  { emptyGroups with space := ⟨[], [⟨address 9, 3⟩], [], [], [address 9]⟩ }

/-- The new members of the space group after a transaction. -/
def newMembersAfter (tx : Tx) : Option (Option (List GroupMember)) :=
  (applyTransaction prims ⟨.empty, some oneMember⟩ ⟨0, 0, 0, unitState⟩ tx).map fun r =>
    r.1.validateGroup.map fun vg => vg.space.newgroupmembers

/-- **The time is not signed.**  An application at time one comes too late for the group; with the
time changed to five, under the same signature, its sender is a member. -/
theorem time_is_not_signed :
    (applicationAt 1).sigHash prims = (applicationAt 5).sigHash prims ∧
      ((applicationAt 1).sender prims).isSome ∧
      newMembersAfter (applicationAt 1) = some (some [⟨address 9, 3⟩]) ∧
      newMembersAfter (applicationAt 5) = some (some [⟨address 9, 3⟩,
        ⟨(applicationAt 5).senderOrZero prims, 5⟩]) := by
  decide +kernel

end Space

end Gocoin
