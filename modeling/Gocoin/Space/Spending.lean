import Mathlib.Algebra.BigOperators.Finprod
import Mathlib.Data.FinEnum
import Mathlib.Data.Finite.Vector
import Gocoin.Space.Execution

/-!
# Space/Spending — who loses money in a transaction, and whether money is made

Read on balances a transaction is simple: it may empty one account (a new space), and otherwise adds
to every account that is there a number that can be read off the transaction (`Tx.change`).  Two
laws follow, each with its exact exceptions.  Nobody but the sender loses money, unless the
transaction creates a space for somebody with money, moves a negative amount, or has no sender, when
the zero address pays (`owner_spends_iff`).  And no money is made, except that a transfer credits
the amount while it charges only the cost (`no_money_made_iff`).
-/

namespace Gocoin

open State Trie
open Sample (address keccak prims)

/-- The types that charge their sender the cost. -/
def TxKind.charges : TxKind → Bool
  | .spaceCreation | .epochTx | .stellReport | .other => false
  | _ => true

namespace Tx

/-- The transaction creates a space for the address. -/
def Creates (tx : Tx) (addr : Address) : Prop :=
  tx.ptype = some .spaceCreation ∧ tx.recipient = some addr

instance (tx : Tx) (addr : Address) : Decidable (tx.Creates addr) :=
  inferInstanceAs (Decidable (_ ∧ _))

/-- What a transfer adds to an account. -/
def received (tx : Tx) (addr : Address) : ℤ :=
  if tx.ptype = some .recharge ∧ tx.recipient = some addr then tx.amount else 0

/-- What a transaction charges an account. -/
def charged (P : Prims) (tx : Tx) (addr : Address) : ℤ :=
  if tx.ptype.any TxKind.charges ∧ tx.senderOrZero P = addr then tx.cost else 0

/-- What a transaction adds to an account that is there. -/
def change (P : Prims) (tx : Tx) (addr : Address) : ℤ := tx.received addr - tx.charged P addr

end Tx

namespace Space

section

variable {P : Prims} {get : Nodes} {C : Contents}

theorem Ledger.credit_apply (L : Ledger) (addr : Address) (amount : ℤ) (a : Address) :
    L.credit addr amount a = (L a).map fun z => z + if addr = a then amount else 0 := by
  by_cases h : addr = a
  · rw [← h, Ledger.credit, Function.update_self, if_pos rfl]
  · rw [Ledger.credit, Function.update_of_ne (Ne.symm h), if_neg h]
    simp

theorem Ledger.debit_apply (L : Ledger) (addr : Address) (amount : ℤ) (a : Address) :
    L.debit addr amount a = (L a).map fun z => z - if addr = a then amount else 0 := by
  by_cases h : addr = a
  · rw [← h, Ledger.debit, Function.update_self, if_pos rfl]
  · rw [Ledger.debit, Function.update_of_ne (Ne.symm h), if_neg h]
    simp

variable {tx : Tx} {s : StateDB}

/-- **The ledger after a transaction, account by account.** -/
theorem ledgerAfter_apply (broken : Address → Bool) (L : Ledger) (htx : ¬ tx.Crashes)
    (a : Address) :
    ledgerAfter P broken L tx a
      = if tx.Creates a ∧ broken a = false then some 0
        else (L a).map fun z => z + tx.change P a := by
  obtain ⟨kind, hp⟩ : ∃ kind, tx.ptype = some kind :=
    Option.ne_none_iff_exists'.mp fun hnone => htx (.inl hnone)
  have hr : kind = .spaceCreation ∨ kind = .recharge ∨ kind = .attrSet →
      ∃ r, tx.recipient = some r := fun hk =>
    Option.ne_none_iff_exists'.mp fun hnone =>
      htx (.inr ⟨hnone, by rcases hk with rfl | rfl | rfl <;> simp [hp]⟩)
  cases kind with
  | spaceCreation =>
    obtain ⟨r, hr⟩ := hr (.inl rfl)
    simp only [ledgerAfter, Tx.Creates, Tx.change, Tx.received, Tx.charged, hp, hr]
    by_cases hra : r = a
    · subst hra
      cases hb : broken r <;> simp [TxKind.charges]
    · cases hb : broken r <;>
        simp [hra, TxKind.charges, Function.update_of_ne (Ne.symm hra)]
  | recharge =>
    obtain ⟨r, hr⟩ := hr (.inr (.inl rfl))
    simp [ledgerAfter, Tx.Creates, Tx.change, Tx.received, Tx.charged, hp, hr, TxKind.charges,
      Ledger.debit_apply, Ledger.credit_apply, Function.comp_def, add_sub_assoc]
  | attrSet =>
    obtain ⟨r, hr⟩ := hr (.inr (.inr rfl))
    simp [ledgerAfter, Tx.Creates, Tx.change, Tx.received, Tx.charged, hp, hr, TxKind.charges,
      Ledger.debit_apply, sub_eq_add_neg]
  | _ =>
    simp [ledgerAfter, Tx.Creates, Tx.change, Tx.received, Tx.charged, hp, TxKind.charges,
      Ledger.debit_apply, sub_eq_add_neg]

/-! ## Balances -/

/-- What `GetBalance` returns. -/
def balanceOf (P : Prims) (get : Nodes) (s : StateDB) (addr : Address) : Option ℤ :=
  (s.getBalance P.keccak get addr).map Prod.fst

/-- The lookup found an object. -/
def isFound {α : Type} : Lookup α → Bool
  | .found _ => true
  | _ => false

/-- The account is there. -/
def HasAccount (P : Prims) (get : Nodes) (s : StateDB) (addr : Address) : Prop :=
  (s.getAccountObject P.keccak get addr).any fun r => isFound r.1

theorem Healthy.balanceOf_eq (h : Healthy P get C s) (addr : Address) :
    balanceOf P get s addr = some ((s.ledger P.keccak C addr).getD 0) := by
  obtain ⟨s', hget, -⟩ := Good.exists_getAccountObject h addr
  unfold balanceOf StateDB.getBalance StateDB.ledger
  rw [hget]
  cases s.accountAt P.keccak C addr <;> rfl

theorem Healthy.hasAccount_iff (h : Healthy P get C s) (addr : Address) :
    HasAccount P get s addr ↔ ∃ z, s.ledger P.keccak C addr = some z := by
  obtain ⟨s', hget, -⟩ := Good.exists_getAccountObject h addr
  unfold HasAccount StateDB.ledger
  rw [hget]
  cases s.accountAt P.keccak C addr <;> simp [isFound]

/-- A transaction that is applied: the state it leaves is good, and its ledger is known. -/
theorem Healthy.of_applyTransaction {env env' : Surroundings} {acc acc' : Totals}
    (h : Healthy P env.db.nodes C acc.state) (hu : Unbroken P C acc.state)
    (happly : applyTransaction P env acc tx = some (env', acc')) :
    ¬ tx.Crashes ∧ env'.db.nodes = env.db.nodes ∧ Healthy P env.db.nodes C acc'.state ∧
      Unbroken P C acc'.state ∧
      acc'.state.ledger P.keccak C
        = ledgerAfter P (broken P C) (acc.state.ledger P.keccak C) tx := by
  rw [applyTransaction_eq] at happly
  have htx : ¬ tx.Crashes := fun hc => by
    rw [validateTransaction_of_crashes hc] at happly
    cases happly
  obtain ⟨acc₁, hacc₁, hdid⟩ := h.exists_validateTransaction rfl htx
  rw [hacc₁] at happly
  cases happly
  exact ⟨htx, nodes_sideEffect P env tx, h.goes hdid.goes, hu.goes h hdid.goes, hdid.ledger hu⟩

/-- Broken accounts are not in the ledger. -/
theorem Unbroken.ledger_eq_none (hu : Unbroken P C s) {addr : Address}
    (hb : broken P C addr = true) :
    s.ledger P.keccak C addr = none := by
  rw [StateDB.ledger, StateDB.accountAt, hu addr hb, storedAccount_of_broken hb]

/-- The ledger entry of an account after a transaction: emptied, or moved by the change. -/
theorem Unbroken.ledgerAfter_getD (hu : Unbroken P C s) (htx : ¬ tx.Crashes) (a : Address) :
    (ledgerAfter P (broken P C) (s.ledger P.keccak C) tx a).getD 0
      = if tx.Creates a then 0
        else ((s.ledger P.keccak C a).map fun z => z + tx.change P a).getD 0 := by
  rw [ledgerAfter_apply _ _ htx]
  by_cases hc : tx.Creates a
  · cases hb : broken P C a
    · simp [hc]
    · simp [hc, hu.ledger_eq_none hb]
  · simp [hc]

/-! ## Only the owner spends -/

variable (P) in
/-- No account but the sender's has less after the transaction than before. -/
def OnlyOwnerSpends (env : Surroundings) (acc : Totals) (tx : Tx) : Prop :=
  ∀ env' acc', applyTransaction P env acc tx = some (env', acc') →
    ∀ addr, tx.sender P ≠ some addr →
      ∃ z z', balanceOf P env.db.nodes acc.state addr = some z ∧
        balanceOf P env'.db.nodes acc'.state addr = some z' ∧ z ≤ z'

variable (P) in
/-- The transaction spares the others: it creates a space for nobody else who has money, and moves
no negative amount to anybody else who has an account. -/
def SparesOthers (env : Surroundings) (acc : Totals) (tx : Tx) : Prop :=
  ∀ addr, tx.sender P ≠ some addr → HasAccount P env.db.nodes acc.state addr →
    if tx.Creates addr then ∀ z ∈ balanceOf P env.db.nodes acc.state addr, z ≤ 0
    else 0 ≤ tx.change P addr

/-- **Only the owner spends exactly when the transaction spares the others** — or crashes. -/
theorem owner_spends_iff {env : Surroundings} {acc : Totals}
    (h : Healthy P env.db.nodes C acc.state) (hu : Unbroken P C acc.state) (tx : Tx) :
    OnlyOwnerSpends P env acc tx ↔ tx.Crashes ∨ SparesOthers P env acc tx := by
  have hbal := h.balanceOf_eq
  constructor
  · intro hown
    by_cases htx : tx.Crashes
    · exact .inl htx
    refine .inr fun addr hne hacc => ?_
    obtain ⟨z₀, hz₀⟩ := (h.hasAccount_iff addr).mp hacc
    obtain ⟨acc', hacc', hdid⟩ := h.exists_validateTransaction rfl htx
    have happly : applyTransaction P env acc tx = some (sideEffect P env tx, acc') := by
      rw [applyTransaction_eq, hacc']
      rfl
    obtain ⟨z, z', hz, hz', hle⟩ := hown _ _ happly addr hne
    rw [nodes_sideEffect, (h.goes hdid.goes).balanceOf_eq, hdid.ledger hu,
      hu.ledgerAfter_getD htx, Option.some.injEq] at hz'
    rw [hbal, Option.some.injEq] at hz
    rw [hz₀] at hz hz'
    rw [hbal, hz₀]
    split
    · next hc =>
      rw [if_pos hc] at hz'
      rintro _ ⟨rfl⟩
      exact hz.le.trans (hle.trans hz'.ge)
    · next hc =>
      rw [if_neg hc] at hz'
      simp only [Option.map_some, Option.getD_some] at hz hz'
      linarith
  · rintro hspare env' acc' happly addr hne
    obtain ⟨htx, hnodes, h', -, hl⟩ := h.of_applyTransaction hu happly
    have hspare := hspare.resolve_left htx addr hne
    have hbal' := h'.balanceOf_eq addr
    rw [← hnodes, hl, hu.ledgerAfter_getD htx] at hbal'
    refine ⟨_, _, hbal addr, hbal', ?_⟩
    cases hL : acc.state.ledger P.keccak C addr with
    | none => split <;> simp
    | some z₀ =>
      have hspare := hspare ((h.hasAccount_iff addr).mpr ⟨z₀, hL⟩)
      split
      · next hc =>
        rw [if_pos hc] at hspare
        exact hspare z₀ (by rw [hbal, hL]; rfl)
      · next hc =>
        rw [if_neg hc] at hspare
        simpa using hspare

end

/-! ### A state with two accounts -/

/-- Two accounts, one with ten units and one with five. -/
def twoAccounts : List Op :=
  [.createSpaceAndBindAddr 1 1 (address 1), .setBalance (address 1) 10,
    .createSpaceAndBindAddr 2 2 (address 2), .setBalance (address 2) 5]

/-- A transaction of a type and an amount for an address, at a cost, signed by somebody else. -/
def signedTx (type : UInt8) (recipient : UInt8) (cost amount : ℤ) : Tx :=
  ⟨cost, some (address recipient), amount, 0, [type], 27, 1, 1⟩

/-- The law applies to the creation of a space on the state with two accounts. -/
theorem owner_spends_iff_twoAccounts :
    ∃ s ∈ sampleRun twoAccounts,
      OnlyOwnerSpends prims ⟨Db.empty, none⟩ ⟨3, 3, 0, s⟩ (signedTx 1 1 0 0) ↔
        (signedTx 1 1 0 0).Crashes ∨
          SparesOthers prims ⟨Db.empty, none⟩ ⟨3, 3, 0, s⟩ (signedTx 1 1 0 0) := by
  obtain ⟨s, hs, h⟩ := exists_sampleRun twoAccounts
  exact ⟨s, hs, owner_spends_iff (show Healthy prims (⟨Db.empty, none⟩ : Surroundings).db.nodes
    Contents.nothing (⟨3, 3, 0, s⟩ : Totals).state from h) (unbroken_nothing _ _) _⟩

/-- Creating a space for somebody else takes all they have. -/
theorem creation_takes_balance :
    ∃ s ∈ sampleRun twoAccounts,
      ∃ r ∈ applyTransaction prims ⟨Db.empty, none⟩ ⟨3, 3, 0, s⟩ (signedTx 1 1 0 0),
        ((signedTx 1 1 0 0).sender prims).isSome ∧
        (signedTx 1 1 0 0).sender prims ≠ some (address 1) ∧
        balanceOf prims Db.empty.nodes s (address 1) = some 10 ∧
        balanceOf prims r.1.db.nodes r.2.state (address 1) = some 0 := by
  decide +kernel

section

variable {P : Prims} {get : Nodes} {C : Contents}

/-! ## No money is made -/

instance (n : ℕ) : Finite (FixedBytes n) :=
  .of_injective (β := List.Vector UInt8 n) (fun b => ⟨b.bytes, b.length_eq⟩)
    fun _ _ h => FixedBytes.ext_bytes (congrArg Subtype.val h)

/-- The sum of all balances. -/
noncomputable def total (P : Prims) (get : Nodes) (s : StateDB) : ℤ :=
  ∑ᶠ addr, (balanceOf P get s addr).getD 0

/-- A sum in which one summand changes. -/
theorem finsum_add_single (f : Address → ℤ) {d : Address → ℤ} (R : Option Address)
    (hd : ∀ a, R ≠ some a → d a = 0) : ∑ᶠ a, (f a + d a) = ∑ᶠ a, f a + R.elim 0 d := by
  rw [finsum_add_distrib (Set.toFinite _) (Set.toFinite _)]
  cases R with
  | none => simp [hd]
  | some r =>
    rw [finsum_eq_single d r fun a ha => hd a fun h => ha (Option.some.inj h).symm,
      Option.elim_some]

/-- What an account that is there counts. -/
def entry (L : Ledger) (addr : Address) (z : ℤ) : ℤ := if (L addr).isSome then z else 0

theorem getD_map_add (L : Ledger) (addr : Address) (z : ℤ) :
    ((L addr).map fun y => y + z).getD 0 = (L addr).getD 0 + entry L addr z := by
  unfold entry
  cases L addr <;> simp

variable {s : StateDB} {tx : Tx}

theorem Healthy.total_eq (h : Healthy P get C s) :
    total P get s = ∑ᶠ addr, (s.ledger P.keccak C addr).getD 0 :=
  finsum_congr fun addr => by rw [h.balanceOf_eq, Option.getD_some]

/-- The sum after a transaction that creates a space: the recipient's balance is gone. -/
theorem Unbroken.finsum_of_creates (hu : Unbroken P C s) {r : Address} (htx : ¬ tx.Crashes)
    (hc : tx.Creates r) :
    ∑ᶠ a, (ledgerAfter P (broken P C) (s.ledger P.keccak C) tx a).getD 0
      = ∑ᶠ a, (s.ledger P.keccak C a).getD 0 - (s.ledger P.keccak C r).getD 0 := by
  have hchange : ∀ a, tx.change P a = 0 := fun a => by
    simp [Tx.change, Tx.received, Tx.charged, hc.1, TxKind.charges]
  have hcreates : ∀ a, tx.Creates a ↔ r = a := fun a => by
    rw [Tx.Creates, hc.1, hc.2, and_iff_right rfl, Option.some.injEq]
  have hstep : ∀ a, (ledgerAfter P (broken P C) (s.ledger P.keccak C) tx a).getD 0
      = (s.ledger P.keccak C a).getD 0 + if r = a then -(s.ledger P.keccak C a).getD 0 else 0 :=
    fun a => by
      rw [hu.ledgerAfter_getD htx, hchange, getD_map_add]
      by_cases hra : r = a <;> simp [hcreates, hra, entry]
  rw [finsum_congr hstep, finsum_add_single _ (some r) fun a ha => if_neg fun he => ha (by rw [he]),
    Option.elim_some, if_pos rfl, sub_eq_add_neg]

/-- The sum after any other transaction: what it credits is added and what it charges is taken. -/
theorem Unbroken.finsum_of_not_creates (hu : Unbroken P C s) (htx : ¬ tx.Crashes)
    (hc : ∀ r, ¬ tx.Creates r) :
    ∑ᶠ a, (ledgerAfter P (broken P C) (s.ledger P.keccak C) tx a).getD 0
      = ∑ᶠ a, (s.ledger P.keccak C a).getD 0
        + tx.recipient.elim 0 (fun r => entry (s.ledger P.keccak C) r (tx.received r))
        - entry (s.ledger P.keccak C) (tx.senderOrZero P)
            (tx.charged P (tx.senderOrZero P)) := by
  have hzero : ∀ {L : Ledger} {a : Address}, entry L a 0 = 0 := by simp [entry]
  have hneg : ∀ {L : Ledger} {a : Address} (z : ℤ), entry L a (-z) = -entry L a z := fun z => by
    unfold entry
    split <;> simp
  have hstep : ∀ a, (ledgerAfter P (broken P C) (s.ledger P.keccak C) tx a).getD 0
      = (s.ledger P.keccak C a).getD 0 + entry (s.ledger P.keccak C) a (tx.received a)
        + entry (s.ledger P.keccak C) a (-tx.charged P a) := fun a => by
    rw [hu.ledgerAfter_getD htx, if_neg (hc a), getD_map_add, Tx.change]
    unfold entry
    split <;> ring
  rw [finsum_congr hstep, finsum_add_single _ (some (tx.senderOrZero P)),
    finsum_add_single _ tx.recipient, Option.elim_some, hneg, sub_eq_add_neg]
  · intro a ha
    rw [Tx.received, if_neg fun h => ha h.2, hzero]
  · intro a ha
    rw [Tx.charged, if_neg fun h => ha (by rw [h.2]), neg_zero, hzero]

/-- The transaction is signed, moves and costs nothing negative, and its sender has enough. -/
structure Funded (P : Prims) (get : Nodes) (s : StateDB) (tx : Tx) : Prop where
  cost : 0 ≤ tx.cost
  amount : 0 ≤ tx.amount
  funds : ∃ addr z, tx.sender P = some addr ∧ balanceOf P get s addr = some z ∧
    tx.cost + tx.amount ≤ z

/-- The transaction makes no money: it empties no account with a debt, and a transfer to somebody
who has an account costs at least its amount. -/
def Covered (P : Prims) (get : Nodes) (s : StateDB) (tx : Tx) : Prop :=
  ∀ r, tx.recipient = some r →
    (tx.ptype = some .spaceCreation → ∀ z ∈ balanceOf P get s r, 0 ≤ z) ∧
      (tx.ptype = some .recharge → HasAccount P get s r → tx.amount ≤ tx.cost)

variable {env env' : Surroundings} {acc acc' : Totals}

/-- **One funded transaction** makes no money exactly when it is covered. -/
theorem total_le_iff (h : Healthy P env.db.nodes C acc.state) (hu : Unbroken P C acc.state)
    (hf : Funded P env.db.nodes acc.state tx)
    (happly : applyTransaction P env acc tx = some (env', acc')) :
    total P env'.db.nodes acc'.state ≤ total P env.db.nodes acc.state ↔
      Covered P env.db.nodes acc.state tx := by
  obtain ⟨htx, hnodes, h', -, hl⟩ := h.of_applyTransaction hu happly
  rw [hnodes, h'.total_eq, h.total_eq, hl]
  by_cases hc : ∃ r, tx.Creates r
  · obtain ⟨r, hc⟩ := hc
    rw [hu.finsum_of_creates htx hc]
    simp only [Covered, h.balanceOf_eq, hc.1, hc.2, Option.some.injEq, reduceCtorEq,
      Option.mem_def, true_imp_iff, false_imp_iff, and_true, forall_eq']
    simp
  · rw [not_exists] at hc
    rw [hu.finsum_of_not_creates htx hc]
    obtain ⟨addr, z, hsender, hz, hfunds⟩ := hf.funds
    rw [h.balanceOf_eq, Option.some.injEq] at hz
    have hfrom : tx.senderOrZero P = addr := by rw [Tx.senderOrZero, hsender, Option.getD_some]
    rw [hfrom]
    by_cases hp : tx.ptype = some .recharge
    · obtain ⟨r, hr⟩ : ∃ r, tx.recipient = some r := Option.ne_none_iff_exists'.mp fun hnone =>
        htx (.inr ⟨hnone, .inr (.inl hp)⟩)
      have hloss : entry (acc.state.ledger P.keccak C) addr (tx.charged P addr) = tx.cost := by
        rw [Tx.charged, if_pos ⟨by rw [hp]; rfl, hfrom⟩, entry]
        split
        · rfl
        · next hnone =>
          rw [Option.not_isSome_iff_eq_none.mp hnone, Option.getD_none] at hz
          linarith [hf.cost, hf.amount]
      rw [hloss, hr, Option.elim_some, Tx.received, if_pos ⟨hp, hr⟩]
      have hcov : Covered P env.db.nodes acc.state tx ↔
          ((acc.state.ledger P.keccak C r).isSome → tx.amount ≤ tx.cost) := by
        simp [Covered, h.hasAccount_iff, hp, hr, Option.isSome_iff_exists]
      rw [hcov, entry]
      split
      · next hacc => simp [hacc]
      · next hacc => simp [hacc, hf.cost]
    · have hgain : tx.recipient.elim 0
          (fun r => entry (acc.state.ledger P.keccak C) r (tx.received r)) = 0 := by
        cases tx.recipient <;> simp [Tx.received, hp, entry]
      have hloss : 0 ≤ entry (acc.state.ledger P.keccak C) addr (tx.charged P addr) := by
        unfold entry Tx.charged
        split
        · split
          · exact hf.cost
          · exact le_rfl
        · exact le_rfl
      rw [hgain]
      exact iff_of_true (by linarith) fun r hr =>
        ⟨fun hp' => absurd ⟨hp', hr⟩ (hc r), fun hp' => absurd hp' hp⟩

variable (P) in
/-- A transaction of the list takes its turn in a state. -/
def Turn (env : Surroundings) (acc : Totals) (txs : List Tx) (env' : Surroundings) (acc' : Totals)
    (tx : Tx) : Prop :=
  ∃ done rest, txs = done ++ tx :: rest ∧ applyAll P env acc done = some (env', acc')

/-- A list is executed on good states. -/
theorem Healthy.of_applyAll {txs : List Tx} (h : Healthy P env.db.nodes C acc.state)
    (hu : Unbroken P C acc.state) (happly : applyAll P env acc txs = some (env', acc')) :
    Healthy P env'.db.nodes C acc'.state ∧ Unbroken P C acc'.state := by
  induction txs generalizing env acc with
  | nil =>
    cases happly
    exact ⟨h, hu⟩
  | cons tx txs ih =>
    rw [applyAll, List.foldlM_cons, bind_eq_some] at happly
    obtain ⟨⟨env₁, acc₁⟩, h₁, happly⟩ := happly
    obtain ⟨-, hnodes, hh, hu₁, -⟩ := h.of_applyTransaction hu h₁
    exact ih (by rwa [hnodes]) hu₁ happly

/-- **No money is made**: when every transaction of a list is funded at its turn, none of them
increases the sum of all balances exactly when each is covered at its turn. -/
theorem no_money_made_iff {env : Surroundings} {acc : Totals} {txs : List Tx}
    (h : Healthy P env.db.nodes C acc.state) (hu : Unbroken P C acc.state)
    (hf : ∀ env' acc' tx, Turn P env acc txs env' acc' tx → Funded P env'.db.nodes acc'.state tx) :
    (∀ env' acc' tx, Turn P env acc txs env' acc' tx →
      ∀ env'' acc'', applyTransaction P env' acc' tx = some (env'', acc'') →
        total P env''.db.nodes acc''.state ≤ total P env'.db.nodes acc'.state) ↔
      ∀ env' acc' tx, Turn P env acc txs env' acc' tx →
        tx.Crashes ∨ Covered P env'.db.nodes acc'.state tx := by
  refine forall₄_congr fun env' acc' tx hturn => ?_
  obtain ⟨done, rest, -, hdone⟩ := id hturn
  obtain ⟨h', hu'⟩ := h.of_applyAll hu hdone
  constructor
  · intro hle
    by_cases htx : tx.Crashes
    · exact .inl htx
    obtain ⟨acc'', hacc'', -⟩ := h'.exists_validateTransaction rfl htx
    have happly : applyTransaction P env' acc' tx = some (sideEffect P env' tx, acc'') := by
      rw [applyTransaction_eq, hacc'']
      rfl
    exact .inr ((total_le_iff h' hu' (hf _ _ _ hturn) happly).mp (hle _ _ happly))
  · intro hcov env'' acc'' happly
    have htx := (h'.of_applyTransaction hu' happly).1
    exact (total_le_iff h' hu' (hf _ _ _ hturn) happly).mpr (hcov.resolve_left htx)

end

/-! ### Transfers on the state with two accounts -/

/-- An account for the sender of the signed transactions, with money. -/
def withSender : List Op :=
  twoAccounts ++ [.createSpaceAndBindAddr 3 3 ((signedTx 2 1 0 0).senderOrZero prims),
    .setBalance ((signedTx 2 1 0 0).senderOrZero prims) 100]

/-- The law applies to a list with one funded transfer. -/
theorem no_money_made_iff_withSender :
    ∃ s ∈ sampleRun withSender,
      let env : Surroundings := ⟨Db.empty, none⟩
      let acc : Totals := ⟨4, 4, 0, s⟩
      Turn prims env acc [signedTx 2 1 7 5] env acc (signedTx 2 1 7 5) ∧
      Funded prims Db.empty.nodes s (signedTx 2 1 7 5) ∧
      ((∀ env' acc' tx, Turn prims env acc [signedTx 2 1 7 5] env' acc' tx →
        ∀ env'' acc'', applyTransaction prims env' acc' tx = some (env'', acc'') →
          total prims env''.db.nodes acc''.state
            ≤ total prims env'.db.nodes acc'.state) ↔
        ∀ env' acc' tx, Turn prims env acc [signedTx 2 1 7 5] env' acc' tx →
          tx.Crashes ∨ Covered prims env'.db.nodes acc'.state tx) := by
  obtain ⟨s, hs, h⟩ := exists_sampleRun withSender
  have hbal : ∀ s ∈ sampleRun withSender,
      ∃ addr ∈ (signedTx 2 1 7 5).sender prims,
        balanceOf prims Db.empty.nodes s addr = some 100 := by
    decide +kernel
  obtain ⟨addr, haddr, hbal⟩ := hbal s hs
  have hf : Funded prims Db.empty.nodes s (signedTx 2 1 7 5) :=
    ⟨by decide, by decide, addr, 100, haddr, hbal, by decide⟩
  refine ⟨s, hs, ⟨[], [], rfl, rfl⟩, hf,
    no_money_made_iff (C := .nothing) h (unbroken_nothing _ _) ?_⟩
  rintro env' acc' tx ⟨done, rest, hsplit, hdone⟩
  obtain ⟨rfl, hsplit⟩ : done = [] ∧ [signedTx 2 1 7 5] = tx :: rest := by
    cases done with
    | nil => exact ⟨rfl, hsplit⟩
    | cons tx' done => simp at hsplit
  cases hsplit
  cases hdone
  exact hf

/-- A transfer of fifty units at a cost of one makes money. -/
theorem transfer_makes_money :
    ∃ s ∈ sampleRun withSender, Funded prims Db.empty.nodes s (signedTx 2 1 1 50) ∧
      ∃ r ∈ applyTransaction prims ⟨Db.empty, none⟩ ⟨4, 4, 0, s⟩ (signedTx 2 1 1 50),
        total prims Db.empty.nodes s < total prims r.1.db.nodes r.2.state := by
  obtain ⟨s, hs, h⟩ := exists_sampleRun withSender
  have heval : ∀ s ∈ sampleRun withSender,
      (∃ addr ∈ (signedTx 2 1 1 50).sender prims,
        balanceOf prims Db.empty.nodes s addr = some 100) ∧
      (s.getAccountObject keccak Db.empty.nodes (address 1)).any
        (fun r => isFound r.1) ∧
      (applyTransaction prims ⟨Db.empty, none⟩ ⟨4, 4, 0, s⟩ (signedTx 2 1 1 50)).isSome := by
    decide +kernel
  obtain ⟨⟨addr, haddr, hbal⟩, hacc, hsome⟩ := heval s hs
  obtain ⟨r, hr⟩ := Option.isSome_iff_exists.mp hsome
  have hf : Funded prims Db.empty.nodes s (signedTx 2 1 1 50) :=
    ⟨by decide, by decide, addr, 100, haddr, hbal, by decide⟩
  refine ⟨s, hs, hf, r, hr, not_le.mp fun hle => ?_⟩
  have hcov := (total_le_iff (show Healthy prims (⟨Db.empty, none⟩ : Surroundings).db.nodes
    Contents.nothing (⟨4, 4, 0, s⟩ : Totals).state from h) (unbroken_nothing _ _) hf hr).mp hle
  exact absurd ((hcov _ rfl).2 (by decide) hacc) (by decide)

end Space

end Gocoin
