import Gocoin.Space.Genesis
import Gocoin.Space.Spending
import Gocoin.Space.TxPool

/-!
# Space/Overdraft — when the pooled transactions of a head overdraw an account

The pool looks at each transaction alone, and `buildBlock` executes all of them in the order of a
map.  For one account the worst order is plain: first the transactions that create a space for it,
which set its balance to zero, then those that take something from it.  So no order ever shows a
negative balance exactly when, for every account, all the transactions together take no more than
the balance it has on the head — than zero, when one of them creates a space for it
(`never_overdrawn_iff`).
-/

namespace Gocoin.Space

open State Trie
open Sample (prims keccak)

section

variable {P : Prims} {get : Nodes} {C : Contents}

/-! ## One account along a list -/

/-- What a transaction takes from an account. -/
def spends (P : Prims) (tx : Tx) (addr : Address) : ℤ :=
  if tx.sender P = some addr ∧ tx.ptype.any TxKind.charges ∧ ¬ tx.Crashes then
    max 0 (tx.cost - tx.received addr)
  else 0

/-- What the transactions of a list take from an account. -/
def spent (P : Prims) (txs : List Tx) (addr : Address) : ℤ :=
  (txs.map fun tx => spends P tx addr).sum

theorem spends_nonneg (tx : Tx) (addr : Address) : 0 ≤ spends P tx addr := by
  unfold spends
  split
  · exact le_max_left _ _
  · exact le_rfl

theorem spent_nonneg (txs : List Tx) (addr : Address) : 0 ≤ spent P txs addr :=
  List.sum_nonneg (by simp [spends_nonneg])

variable {txs : List Tx} {tx : Tx} {addr : Address} {db : Db} {head : Block}

theorem spent_perm {txs' : List Tx} (h : txs.Perm txs') (addr : Address) :
    spent P txs addr = spent P txs' addr := (h.map _).sum_eq

theorem spent_append (txs txs' : List Tx) (addr : Address) :
    spent P (txs ++ txs') addr = spent P txs addr + spent P txs' addr := by
  simp [spent]

@[simp] theorem spent_nil (addr : Address) : spent P [] addr = 0 := rfl

theorem spent_cons (tx : Tx) (txs : List Tx) (addr : Address) :
    spent P (tx :: txs) addr = spends P tx addr + spent P txs addr := by
  simp [spent]

/-- A transaction of the pool: nothing negative is moved, and the sender is known. -/
structure Plain (P : Prims) (tx : Tx) : Prop where
  amount : 0 ≤ tx.amount
  sender : ∃ sender, tx.sender P = some sender

theorem received_nonneg (h : Plain P tx) (addr : Address) : 0 ≤ tx.received addr := by
  unfold Tx.received
  split
  · exact h.amount
  · exact le_rfl

/-- What a transaction takes is what its change takes. -/
theorem spends_eq (h : Plain P tx) (htx : ¬ tx.Crashes) (addr : Address) :
    spends P tx addr = max 0 (-tx.change P addr) := by
  obtain ⟨sender, hsender⟩ := h.sender
  have hfrom : tx.senderOrZero P = sender := by rw [Tx.senderOrZero, hsender, Option.getD_some]
  unfold spends Tx.change Tx.charged
  rw [hfrom]
  by_cases hs : sender = addr ∧ tx.ptype.any TxKind.charges = true
  · rw [if_pos ⟨by rw [hsender, hs.1], hs.2, htx⟩, if_pos ⟨hs.2, hs.1⟩, neg_sub]
  · rw [if_neg fun hall => hs ⟨Option.some.inj (hsender.symm.trans hall.1), hall.2.1⟩,
      if_neg fun hall => hs ⟨hall.2, hall.1⟩, sub_zero,
      max_eq_left (neg_nonpos.mpr (received_nonneg h addr))]

theorem not_crashes_of_creates (hc : tx.Creates addr) : ¬ tx.Crashes := by
  rintro (hnone | ⟨hnone, -⟩)
  · rw [hc.1] at hnone
    cases hnone
  · rw [hc.2] at hnone
    cases hnone

/-- Creating a space takes nothing else. -/
theorem spends_of_creates {a : Address} (h : tx.Creates addr) : spends P tx a = 0 := by
  unfold spends
  rw [h.1, if_neg]
  simp [TxKind.charges]

/-- The ledger after a list of transactions. -/
abbrev ledgerAll (P : Prims) (broken : Address → Bool) (L : Ledger) (txs : List Tx) : Ledger :=
  txs.foldl (ledgerAfter P broken) L

variable {L : Ledger} {s : StateDB}

/-- **A list takes no more than it spends**: from an account that has at least `base`, and from zero
when the list creates a space for it. -/
theorem le_ledgerAll {broken : Address → Bool} (hplain : ∀ tx ∈ txs, Plain P tx)
    (htxs : ∀ tx ∈ txs, ¬ tx.Crashes) {base : ℤ} (hbase : ∀ z, L addr = some z → base ≤ z)
    (hzero : (∃ tx ∈ txs, tx.Creates addr) → base ≤ 0) {z : ℤ}
    (hz : ledgerAll P broken L txs addr = some z) : base - spent P txs addr ≤ z := by
  induction txs generalizing L base with
  | nil => simpa using hbase z hz
  | cons tx txs ih =>
    obtain ⟨hp, hplain⟩ := List.forall_mem_cons.mp hplain
    obtain ⟨hc, htxs⟩ := List.forall_mem_cons.mp htxs
    have hnn : 0 ≤ spends P tx addr := spends_nonneg tx addr
    have hbase' : ∀ y, ledgerAfter P broken L tx addr = some y → base - spends P tx addr ≤ y := by
      intro y hy
      rw [ledgerAfter_apply _ _ hc] at hy
      split at hy
      · next hcreate =>
        have := hzero ⟨tx, List.mem_cons_self, hcreate.1⟩
        cases hy
        linarith
      · obtain ⟨x, hx, rfl⟩ := Option.map_eq_some_iff.mp hy
        have hchange : -tx.change P addr ≤ spends P tx addr := by
          rw [spends_eq hp hc]
          exact le_max_right _ _
        linarith [hbase x hx]
    have hzero' : (∃ tx ∈ txs, tx.Creates addr) → base - spends P tx addr ≤ 0 := by
      rintro ⟨tx', h', hcreate⟩
      linarith [hzero ⟨tx', List.mem_cons_of_mem _ h', hcreate⟩]
    have hrest := ih hplain htxs hbase' hzero' hz
    rw [spent_cons]
    linarith

/-- Transactions that create a space for an account leave it empty. -/
theorem ledgerAll_of_creates {broken : Address → Bool} (hb : broken addr = false)
    (htxs : ∀ tx ∈ txs, tx.Creates addr) (L : Ledger) :
    ledgerAll P broken L txs addr = if txs = [] then L addr else some 0 := by
  induction txs generalizing L with
  | nil => rfl
  | cons tx txs ih =>
    obtain ⟨hc, htxs⟩ := List.forall_mem_cons.mp htxs
    have hone : ledgerAfter P broken L tx addr = some 0 := by
      rw [ledgerAfter_apply _ _ (not_crashes_of_creates hc), if_pos ⟨hc, hb⟩]
    rw [ledgerAll, List.foldl_cons, ← ledgerAll, ih htxs, hone, if_neg (List.cons_ne_nil tx txs),
      ite_self]

/-- Transactions that take from an account take what they spend. -/
theorem ledgerAll_of_spends {broken : Address → Bool} (hplain : ∀ tx ∈ txs, Plain P tx)
    (htxs : ∀ tx ∈ txs, ¬ tx.Crashes) (hpos : ∀ tx ∈ txs, 0 < spends P tx addr) (L : Ledger) :
    ledgerAll P broken L txs addr = (L addr).map fun z => z - spent P txs addr := by
  induction txs generalizing L with
  | nil => simp [ledgerAll]
  | cons tx txs ih =>
    obtain ⟨hp, hplain⟩ := List.forall_mem_cons.mp hplain
    obtain ⟨hc, htxs⟩ := List.forall_mem_cons.mp htxs
    obtain ⟨hs, hpos⟩ := List.forall_mem_cons.mp hpos
    have hcreate : ¬ tx.Creates addr := fun h => hs.ne' (spends_of_creates h)
    have hchange : tx.change P addr = -spends P tx addr := by
      rw [spends_eq hp hc] at hs ⊢
      rcases max_cases 0 (-tx.change P addr) with ⟨hmax, -⟩ | ⟨hmax, -⟩
      · exact absurd hmax hs.ne'
      · rw [hmax, neg_neg]
    rw [ledgerAll, List.foldl_cons, ← ledgerAll, ih hplain htxs hpos, ledgerAfter_apply _ _ hc,
      if_neg fun h => hcreate h.1, Option.map_map, hchange, spent_cons]
    congr 1
    funext z
    simp only [Function.comp_apply]
    ring

/-- An account that is not there stays away when nothing creates it. -/
theorem ledgerAll_eq_none {broken : Address → Bool} (hL : L addr = none)
    (htxs : ∀ tx ∈ txs, ¬ tx.Crashes) (hcreate : ∀ tx ∈ txs, tx.Creates addr → broken addr = true) :
    ledgerAll P broken L txs addr = none := by
  induction txs generalizing L with
  | nil => exact hL
  | cons tx txs ih =>
    obtain ⟨hc, htxs⟩ := List.forall_mem_cons.mp htxs
    obtain ⟨hcr, hcreate⟩ := List.forall_mem_cons.mp hcreate
    refine ih ?_ htxs hcreate
    rw [ledgerAfter_apply _ _ hc, if_neg fun h => ?_, hL]
    · rfl
    · rw [hcr h.1] at h
      exact Bool.noConfusion h.2

/-! ## The pool of a head -/

/-- The stored form of an account cannot be read. -/
def Unreadable (P : Prims) (get : Nodes) (s : StateDB) (addr : Address) : Prop :=
  (s.getAccountObject P.keccak get addr).any fun r =>
    match r.1 with
    | .failed => true
    | _ => false

/-- Executed in any order, the transactions never show a negative balance, and no account that the
state holds has a balance without an encoding. -/
def NeverOverdrawn (P : Prims) (db : Db) (head : Block) (txs : List Tx) : Prop :=
  ∀ s, stateAt db head = .ok s → ∀ done rest, (done ++ rest).Perm txs →
      ∀ acc, buildAll P db (BlockChain.start head s) done = some acc →
        (∀ addr, ∀ z ∈ balanceOf P db.nodes acc.state addr, 0 ≤ z) ∧
          ∀ addr, ∀ obj ∈ acc.state.accountObjects addr, (Rlp.Item.ofInt? obj.data.balance).isSome

/-- The account is there, or some transaction creates it. -/
def Concerned (P : Prims) (get : Nodes) (s : StateDB) (txs : List Tx) (addr : Address) : Prop :=
  HasAccount P get s addr ∨ (∃ tx ∈ txs, tx.Creates addr) ∧ ¬ Unreadable P get s addr

/-- What may be taken from an account: what it has, and nothing when a space is created for it. -/
def allowance (P : Prims) (get : Nodes) (s : StateDB) (txs : List Tx) (addr : Address) : ℤ :=
  if ∃ tx ∈ txs, tx.Creates addr then 0 else (balanceOf P get s addr).getD 0

/-- The transactions together take from no account more than they may. -/
def Solvent (P : Prims) (db : Db) (head : Block) (txs : List Tx) : Prop :=
  ∀ s, stateAt db head = .ok s → ∀ addr, Concerned P db.nodes s txs addr →
      spent P txs addr ≤ allowance P db.nodes s txs addr

/-- A stored balance is not negative. -/
theorem balance_nonneg_of_readAccount {enc : Bytes} {obj : AccountObject}
    (h : readAccount addr enc = .found obj) : 0 ≤ obj.data.balance := by
  unfold readAccount at h
  split at h
  · cases h
  split at h
  · cases h
  next acc hdec =>
  cases h
  show 0 ≤ acc.balance
  obtain ⟨it, -, hit⟩ := Option.bind_eq_some_iff.mp hdec
  unfold Account.ofItem at hit
  split at hit
  · simp only [bind_eq_some, Option.some.injEq] at hit
    obtain ⟨_, -, n, -, _, -, _, -, _, -, _, -, rfl⟩ := hit
    exact Int.natCast_nonneg n
  · cases hit

/-- The state of a head: good, nothing is cached, and no balance is negative. -/
theorem healthy_of_new (hspace : StoredAt P.keccak db.nodes head.header.spaceRoot C.space)
    (haccount : StoredAt P.keccak db.nodes head.header.accRoot C.account)
    (hnew : stateAt db head = .ok s) : Healthy P db.nodes C s ∧ Unbroken P C s ∧
      ∀ addr z, s.ledger P.keccak C addr = some z → 0 ≤ z := by
  obtain ⟨s', hs', hg, -, hacc, -⟩ := exists_new hspace haccount fun _ => True
  obtain rfl : s' = s := Except.ok.inj (hs'.symm.trans hnew)
  refine ⟨hg, fun addr _ => congrFun hacc addr, fun addr z hz => ?_⟩
  unfold StateDB.ledger StateDB.accountAt at hz
  rw [hacc] at hz
  simp only at hz
  split at hz
  · next obj hobj =>
    cases hz
    exact balance_nonneg_of_readAccount hobj
  · cases hz

/-- An account that is not cached is unreadable when it is broken. -/
theorem Healthy.unreadable_iff (h : Healthy P get C s) (hu : Unbroken P C s) (addr : Address) :
    Unreadable P get s addr ↔ broken P C addr = true := by
  obtain ⟨s', hget, -⟩ := Good.exists_getAccountObject h addr
  unfold Unreadable
  rw [hget, Option.any_some]
  constructor
  · intro hfail
    cases hacc : s.accountAt P.keccak C addr with
    | failed =>
      unfold StateDB.accountAt at hacc
      split at hacc
      · cases hacc
      · rw [broken, hacc]
    | _ =>
      rw [hacc] at hfail
      cases hfail
  · intro hb
    rw [StateDB.accountAt, hu addr hb, storedAccount_of_broken hb]

/-- The executed part of a list does not crash. -/
theorem not_crashes_of_buildAll {acc acc' : Totals} (h : buildAll P db acc txs = some acc') :
    ∀ tx ∈ txs, ¬ tx.Crashes := by
  intro tx htx hc
  rw [buildAll_eq, validateAll_of_crashes ⟨tx, htx, hc⟩] at h
  cases h

/-- **No order overdraws an account** when the transactions take from none more than they may. -/
theorem neverOverdrawn_of_solvent
    (hspace : StoredAt P.keccak db.nodes head.header.spaceRoot C.space)
    (haccount : StoredAt P.keccak db.nodes head.header.accRoot C.account)
    (hplain : ∀ tx ∈ txs, Plain P tx) (hsolvent : Solvent P db head txs) :
    NeverOverdrawn P db head txs := by
  intro s hnew done rest hperm acc hacc
  obtain ⟨h, hu, hnn⟩ := healthy_of_new hspace haccount hnew
  have hcrash := not_crashes_of_buildAll hacc
  have hmem : ∀ tx ∈ done, tx ∈ txs := fun tx htx => hperm.subset (List.mem_append_left _ htx)
  obtain ⟨acc', hacc', hm, hl⟩ :=
    Healthy.exists_validateAll rfl
      (show Healthy P db.nodes C (BlockChain.start head s).state from h)
      hu hcrash
  obtain rfl : acc' = acc := by
    rw [buildAll_eq, hacc'] at hacc
    exact Option.some.inj hacc
  replace hl : acc'.state.ledger P.keccak C
      = ledgerAll P (broken P C) (s.ledger P.keccak C) done := hl
  have hledger : ∀ addr z, acc'.state.ledger P.keccak C addr = some z → 0 ≤ z := by
    intro addr z hz
    rw [hl] at hz
    have hspent : spent P done addr ≤ spent P txs addr := by
      rw [← spent_perm hperm, spent_append]
      linarith [spent_nonneg (P := P) rest addr]
    by_cases hconc : Concerned P db.nodes s txs addr
    · have hle := hsolvent s hnew addr hconc
      have hbase : ∀ y, s.ledger P.keccak C addr = some y →
          allowance P db.nodes s txs addr ≤ y := by
        intro y hy
        unfold allowance
        split
        · exact hnn addr y hy
        · rw [h.balanceOf_eq, hy]
          exact le_rfl
      have hzero : (∃ tx ∈ done, tx.Creates addr) → allowance P db.nodes s txs addr ≤ 0 := by
        rintro ⟨tx, htx, hc⟩
        rw [allowance, if_pos ⟨tx, hmem tx htx, hc⟩]
      have hbound := le_ledgerAll (fun tx htx => hplain tx (hmem tx htx)) hcrash hbase hzero hz
      linarith
    · rw [Concerned, not_or, not_and_or, not_not, h.hasAccount_iff, h.unreadable_iff hu] at hconc
      obtain ⟨hnone, hcreate⟩ := hconc
      have hstay : ledgerAll P (broken P C) (s.ledger P.keccak C) done addr = none := by
        refine ledgerAll_eq_none (Option.eq_none_iff_forall_ne_some.mpr fun z hz => hnone ⟨z, hz⟩)
          hcrash fun tx htx hc => ?_
        exact hcreate.resolve_left fun hno => hno ⟨tx, hmem tx htx, hc⟩
      rw [hstay] at hz
      cases hz
  refine ⟨fun addr z hz => ?_, fun addr obj hobj => ?_⟩
  · rw [(h.goes hm).balanceOf_eq, Option.mem_def, Option.some.injEq] at hz
    subst hz
    cases hlz : acc'.state.ledger P.keccak C addr with
    | none => exact le_rfl
    | some z => exact hledger addr z hlz
  · rw [Rlp.Item.ofInt?_of_nonneg (hledger addr _ (ledger_of_cached hobj))]
    rfl

/-- Two disjoint parts of a list can stand in front. -/
theorem exists_perm_of_filter {α : Type} (l : List α) {p q : α → Bool}
    (hpq : ∀ x ∈ l, q x = true → p x = false) :
    ∃ rest, (l.filter p ++ l.filter q ++ rest).Perm l := by
  have hq : l.filter q = (l.filter fun x => !p x).filter q := by
    rw [List.filter_filter]
    refine List.filter_congr fun x hx => ?_
    cases hqx : q x with
    | false => rfl
    | true => simp [hpq x hx hqx]
  refine ⟨(l.filter fun x => !p x).filter fun x => !q x, ?_⟩
  rw [hq, List.append_assoc]
  exact ((List.filter_append_perm q _).append_left _).trans (List.filter_append_perm p l)

/-- The transactions that create a space for the account. -/
def creators (txs : List Tx) (addr : Address) : List Tx := txs.filter fun tx => tx.Creates addr

/-- The transactions that take something from the account. -/
def takers (P : Prims) (txs : List Tx) (addr : Address) : List Tx :=
  txs.filter fun tx => 0 < spends P tx addr

/-- All that is spent is spent by those that take something. -/
theorem spent_takers (txs : List Tx) (addr : Address) :
    spent P (takers P txs addr) addr = spent P txs addr := by
  induction txs with
  | nil => rfl
  | cons tx txs ih =>
    have hnn := spends_nonneg (P := P) tx addr
    unfold takers at ih ⊢
    by_cases hs : 0 < spends P tx addr
    · rw [List.filter_cons_of_pos (by simpa using hs), spent_cons, spent_cons, ih]
    · rw [List.filter_cons_of_neg (by simpa using hs), spent_cons, le_antisymm (not_lt.mp hs) hnn,
        zero_add, ih]

theorem not_crashes_of_spends (hs : 0 < spends P tx addr) : ¬ tx.Crashes := by
  unfold spends at hs
  split at hs
  · next h => exact h.2.2
  · exact absurd hs (lt_irrefl 0)

/-- When the transactions take more than they may, the worst order shows a negative balance. -/
theorem solvent_of_neverOverdrawn
    (hspace : StoredAt P.keccak db.nodes head.header.spaceRoot C.space)
    (haccount : StoredAt P.keccak db.nodes head.header.accRoot C.account)
    (hplain : ∀ tx ∈ txs, Plain P tx) (hnever : NeverOverdrawn P db head txs) :
    Solvent P db head txs := by
  intro s hnew addr hconc
  obtain ⟨h, hu, -⟩ := healthy_of_new hspace haccount hnew
  obtain ⟨rest, hperm⟩ : ∃ rest, (creators txs addr ++ takers P txs addr ++ rest).Perm txs :=
    exists_perm_of_filter txs fun tx _ hs => decide_eq_false fun hc => by
      rw [decide_eq_true_eq, spends_of_creates hc] at hs
      exact lt_irrefl 0 hs
  have hcr : ∀ tx ∈ creators txs addr, tx.Creates addr := fun tx htx => by
    simpa using (List.mem_filter.mp htx).2
  have htk : ∀ tx ∈ takers P txs addr, 0 < spends P tx addr := fun tx htx => by
    simpa using (List.mem_filter.mp htx).2
  have hcrash : ∀ tx ∈ creators txs addr ++ takers P txs addr, ¬ tx.Crashes := fun tx htx =>
    (List.mem_append.mp htx).elim (fun h => not_crashes_of_creates (hcr tx h))
      fun h => not_crashes_of_spends (htk tx h)
  obtain ⟨acc, hacc, hm, hl⟩ :=
    Healthy.exists_validateAll rfl
      (show Healthy P db.nodes C (BlockChain.start head s).state from h)
      hu hcrash
  have hbase : ledgerAll P (broken P C) (s.ledger P.keccak C) (creators txs addr) addr
      = some (allowance P db.nodes s txs addr) := by
    by_cases hex : ∃ tx ∈ txs, tx.Creates addr
    · have hb : broken P C addr = false := by
        rcases hconc with hacc | ⟨-, hread⟩
        · obtain ⟨z, hz⟩ := (h.hasAccount_iff addr).mp hacc
          by_contra hb
          rw [hu.ledger_eq_none (by simpa using hb)] at hz
          cases hz
        · rw [h.unreadable_iff hu] at hread
          simpa using hread
      rw [ledgerAll_of_creates hb hcr, allowance, if_pos hex, if_neg]
      obtain ⟨tx, htx, hc⟩ := hex
      exact List.ne_nil_of_mem (List.mem_filter.mpr ⟨htx, decide_eq_true hc⟩)
    · obtain ⟨z, hz⟩ := (h.hasAccount_iff addr).mp (hconc.resolve_right fun h => hex h.1)
      have hnil : creators txs addr = [] :=
        List.filter_eq_nil_iff.mpr fun tx htx hc => hex ⟨tx, htx, by simpa using hc⟩
      rw [hnil, allowance, if_neg hex, h.balanceOf_eq, hz]
      exact hz
  have hfinal : acc.state.ledger P.keccak C addr
      = some (allowance P db.nodes s txs addr - spent P txs addr) := by
    rw [hl, List.foldl_append]
    have hspends : ∀ L, ledgerAll P (broken P C) L (takers P txs addr) addr
        = (L addr).map fun z => z - spent P (takers P txs addr) addr := ledgerAll_of_spends
      (fun tx htx => hplain tx (List.mem_filter.mp htx).1)
      (fun tx htx => not_crashes_of_spends (htk tx htx)) htk
    refine (hspends _).trans ?_
    rw [spent_takers]
    exact congrArg (Option.map fun z => z - spent P txs addr) hbase
  have hnn := (hnever s hnew _ rest hperm acc (by rw [buildAll_eq, hacc])).1 addr _
    ((h.goes hm).balanceOf_eq addr)
  rw [hfinal, Option.getD_some] at hnn
  linarith

/-- **The pooled transactions never overdraw an account, in any order, exactly when together they
take from no account more than they may.** -/
theorem never_overdrawn_iff {db : Db} {head : Block} {txs : List Tx}
    (hspace : StoredAt P.keccak db.nodes head.header.spaceRoot C.space)
    (haccount : StoredAt P.keccak db.nodes head.header.accRoot C.account)
    (hadmits : ∀ tx ∈ txs, TxPool.Admits P db head tx) :
    NeverOverdrawn P db head txs ↔ Solvent P db head txs := by
  have hplain : ∀ tx ∈ txs, Plain P tx := fun tx htx =>
    ⟨(hadmits tx htx).sender.1, (hadmits tx htx).sender.2⟩
  exact ⟨solvent_of_neverOverdrawn hspace haccount hplain,
    neverOverdrawn_of_solvent hspace haccount hplain⟩

end

/-! ### Two transactions on one balance -/

/-- A head whose two tries are empty. -/
def emptyHead : Block where
  header :=
    { uncleHash := .zero 32, number := 0, idIndex := 1, walletID := 0, groupID := 0,
      timestamp := 0, gasUsed := 0, version := [], percent := [], pk := [], sign := [],
      liquidationHash := [], extraIndex := .zero 4, spaceRoot := emptyRoot,
      accRoot := emptyRoot, groupRoot := .zero 32, coinRoot := .zero 32,
      txHash := emptyRoot, consensusGroupHash := .zero 32,
      extraHash := .zero 32 }
  transactions := []
  extraData := []

/-- The genesis chain of the signer of the sample transactions, who has ten units. -/
def signerChain : Option BlockChain :=
  genesisChain prims .plain (Sample.oneAccount ((signedTx 4 1 0 0).senderOrZero prims)) 5

/-- The law applies to the signer's two transactions, each of which the pool admits. -/
theorem never_overdrawn_iff_signerChain :
    ∃ bc ∈ signerChain,
      (∀ tx ∈ [signedTx 4 1 6 0, signedTx 5 1 6 0],
        0 < tx.cost ∧ TxPool.Admits prims bc.db bc.currentBlock tx) ∧
      (NeverOverdrawn prims bc.db bc.currentBlock [signedTx 4 1 6 0, signedTx 5 1 6 0] ↔
        Solvent prims bc.db bc.currentBlock [signedTx 4 1 6 0, signedTx 5 1 6 0]) := by
  have hrun : ∃ bc ∈ signerChain, ∃ s ∈ (stateAt bc.db bc.currentBlock).toOption,
      (∃ r ∈ (s.trieSpace.tryGet keccak bc.db.nodes []).toOption, LeafAt keccak
        bc.db.nodes bc.currentBlock.header.spaceRoot (keccak []) r.1) ∧
      (∃ r ∈ (s.trieAccount.tryGet keccak bc.db.nodes
          ((signedTx 4 1 6 0).senderOrZero prims).bytes).toOption, LeafAt keccak
        bc.db.nodes bc.currentBlock.header.accRoot
          (keccak ((signedTx 4 1 6 0).senderOrZero prims).bytes) r.1) ∧
      ∀ tx ∈ [signedTx 4 1 6 0, signedTx 5 1 6 0], 0 < tx.cost ∧
        ∃ r ∈ TxPool.add prims bc.db bc.currentBlock TxPool.empty tx, r.1 = .ok false := by
    decide +kernel
  obtain ⟨bc, hbc, s, -, ⟨_, -, hspace⟩, ⟨_, -, haccount⟩, hadd⟩ := hrun
  have hadmits : ∀ tx ∈ [signedTx 4 1 6 0, signedTx 5 1 6 0],
      0 < tx.cost ∧ TxPool.Admits prims bc.db bc.currentBlock tx := by
    intro tx htx
    obtain ⟨hcost, ⟨_, pool⟩, hr, rfl⟩ := hadd tx htx
    exact ⟨hcost, TxPool.empty, false, pool, hr⟩
  exact ⟨bc, hbc, hadmits, never_overdrawn_iff (C := ⟨_, _⟩) hspace.storedAt haccount.storedAt
    fun tx htx => (hadmits tx htx).2⟩

/-- The pool admits two transactions of the same signer at a cost of six each, and executing both
leaves a negative balance, on which the commit panics. -/
theorem admitted_transactions_overdraw :
    ∃ bc ∈ signerChain, ∃ r ∈ TxPool.add prims bc.db bc.currentBlock TxPool.empty
        (signedTx 4 1 6 0),
      r.1 = .ok false ∧
      ∃ r' ∈ TxPool.add prims bc.db bc.currentBlock r.2 (signedTx 5 1 6 0), r'.1 = .ok false ∧
        ∃ s ∈ (stateAt bc.db bc.currentBlock).toOption,
          ∃ acc ∈ buildAll prims bc.db (BlockChain.start bc.currentBlock s)
              [signedTx 4 1 6 0, signedTx 5 1 6 0],
            balanceOf prims bc.db.nodes acc.state
                ((signedTx 4 1 6 0).senderOrZero prims) = some (-2) ∧
            (acc.state.commitTo keccak .plain bc.db).isNone := by
  decide +kernel

end Gocoin.Space
