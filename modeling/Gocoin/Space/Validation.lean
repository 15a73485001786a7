import Gocoin.Space.Genesis
import Gocoin.Space.Worker

/-!
# Space/Validation — what an accepted block is forced to say

`validateBlock` compares the parent, the order of the numbers, two roots and — by their low 64 bits
— the next space id and the gas (`validateBlock_eq_true_iff`).  Whatever a list of transactions does
when it is executed on the head, a block that shows these results is accepted (`accepted_proposal`):
no signature is asked for, and neither the number itself nor the wallet index nor the root of the
transactions is compared with anything.
-/

namespace Gocoin.Space

open State
open Sample (unsignedCreation prims chain unforced)

variable (P : Prims)

/-! ## Acceptance -/

variable {ord : IterOrder} {db db' : Db} {head b : Block} {s : StateDB}

/-- **What `validateBlock` compares.** -/
theorem validateBlock_eq_true_iff :
    validateBlock P ord db head b = some (true, db') ↔
      b.header.uncleHash = head.hash P.keccak ∧ head.numberU64 < b.numberU64 ∧
      ∃ acc c, replay P ord db head b.transactions = some (acc, c) ∧
        b.header.spaceRoot = c.rootSpace ∧ b.header.accRoot = c.rootAccount ∧
        b.spaceIndexU64 = u64 acc.spaceid ∧ b.gasUsedU64 = intU64 acc.cost ∧ c.db = db' := by
  unfold validateBlock
  split
  · next h =>
    refine iff_of_false (by simp) ?_
    rintro ⟨hu, hn, -⟩
    rcases h with h | h
    · exact h hu
    · exact absurd hn (UInt64.not_lt.mpr h)
  · next h =>
    rw [not_or, not_not, UInt64.not_le] at h
    simp only [bind_eq_some, Prod.exists, Option.some.injEq,
      Prod.mk.injEq, Bool.and_eq_true, decide_eq_true_eq, and_assoc]
    constructor
    · rintro ⟨acc, c, hr, h1, h2, h3, h4, h5⟩
      exact ⟨h.1, h.2, acc, c, hr, h1, h2, h3, h4, h5⟩
    · rintro ⟨-, -, acc, c, hr, h1, h2, h3, h4, h5⟩
      exact ⟨acc, c, hr, h1, h2, h3, h4, h5⟩

/-- The last number, behind which `GetNumberU64` starts again. -/
def lastNumber : UInt64 := 0xffffffffffffffff

theorem toNat_lastNumber : lastNumber.toNat = 2 ^ 64 - 1 := rfl

/-- The low 64 bits of a number are followed by a larger word, unless they are all set. -/
theorem u64_lt_u64_succ {n : ℕ} (h : u64 n ≠ lastNumber) : u64 n < u64 (n + 1) := by
  have hn : u64 (n + 1) = u64 n + 1 := by
    unfold u64
    rw [UInt64.ofNat_add]
    rfl
  rw [hn, UInt64.lt_iff_toNat_lt, UInt64.toNat_add]
  have hlt := (u64 n).toNat_lt
  have hne : (u64 n).toNat ≠ 2 ^ 64 - 1 := fun he => h (UInt64.toNat_inj.mp he)
  have h1 : (1 : UInt64).toNat = 1 := rfl
  rw [h1, Nat.mod_eq_of_lt (by omega)]
  omega

/-- A block on a head that shows the given totals and roots. -/
def proposal (head : Block) (acc : Totals) (c : StateDB.Committed) (txs : List Tx) : Block where
  header :=
    { head.header with
      uncleHash := head.hash P.keccak, number := head.header.number + 1, idIndex := acc.spaceid,
      walletID := acc.walletid, gasUsed := acc.cost, spaceRoot := c.rootSpace,
      accRoot := c.rootAccount }
  transactions := txs
  extraData := []

/-- **A block that shows what its execution gives is accepted**, whatever the wallet index and the
transactions are. -/
theorem accepted_proposal {txs : List Tx} {acc : Totals} {c : StateDB.Committed}
    (hhead : head.numberU64 ≠ lastNumber) (hr : replay P ord db head txs = some (acc, c))
    (walletID : UInt64) :
    validateBlock P ord db head
      (proposal P head { acc with walletid := walletID } c txs) = some (true, c.db) :=
  (validateBlock_eq_true_iff P).mpr
    ⟨rfl, u64_lt_u64_succ hhead, acc, c, hr, rfl, rfl, rfl, rfl, rfl⟩

/-- Nothing is accepted on a head whose number is the last one. -/
theorem not_accepted_of_last (hhead : head.numberU64 = lastNumber) :
    validateBlock P ord db head b ≠ some (true, db') := by
  intro h
  obtain ⟨-, hn, -⟩ := (validateBlock_eq_true_iff P).mp h
  rw [hhead, UInt64.lt_iff_toNat_lt, toNat_lastNumber] at hn
  have hlt := b.numberU64.toNat_lt
  omega

/-! ## Signatures -/

/-- The types that change a balance, an attribute or a space: 1 to 5, 7, 8 and 10 to 12. -/
def ChangesState (tx : Tx) : Prop :=
  ∃ kind, tx.ptype = some kind ∧ kind ≠ .epochTx ∧ kind ≠ .stellReport ∧ kind ≠ .other

instance (tx : Tx) : Decidable (ChangesState tx) :=
  match h : tx.ptype with
  | none => .isFalse fun ⟨kind, hk, _⟩ => by cases h.symm.trans hk
  | some kind =>
    decidable_of_iff (kind ≠ .epochTx ∧ kind ≠ .stellReport ∧ kind ≠ .other)
      ⟨fun hk => ⟨kind, h, hk⟩, fun ⟨kind', hk, hk'⟩ => by
        cases h.symm.trans hk
        exact hk'⟩

/-- The list has a transaction that changes the state and whose sender cannot be recovered. -/
def HasUnsigned (txs : List Tx) : Prop := ∃ tx ∈ txs, ChangesState tx ∧ tx.sender P = none

/-- An unsigned transaction that costs nothing. -/
def idle : Tx := ⟨0, none, 0, 0, [4], 0, 0, 0⟩

/-- On a state that opens and in which the zero address can be looked up, an unsigned transaction
is executed. -/
theorem exists_replay_unsigned (hs : stateAt db head = .ok s)
    (hget : s.getAccountObject P.keccak db.nodes (.zero 20) ≠ none) (ord : IterOrder) :
    HasUnsigned P [idle] ∧ replay P ord db head [idle] ≠ none := by
  refine ⟨⟨idle, List.mem_singleton_self _, by decide, rfl⟩, ?_⟩
  obtain ⟨⟨r, s'⟩, hget⟩ := Option.ne_none_iff_exists'.mp hget
  have hsub : s.subBalance P.keccak db.nodes (.zero 20) 0 = some s' := by
    unfold StateDB.subBalance StateDB.withAccount
    rw [hget]
    cases r <;> rfl
  have hall : validateAll P db (BlockChain.start head s) [idle]
      = some { BlockChain.start head s with cost := 0 + 0, state := s' } := by
    rw [validateAll_cons]
    show ((s.subBalance P.keccak db.nodes (.zero 20) 0).bind _).bind _ = _
    rw [hsub]
    rfl
  obtain ⟨c, hc, -⟩ := ((StateDB.untouched_new hs).getAccountObject hget).commitTo P.keccak ord db
  unfold replay
  rw [hs]
  simp only [hall, hc, some_bind]
  simp

/-- **Signatures of accepted blocks**: all state-changing transactions of all blocks accepted on a
head are signed exactly when no block can follow the head, or the execution of every list with an
unsigned one crashes on the head's state — which takes a damaged database: where the state opens
and the zero address can be looked up, some such list is executed. -/
theorem accepted_signed_iff (db : Db) (head : Block) :
    ((∀ ord b db', validateBlock P ord db head b = some (true, db') →
      ∀ tx ∈ b.transactions, ChangesState tx → ∃ addr, tx.sender P = some addr) ↔
    head.numberU64 = lastNumber ∨ ∀ ord txs, HasUnsigned P txs → replay P ord db head txs = none) ∧
    ∀ s, stateAt db head = .ok s → s.getAccountObject P.keccak db.nodes (.zero 20) ≠ none →
      ∀ ord, ∃ txs, HasUnsigned P txs ∧ replay P ord db head txs ≠ none := by
  refine ⟨⟨?_, ?_⟩, fun s hs hget ord => ⟨[idle], exists_replay_unsigned P hs hget ord⟩⟩
  · intro hall
    by_contra hnot
    push Not at hnot
    obtain ⟨hhead, ord, txs, ⟨tx, htx, hch, hno⟩, hr⟩ := hnot
    obtain ⟨⟨acc, c⟩, hr⟩ := Option.ne_none_iff_exists'.mp hr
    have hok := accepted_proposal P hhead hr acc.walletid
    obtain ⟨addr, haddr⟩ := hall ord _ _ hok tx htx hch
    rw [hno] at haddr
    cases haddr
  · rintro (hhead | hcrash) ord b db' hok tx htx hch
    · exact absurd hok (not_accepted_of_last P hhead)
    · obtain ⟨-, -, acc, c, hr, -⟩ := (validateBlock_eq_true_iff P).mp hok
      by_contra hno
      have hnone : tx.sender P = none := by
        cases hs : tx.sender P with
        | none => rfl
        | some addr => exact absurd ⟨addr, hs⟩ hno
      rw [hcrash ord b.transactions ⟨tx, htx, hch, hnone⟩] at hr
      cases hr

/-- A block with an unsigned creation of a space is accepted on the small chain and changes the
state. -/
theorem unsigned_creation_accepted :
    unsignedCreation.sender prims = none ∧ ChangesState unsignedCreation ∧
    ∃ bc ∈ chain, ∃ r ∈ replay prims .plain bc.db bc.currentBlock [unsignedCreation],
      ∃ v ∈ validateBlock prims .plain bc.db bc.currentBlock
        (proposal prims bc.currentBlock r.1 r.2 [unsignedCreation]),
        v.1 = true ∧ r.2.rootAccount ≠ bc.currentBlock.header.accRoot := by
  decide +kernel

/-! ## Header fields -/

/-- The fields later blocks build on are those of the execution. -/
def Forced (ord : IterOrder) (db : Db) (head b : Block) : Prop :=
  b.header.number = head.header.number + 1 ∧
  (∃ acc c, replay P ord db head b.transactions = some (acc, c) ∧
    b.header.idIndex = acc.spaceid ∧ b.header.walletID = acc.walletid ∧
    b.header.gasUsed = acc.cost) ∧
  deriveSha P.keccak b.transactions = some b.header.txHash

theorem replay_nil (hs : stateAt db head = .ok s) :
    ∃ c, replay P ord db head [] = some (BlockChain.start head s, c) := by
  obtain ⟨c, hc, -⟩ := (StateDB.untouched_new hs).commitTo P.keccak ord db
  refine ⟨c, ?_⟩
  unfold replay
  rw [hs]
  show ((BlockChain.start head s).state.commitTo P.keccak ord db).bind _ = _
  rw [show (BlockChain.start head s).state = s from rfl, hc]
  rfl

/-- **The header fields are forced** exactly when no block can follow the head or the head's state
does not open: wherever a block can be accepted, one with another wallet index is. -/
theorem accepted_forced_iff (db : Db) (head : Block) :
    (∀ ord b db', validateBlock P ord db head b = some (true, db') → Forced P ord db head b) ↔
    head.numberU64 = lastNumber ∨ ∀ s, stateAt db head ≠ .ok s := by
  constructor
  · intro hall
    by_contra hnot
    push Not at hnot
    obtain ⟨hhead, s, hs⟩ := hnot
    obtain ⟨c, hr⟩ : ∃ c, replay P .plain db head [] = some (BlockChain.start head s, c) :=
      replay_nil P hs
    have hok := accepted_proposal P hhead hr (head.header.walletID + 1)
    obtain ⟨-, ⟨acc, c', hr', -, hw, -⟩, -⟩ := hall _ _ _ hok
    rw [show (proposal P head _ c []).transactions = [] from rfl, hr] at hr'
    cases hr'
    have hne : head.header.walletID + 1 ≠ head.header.walletID := by
      intro he
      simp at he
    exact hne hw
  · rintro (hhead | hclosed) ord b db' hok
    · exact absurd hok (not_accepted_of_last P hhead)
    · obtain ⟨-, -, acc, c, hr, -⟩ := (validateBlock_eq_true_iff P).mp hok
      unfold replay at hr
      split at hr
      · cases hr
      · next s hs => exact absurd hs (hclosed s)

/-- A child with another wallet index and another transaction root is accepted on the small
chain. -/
theorem unforced_block_accepted :
    ∃ bc ∈ chain,
      (∃ v ∈ validateBlock prims .plain bc.db bc.currentBlock
        (unforced bc.currentBlock), v.1 = true) ∧
      ¬ Forced prims .plain bc.db bc.currentBlock (unforced bc.currentBlock) := by
  have hrun : ∃ bc ∈ chain,
      (∃ v ∈ validateBlock prims .plain bc.db bc.currentBlock
        (unforced bc.currentBlock), v.1 = true) ∧
      ∀ r ∈ replay prims .plain bc.db bc.currentBlock
        (unforced bc.currentBlock).transactions, r.1.walletid ≠ 77 := by
    decide +kernel
  obtain ⟨bc, hbc, hok, hw⟩ := hrun
  refine ⟨bc, hbc, hok, ?_⟩
  rintro ⟨-, ⟨acc, c, hr, -, hwallet, -⟩, -⟩
  exact hw (acc, c) hr hwallet.symm

end Gocoin.Space
