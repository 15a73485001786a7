import Gocoin.Space.Frame
import Gocoin.State.Ledger

/-!
# Space/Tally — a transaction as a change of the ledger and of the book

The switch of `ApplyTransaction` reads and writes the state through its caches.  What it does can be
said without them: `ledgerAfter` is the change of the balances — a new space empties the account of
its recipient, a transfer credits the recipient, and the cost is taken from the sender — and
`tallyAfter` the change of the whole book (`State/Book`) and of the two counters the switch carries
along.  Both are pure functions of the transaction and of the reports stored for it.
-/

namespace Gocoin.Space

open State Trie

/-! ## Balances -/

/-- The balances of the accounts that are there. -/
abbrev Ledger := Address → Option ℤ

/-- An amount is added to an account, if it is there. -/
def Ledger.credit (L : Ledger) (addr : Address) (amount : ℤ) : Ledger :=
  Function.update L addr ((L addr).map fun z => z + amount)

/-- An amount is taken from an account, if it is there. -/
def Ledger.debit (L : Ledger) (addr : Address) (amount : ℤ) : Ledger :=
  Function.update L addr ((L addr).map fun z => z - amount)

/-- The ledger after a transaction; `broken` are the accounts whose stored form cannot be read. -/
def ledgerAfter (P : Prims) (broken : Address → Bool) (L : Ledger) (tx : Tx) : Ledger :=
  match tx.ptype, tx.recipient with
  | some .spaceCreation, some r => if broken r then L else Function.update L r (some 0)
  | some .recharge, some r => (L.credit r tx.amount).debit (tx.senderOrZero P) tx.cost
  | some .attrSet, some _ | some .createGroup, _ | some .publishCoin, _ | some .epochSigTx, _
    | some .applyGroup, _ | some .stellGroup, _ | some .coinGroup, _ | some .transactionGroup, _ =>
    L.debit (tx.senderOrZero P) tx.cost
  | _, _ => L

/-! ## The book and the counters -/

/-- The counters and the book. -/
structure Tally where
  spaceid : ℕ
  walletid : UInt64
  book : Book

/-- The tally of what a switch carries along. -/
def Totals.tally (P : Prims) (C : Contents) (acc : Totals) : Tally :=
  ⟨acc.spaceid, acc.walletid, acc.state.book P.keccak C⟩

/-- The reports a settlement transaction executes: those stored under its hash, if they can be
read. -/
def reportsOf (P : Prims) (db : Db) (tx : Tx) : List LiquidationReport :=
  let data := getLiquidation db (tx.hash P)
  if data.length > 0 then (decodeReports data).getD [] else []

/-- One report: the gas is taken from the balance, at most as much as there is. -/
def chargeReport (B : Book) (report : LiquidationReport) : Book :=
  B.onSpace (u64 report.spaceId) fun sp =>
    if report.gas < intU64 sp.balance then sp.sub report.gas.toNat else sp.sub sp.balance

/-- The cost is taken from the sender. -/
def chargeSender (P : Prims) (tx : Tx) (B : Book) : Book :=
  B.onAccount (tx.senderOrZero P) fun h => { h with balance := h.balance - tx.cost }

/-- **The tally after a transaction.** -/
def tallyAfter (P : Prims) (reports : List LiquidationReport) (T : Tally) (tx : Tx) : Tally :=
  match tx.ptype, tx.recipient with
  | some .spaceCreation, some r =>
    let made := T.book.createSpaceAndBindAddr (u64 T.spaceid) T.walletid r
    ⟨T.spaceid + 1, made.1, made.2.onAccount r fun h => { h with balance := 0 }⟩
  | some .recharge, some r =>
    let book := T.book.onAccount r fun h => { h with balance := h.balance + tx.amount }
    { T with book := chargeSender P tx book }
  | some .attrSet, some r =>
    let attr := decodeAttr tx.payload.tail
    let book := T.book.onAccount r fun h =>
      { h with accountAttribute := h.accountAttribute.insert attr.k attr.v }
    { T with book := chargeSender P tx book }
  | some .createGroup, _ | some .publishCoin, _ | some .epochSigTx, _ | some .applyGroup, _
    | some .stellGroup, _ | some .coinGroup, _ | some .transactionGroup, _ =>
    { T with book := chargeSender P tx T.book }
  | some .stellReport, _ => { T with book := reports.foldl chargeReport T.book }
  | _, _ => T

/-- The ids a transaction uses are allowed: the id of a new space, and those of the reports. -/
structure UsesIds (K : ℕ → Prop) (P : Prims) (db : Db) (spaceid : ℕ) (tx : Tx) : Prop where
  created : tx.ptype = some .spaceCreation → K spaceid
  reported : tx.ptype = some .stellReport → ∀ report ∈ reportsOf P db tx, K report.spaceId

end Gocoin.Space
