import Gocoin.State.Commit
import Gocoin.Space.Database

/-!
# Space/Transition — the three copies of the state transition

A transaction is executed in three places: `BlockChain.ApplyTransaction` when a block is inserted,
`Worker.validateBlock` when a proposed block is checked, and `Worker.buildBlock` when a block is
made.  The three switches are copies of each other by hand.  They differ in where the sender comes
from and in their side effects: `ApplyTransaction` deletes a liquidation report it has used and
enters the applicants into the member groups.
-/

namespace Gocoin.Space

open State

/-- `state.New` at the roots of a block. -/
def stateAt (db : Db) (b : Block) : Except Trie.TrieErr StateDB :=
  State.new db.nodes b.header.spaceRoot b.header.accRoot

/-- What a switch carries from transaction to transaction. -/
structure Totals where
  spaceid : ℕ
  walletid : UInt64
  cost : ℤ
  state : StateDB

/-- `Message`, the part of a pool entry `buildBlock` reads, and the transaction it was made of. -/
structure Message where
  recipient : Option Address
  sender : Address
  cost : ℤ
  amount : ℤ
  data : Bytes
  tx : Tx

section

variable (P : Prims) (env : Surroundings) (get : Nodes)

/-- One report of `LiquidationToState`: the reported gas is taken from the balance of the space, at
most as much as there is. -/
def settleReport (s : StateDB) (report : LiquidationReport) : Option StateDB := do
  let (balance, s) ← s.getSpaceBalanceByID P.keccak get report.spaceId
  if report.gas < intU64 balance then
    s.subSpaceBalanceByID P.keccak get report.spaceId report.gas.toNat
  else s.subSpaceBalanceByID P.keccak get report.spaceId balance

/-- `LiquidationToState`; data that is no list of reports changes nothing. -/
def liquidationToState (data : Bytes) (s : StateDB) : Option StateDB :=
  match decodeReports data with
  | none => some s
  | some reports => reports.foldlM (settleReport P get) s

/-- The case of a new space: the space is bound to the recipient and the recipient's balance is set
to zero. -/
def createSpace (acc : Totals) (addr : Option Address) : Option Totals := do
  let addr ← addr
  let (walletid, s) ← acc.state.createSpaceAndBindAddr P.keccak get acc.spaceid acc.walletid addr
  let s ← s.setBalance P.keccak get addr 0
  some { acc with walletid, state := s, spaceid := acc.spaceid + 1 }

/-- The case of a transfer: the amount is added to the recipient, the cost is taken from the
sender. -/
def recharge (acc : Totals) (addr : Option Address) (amount : ℤ)
    (sender : Address) (cost : ℤ) : Option Totals := do
  let addr ← addr
  let s ← acc.state.addBalance P.keccak get addr amount
  let s ← s.subBalance P.keccak get sender cost
  some { acc with state := s }

/-- The case of an attribute. -/
def setAttr (acc : Totals) (addr : Option Address) (data : Bytes)
    (sender : Address) (cost : ℤ) : Option Totals := do
  let attr := decodeAttr data
  let addr ← addr
  let s ← acc.state.setAttribute P.keccak get addr attr.k attr.v
  let s ← s.subBalance P.keccak get sender cost
  some { acc with state := s }

/-- The cases that only take the cost. -/
def payCost (acc : Totals) (sender : Address) (cost : ℤ) : Option Totals := do
  let s ← acc.state.subBalance P.keccak get sender cost
  some { acc with state := s }

/-- The case of a settlement report, executed when the report has been downloaded. -/
def settle (db : Db) (acc : Totals) (hash : Hash) : Option Totals :=
  let data := getLiquidation db hash
  if data.length > 0 then do
    let s ← liquidationToState P db.nodes data acc.state
    some { acc with state := s }
  else some acc

/-! ## `Worker.validateBlock` -/

/-- One turn of the loop of `validateBlock`. -/
def validateTransaction (db : Db) (acc : Totals) (tx : Tx) : Option Totals := do
  let acc := { acc with cost := acc.cost + tx.cost }
  match ← tx.ptype with
  | .spaceCreation => createSpace P db.nodes acc tx.recipient
  | .recharge => recharge P db.nodes acc tx.recipient tx.amount (tx.senderOrZero P) tx.cost
  | .attrSet =>
    setAttr P db.nodes acc tx.recipient tx.payload.tail (tx.senderOrZero P) tx.cost
  | .createGroup => payCost P db.nodes acc (tx.senderOrZero P) tx.cost
  | .publishCoin => payCost P db.nodes acc (tx.senderOrZero P) tx.cost
  | .epochTx => some acc
  | .epochSigTx => payCost P db.nodes acc (tx.senderOrZero P) tx.cost
  | .applyGroup => payCost P db.nodes acc (tx.senderOrZero P) tx.cost
  | .stellReport => settle P db acc (tx.hash P)
  | .stellGroup => payCost P db.nodes acc (tx.senderOrZero P) tx.cost
  | .coinGroup => payCost P db.nodes acc (tx.senderOrZero P) tx.cost
  | .transactionGroup => payCost P db.nodes acc (tx.senderOrZero P) tx.cost
  | .other => some acc

/-! ## `Worker.buildBlock` -/

/-- The message `GetAllTx` makes of a transaction. -/
def Message.ofTx (tx : Tx) : Message where
  recipient := tx.recipient
  sender := tx.senderOrZero P
  cost := tx.cost
  amount := tx.amount
  data := tx.payload
  tx := tx

/-- One turn of the loop of `buildBlock`. -/
def buildTransaction (db : Db) (acc : Totals) (msg : Message) : Option Totals := do
  let acc := { acc with cost := acc.cost + msg.cost }
  match ← msg.data.head?.map TxKind.ofByte with
  | .spaceCreation => createSpace P db.nodes acc msg.recipient
  | .recharge => recharge P db.nodes acc msg.recipient msg.amount msg.sender msg.cost
  | .attrSet => setAttr P db.nodes acc msg.recipient msg.data.tail msg.sender msg.cost
  | .createGroup => payCost P db.nodes acc msg.sender msg.cost
  | .publishCoin => payCost P db.nodes acc msg.sender msg.cost
  | .epochTx => some acc
  | .epochSigTx => payCost P db.nodes acc msg.sender msg.cost
  | .applyGroup => payCost P db.nodes acc msg.sender msg.cost
  | .stellReport => settle P db acc (msg.tx.hash P)
  | .stellGroup => payCost P db.nodes acc msg.sender msg.cost
  | .coinGroup => payCost P db.nodes acc msg.sender msg.cost
  | .transactionGroup => payCost P db.nodes acc msg.sender msg.cost
  | .other => some acc

/-! ## `BlockChain.ApplyTransaction` -/

/-- The database and the groups `ApplyTransaction` writes to. -/
structure Surroundings where
  db : Db
  validateGroup : Option ValidateGroup

/-- The sender of a transaction enters a group, if the chain has groups. -/
def Surroundings.enter (tx : Tx)
    (f : ValidateGroup → Db → GroupMember → ValidateGroup × Db) : Surroundings :=
  match env.validateGroup with
  | none => env
  | some vg =>
    let r := f vg env.db ⟨tx.senderOrZero P, tx.time⟩
    ⟨r.2, some r.1⟩

/-- The cases of an application: the cost is taken, and the sender enters a group. -/
def apply (acc : Totals) (tx : Tx) (f : ValidateGroup → Db → GroupMember → ValidateGroup × Db) :
    Option (Surroundings × Totals) := do
  let acc ← payCost P env.db.nodes acc (tx.senderOrZero P) tx.cost
  some (env.enter P tx f, acc)

/-- The case of a settlement report: a report that has been used is deleted. -/
def applyReport (acc : Totals) (hash : Hash) : Option (Surroundings × Totals) :=
  let data := getLiquidation env.db hash
  if data.length > 0 then do
    let s ← liquidationToState P env.db.nodes data acc.state
    some ({ env with db := deleteLiquidationHash env.db hash }, { acc with state := s })
  else some (env, acc)

/-- The cases without a side effect. -/
def keep (r : Option Totals) : Option (Surroundings × Totals) := r.map fun acc => (env, acc)

/-- `ApplyTransaction`. -/
def applyTransaction (acc : Totals) (tx : Tx) : Option (Surroundings × Totals) := do
  let acc := { acc with cost := acc.cost + tx.cost }
  match ← tx.ptype with
  | .spaceCreation => keep env (createSpace P env.db.nodes acc tx.recipient)
  | .recharge =>
    keep env (recharge P env.db.nodes acc tx.recipient tx.amount (tx.senderOrZero P) tx.cost)
  | .attrSet =>
    keep env
      (setAttr P env.db.nodes acc tx.recipient tx.payload.tail (tx.senderOrZero P) tx.cost)
  | .createGroup => keep env (payCost P env.db.nodes acc (tx.senderOrZero P) tx.cost)
  | .publishCoin => keep env (payCost P env.db.nodes acc (tx.senderOrZero P) tx.cost)
  | .epochTx => some (env, acc)
  | .epochSigTx => keep env (payCost P env.db.nodes acc (tx.senderOrZero P) tx.cost)
  | .applyGroup => apply P env acc tx ValidateGroup.add
  | .stellReport => applyReport P env acc (tx.hash P)
  | .stellGroup => apply P env acc tx ValidateGroup.addStell
  | .coinGroup => apply P env acc tx ValidateGroup.addCoin
  | .transactionGroup => apply P env acc tx ValidateGroup.addTransaction
  | .other => some (env, acc)

/-! ## The three folds -/

/-- The loop of `validateBlock`. -/
def validateAll (db : Db) (acc : Totals) (txs : List Tx) : Option Totals :=
  txs.foldlM (validateTransaction P db) acc

/-- The loop of `buildBlock` over the messages of the transactions. -/
def buildAll (db : Db) (acc : Totals) (txs : List Tx) : Option Totals :=
  (txs.map (Message.ofTx P)).foldlM (buildTransaction P db) acc

/-- The loop of `Process`. -/
def applyAll (acc : Totals) (txs : List Tx) : Option (Surroundings × Totals) :=
  txs.foldlM (fun r tx => applyTransaction P r.1 r.2 tx) (env, acc)

/-! ## One transition and its side effects

The switch of `buildBlock` on the message of a transaction is the switch of `validateBlock`, and
`ApplyTransaction` is that switch together with an effect on the database and the groups which does
not depend on the state. -/

/-- The effect of `ApplyTransaction` on its surroundings. -/
def sideEffect (tx : Tx) : Surroundings :=
  match tx.ptype with
  | some .applyGroup => env.enter P tx ValidateGroup.add
  | some .stellGroup => env.enter P tx ValidateGroup.addStell
  | some .coinGroup => env.enter P tx ValidateGroup.addCoin
  | some .transactionGroup => env.enter P tx ValidateGroup.addTransaction
  | some .stellReport =>
    if (getLiquidation env.db (tx.hash P)).length > 0 then
      { env with db := deleteLiquidationHash env.db (tx.hash P) }
    else env
  | _ => env

theorem buildTransaction_ofTx (db : Db) (acc : Totals) (tx : Tx) :
    buildTransaction P db acc (Message.ofTx P tx) = validateTransaction P db acc tx := by
  unfold buildTransaction validateTransaction Tx.ptype Message.ofTx
  rfl

/-- **`ApplyTransaction` is the switch of `validateBlock` and a side effect.** -/
theorem applyTransaction_eq (acc : Totals) (tx : Tx) :
    applyTransaction P env acc tx
      = (validateTransaction P env.db acc tx).map fun acc' => (sideEffect P env tx, acc') := by
  unfold applyTransaction validateTransaction sideEffect
  cases hp : tx.ptype with
  | none => rfl
  | some kind =>
    simp only [some_bind]
    cases kind
    case stellReport =>
      simp only [applyReport, settle]
      split
      · simp only [Option.bind_eq_bind, Option.map_bind, Function.comp_def, Option.map_some]
      · rfl
    case applyGroup | stellGroup | coinGroup | transactionGroup =>
      simp only [apply]
      cases payCost P env.db.nodes _ (tx.senderOrZero P) tx.cost <;> rfl
    all_goals rfl

theorem buildAll_eq (db : Db) (acc : Totals) (txs : List Tx) :
    buildAll P db acc txs = validateAll P db acc txs := by
  induction txs generalizing acc with
  | nil => rfl
  | cons tx txs ih =>
    simp only [buildAll, validateAll] at ih ⊢
    simp only [List.map_cons, List.foldlM_cons, buildTransaction_ofTx, ih]

@[simp] theorem applyAll_nil (acc : Totals) : applyAll P env acc [] = some (env, acc) := rfl

theorem applyAll_cons (acc : Totals) (tx : Tx) (txs : List Tx) :
    applyAll P env acc (tx :: txs)
      = (validateTransaction P env.db acc tx).bind fun acc' =>
          applyAll P (sideEffect P env tx) acc' txs := by
  simp only [applyAll, List.foldlM_cons, applyTransaction_eq, Option.bind_eq_bind]
  cases validateTransaction P env.db acc tx <;> rfl

theorem validateAll_cons (db : Db) (acc : Totals) (tx : Tx) (txs : List Tx) :
    validateAll P db acc (tx :: txs)
      = (validateTransaction P db acc tx).bind fun acc' => validateAll P db acc' txs := by
  simp only [validateAll, List.foldlM_cons, Option.bind_eq_bind]

end

end Gocoin.Space
