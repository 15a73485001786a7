import Mathlib.Data.List.AList
import Gocoin.Rlp.Stream
import Gocoin.Space.Worker

/-!
# Space/TxPool — the transaction pool

`space/tx_pool.go`.  A transaction is admitted when it is not in the pool, is not too long, moves
nothing negative, has a sender, and the sender's balance in the state of the head covers cost and
amount — each transaction on its own.  An admitted transaction goes into the pool at once, except
that an epoch transaction is handed to the epoch, and a settlement report enters the pool when its
report has been downloaded.  `buildBlock` takes all transactions of the pool, in the order of a map,
and nothing in the pool remembers the transactions that have left it.
-/

namespace Gocoin.Space

open State Trie

/-- The errors of the pool. -/
inductive PoolErr where
  | known
  | oversizedData
  | negativeValue
  | costLimit
  | invalidSender
  | lookup
  | insufficientFunds
  deriving DecidableEq

/-- `TxPool`: the pooled transactions by their hash, and the downloads under way. -/
structure TxPool where
  all : AList (fun _ : Hash => Tx)
  downloading : List Tx

namespace TxPool

/-- `NewTxPool`. -/
def empty : TxPool := ⟨∅, []⟩

/-- The transactions of the pool, in some order. -/
def txs (pool : TxPool) : List Tx := pool.all.entries.map Sigma.snd

/-- `currentMaxCost`. -/
def currentMaxCost : UInt64 := 10000

/-- The sum of cost and amount, in 64 bits. -/
def needed (tx : Tx) : UInt64 := intU64 tx.cost + intU64 tx.amount

section

variable (P : Prims)

/-- `validateTx`: the sender, or an error. -/
def validateTx (db : Db) (head : Block) (tx : Tx) : Option (Except PoolErr Address) :=
  if tx.size > 32 * 1024 then some (.error .oversizedData)
  else if tx.amount < 0 then some (.error .negativeValue)
  else if intU64 tx.cost > currentMaxCost then some (.error .costLimit)
  else
    match tx.sender P with
    | none => some (.error .invalidSender)
    | some sender =>
      match stateAt db head with
      | .error .panic => none
      | .error (.missing _) => some (.error .invalidSender)
      | .ok s => do
        let (r, _) ← s.getAccountObject P.keccak db.nodes sender
        match r with
        | .failed => some (.error .lookup)
        | .absent =>
          some (if 0 < needed tx then .error .insufficientFunds else .ok sender)
        | .found obj =>
          some (if intU64 obj.data.balance < needed tx then .error .insufficientFunds
            else .ok sender)

/-- `enqueueTx`: a settlement report is downloaded first. -/
def enqueueTx (pool : TxPool) (hash : Hash) (kind : TxKind) (tx : Tx) : TxPool :=
  if kind = .stellReport then { pool with downloading := tx :: pool.downloading }
  else { pool with all := pool.all.insert hash tx }

/-- `add`: whether the transaction was admitted, and the pool after it.  An admitted transaction
without payload is an index out of range. -/
def add (db : Db) (head : Block) (pool : TxPool) (tx : Tx) :
    Option (Except PoolErr Bool × TxPool) :=
  if (pool.all.lookup (tx.hash P)).isSome then some (.error .known, pool)
  else do
    match ← validateTx P db head tx with
    | .error e => some (.error e, pool)
    | .ok _ =>
      let kind ← tx.ptype
      if kind = .epochTx then some (.ok true, pool)
      else some (.ok false, pool.enqueueTx (tx.hash P) kind tx)

/-- The end of a download: the report is saved, and the transaction enters the pool. -/
def downLoad (db : Db) (pool : TxPool) (tx : Tx) (report : Bytes) : TxPool × Db :=
  ({ all := pool.all.insert (tx.hash P) tx, downloading := pool.downloading.erase tx },
    writeLiquidationHash db (tx.hash P) report)

/-- The length of the slice that `Bytes` makes before it reads the string ahead. -/
def sliceAhead (s : Stream) : ℕ :=
  match Stream.kindAhead s with
  | .ok (.string, size) _ => size
  | _ => 0

/-- The signatures that decoding leaves in a list: it ends at an error, and the signature that
failed stays behind, empty.  A declared length that cannot be allocated is a panic of `make`. -/
def decodeSigns : ℕ → Stream → Option (List Bytes)
  | 0, _ => some []
  | fuel + 1, s =>
    if P.maxAlloc < sliceAhead s then none
    else
      match decodeByteSlice s with
      | .ok sign s => (decodeSigns fuel s).map (sign :: ·)
      | .error e _ => some (if e = .eol then [] else [[]])

/-- The `Sign` of the `report` that a file is decoded to.  The stream over a buffer has no limit,
and nobody looks at its error: what was decoded before it counts. -/
def reportSigns (file : Bytes) : Option (List Bytes) :=
  match Stream.list { Stream.new file with remaining := 2 ^ 64 + file.length } with
  | .error _ _ => some []
  | .ok _ s =>
    match decodeByteArray 32 s with
    | .error _ _ => some []
    | .ok _ s =>
      match Stream.list s with
      | .error _ _ => some []
      | .ok _ s => decodeSigns P (file.length + 1) s

/-- `Sender` of a report: whoever signed, it is the zero address. -/
def reportSender (_sign : Bytes) : Address := .zero 20

/-- `downLoad`, from its start: the report is under the first 46 bytes behind the type, the file of
its signatures under the rest.  A shorter payload is a slice out of range, and decoding the file may
panic. -/
def downLoadTx (fetch : Bytes → Option Bytes) (bc : BlockChain) (pool : TxPool) (tx : Tx) :
    Option (TxPool × Db) :=
  if tx.payload.length < 1 + 46 then none
  else
    let left : TxPool := { pool with downloading := pool.downloading.erase tx }
    match fetch ((tx.payload.drop 1).take 46), fetch (tx.payload.drop (1 + 46)) with
    | some report, some file => do
      let signs ← reportSigns P file
      if signs.all fun sign => bc.isStellMember (reportSender sign) then
        some (downLoad P bc.db pool tx report)
      else some (left, bc.db)
    | _, _ => some (left, bc.db)

/-- `RemoveTx`. -/
def removeTx (pool : TxPool) (hashes : List Hash) : TxPool :=
  { pool with all := hashes.foldl (fun all h => all.erase h) pool.all }

/-- The pool admits the transaction on a head. -/
def Admits (db : Db) (head : Block) (tx : Tx) : Prop :=
  ∃ pool r pool', add P db head pool tx = some (.ok r, pool')

end

/-! ## What admission gives -/

variable {P : Prims} {db : Db} {head : Block} {tx : Tx}

/-- An admitted transaction passed `validateTx` and has a type. -/
theorem add_eq_ok {pool pool' : TxPool} {r : Bool}
    (h : add P db head pool tx = some (.ok r, pool')) :
    pool.all.lookup (tx.hash P) = none ∧ ∃ sender kind,
      validateTx P db head tx = some (.ok sender) ∧ tx.ptype = some kind ∧
      pool' = if kind = .epochTx then pool else pool.enqueueTx (tx.hash P) kind tx := by
  unfold add at h
  split at h
  · cases h
  · next hnew =>
    simp only [Option.bind_eq_bind, Option.bind_eq_some_iff] at h
    obtain ⟨v, hv, h⟩ := h
    refine ⟨Option.not_isSome_iff_eq_none.mp hnew, ?_⟩
    split at h
    · cases h
    · next sender =>
      simp only [Option.bind_eq_some_iff] at h
      obtain ⟨kind, hkind, h⟩ := h
      refine ⟨sender, kind, hv, hkind, ?_⟩
      split at h
      · next hk =>
        cases h
        rw [if_pos hk]
      · next hk =>
        cases h
        rw [if_neg hk]

/-- **What a validated transaction has passed**: the limits, and the comparison with the balance of
its sender on the head — with zero, where there is no account. -/
theorem validateTx_eq_ok {sender : Address} (h : validateTx P db head tx = some (.ok sender)) :
    0 ≤ tx.amount ∧ intU64 tx.cost ≤ currentMaxCost ∧ tx.sender P = some sender ∧
      ∃ s, stateAt db head = .ok s ∧
        ((∃ s', s.getAccountObject P.keccak db.nodes sender = some (.absent, s') ∧
            ¬ 0 < needed tx) ∨
          ∃ obj s', s.getAccountObject P.keccak db.nodes sender = some (.found obj, s') ∧
            ¬ intU64 obj.data.balance < needed tx) := by
  unfold validateTx at h
  split at h
  · cases h
  split at h
  · cases h
  next hamount =>
  split at h
  · cases h
  next hcost =>
  split at h
  · cases h
  next addr haddr =>
  split at h
  · cases h
  · cases h
  next s hs =>
  simp only [bind_eq_some, Prod.exists] at h
  obtain ⟨r, s', hr, h⟩ := h
  split at h
  · cases h
  · split at h <;> cases h
    next hneeded =>
    exact ⟨not_lt.mp hamount, UInt64.not_lt.mp hcost, haddr, s, hs, .inl ⟨s', hr, hneeded⟩⟩
  · split at h <;> cases h
    next obj hneeded =>
    exact ⟨not_lt.mp hamount, UInt64.not_lt.mp hcost, haddr, s, hs, .inr ⟨obj, s', hr, hneeded⟩⟩

theorem Admits.sender (h : Admits P db head tx) :
    0 ≤ tx.amount ∧ ∃ sender, tx.sender P = some sender := by
  obtain ⟨_, _, _, hadd⟩ := h
  obtain ⟨-, sender, -, hv, -⟩ := add_eq_ok hadd
  obtain ⟨hamount, -, hsender, -⟩ := validateTx_eq_ok hv
  exact ⟨hamount, sender, hsender⟩

end TxPool

end Gocoin.Space
