import Gocoin.State.StateDB

/-!
# State/Commit — writing the state back

`SpaceFinalise`, `AccountFinalise`, `IntermediateRoot` and `CommitTo` of `state/statemanage.go`.
Both finalisers walk a Go map of dirty objects and the encoder of an account walks the map of its
attributes; the runtime is free to choose the order of every such walk.  An `IterOrder` is one
choice: a permutation for each map that is walked.
-/

namespace Gocoin.State

open Trie

/-- The orders in which the runtime walks the maps of one commit. -/
structure IterOrder where
  spaces : List UInt64 → List UInt64
  spaces_perm : ∀ l, (spaces l).Perm l
  accounts : List Address → List Address
  accounts_perm : ∀ l, (accounts l).Perm l
  attributes : Address → Entries → Entries
  attributes_perm : ∀ a l, (attributes a l).Perm l

/-- The order of the model's own lists. -/
def IterOrder.plain : IterOrder where
  spaces := id
  spaces_perm := fun _ => .refl _
  accounts := id
  accounts_perm := fun _ => .refl _
  attributes := fun _ => id
  attributes_perm := fun _ _ => .refl _

namespace StateDB

variable (keccak : HashFn) (ord : IterOrder) (get : Nodes)

/-- One turn of `SpaceFinalise`: a missing node is remembered as the state's error, which nothing
reads, and the trie stays as it was. -/
def finaliseSpace (deleteEmptyObjects : Bool) (s : StateDB) (id : UInt64) : Option StateDB := do
  let obj ← s.spaceObjects id
  if deleteEmptyObjects && obj.empty then
    match s.trieSpace.tryDelete keccak get (BigEndian.toBytes obj.id) with
    | (_, .error .panic) => none
    | (t, _) => some { s with trieSpace := t }
  else do
    let data ← obj.encodeRLP
    match s.trieSpace.tryUpdate keccak get (BigEndian.toBytes obj.id) data with
    | .error .panic => none
    | .error (.missing _) => some s
    | .ok t => some { s with trieSpace := t }

/-- `SpaceFinalise`. -/
def spaceFinalise (deleteEmptyObjects : Bool) (s : StateDB) : Option StateDB := do
  let s ← (ord.spaces s.spaceObjectsDirty).foldlM (finaliseSpace keccak get deleteEmptyObjects) s
  some { s with spaceObjectsDirty := [] }

/-- One turn of `AccountFinalise`. -/
def finaliseAccount (deleteEmptyObjects : Bool) (s : StateDB) (addr : Address) :
    Option StateDB := do
  let obj ← s.accountObjects addr
  if deleteEmptyObjects && obj.empty then
    match s.trieAccount.tryDelete keccak get obj.address.bytes with
    | (_, .error .panic) => none
    | (t, _) => some { s with trieAccount := t }
  else do
    let data ← obj.encodeRLP (ord.attributes addr obj.accountAttribute.entries)
    match s.trieAccount.tryUpdate keccak get obj.address.bytes data with
    | .error .panic => none
    | .error (.missing _) => some s
    | .ok t => some { s with trieAccount := t }

/-- `AccountFinalise`. -/
def accountFinalise (deleteEmptyObjects : Bool) (s : StateDB) : Option StateDB := do
  let s ← (ord.accounts s.accountObjectsDirty).foldlM
    (finaliseAccount keccak ord get deleteEmptyObjects) s
  some { s with accountObjectsDirty := [] }

/-- A trie operation that cannot fail but for a panic. -/
def orPanic {α : Type} : Except TrieErr α → Option α
  | .ok a => some a
  | .error _ => none

/-- `IntermediateSpaceRoot`. -/
def intermediateSpaceRoot (deleteEmptyObjects : Bool) (s : StateDB) : Option (Hash × StateDB) := do
  let s ← s.spaceFinalise keccak ord get deleteEmptyObjects
  let (root, trieSpace) ← orPanic (s.trieSpace.hash keccak)
  some (root, { s with trieSpace })

/-- `IntermediateAccountRoot`. -/
def intermediateAccountRoot (deleteEmptyObjects : Bool) (s : StateDB) :
    Option (Hash × StateDB) := do
  let s ← s.accountFinalise keccak ord get deleteEmptyObjects
  let (root, trieAccount) ← orPanic (s.trieAccount.hash keccak)
  some (root, { s with trieAccount })

/-- `IntermediateRoot`: the roots of the space trie and of the account trie. -/
def intermediateRoot (deleteEmptyObjects : Bool) (s : StateDB) :
    Option ((Hash × Hash) × StateDB) := do
  let (rootSpace, s) ← s.intermediateSpaceRoot keccak ord get deleteEmptyObjects
  let (rootAccount, s) ← s.intermediateAccountRoot keccak ord get deleteEmptyObjects
  some ((rootSpace, rootAccount), s)

/-- The result of `CommitTo`. -/
structure Committed where
  rootSpace : Hash
  rootAccount : Hash
  state : StateDB
  db : Db

/-- `CommitTo`: the space trie is written before the account trie is brought up to date. -/
def commitTo (s : StateDB) (db : Db) : Option Committed := do
  let s ← s.spaceFinalise keccak ord db.nodes true
  let (rootSpace, trieSpace, ws) ← orPanic (s.trieSpace.commitTo keccak)
  let db := db.putAll ws
  let s ← { s with trieSpace }.accountFinalise keccak ord db.nodes true
  let (rootAccount, trieAccount, ws) ← orPanic (s.trieAccount.commitTo keccak)
  some ⟨rootSpace, rootAccount, { s with trieAccount }, db.putAll ws⟩

/-! ## A state without changes -/

theorem foldlM_perm_nil {α σ : Type} {order : List α → List α} (hperm : ∀ l, (order l).Perm l)
    (f : σ → α → Option σ) (s : σ) : (order []).foldlM f s = some s := by
  rw [List.perm_nil.mp (hperm [])]
  rfl

/-- Nothing is dirty and both tries are clean. -/
structure Untouched (s : StateDB) (rootSpace rootAccount : Hash) : Prop where
  space : s.trieSpace.trie.Clean rootSpace
  account : s.trieAccount.trie.Clean rootAccount
  spaceDirty : s.spaceObjectsDirty = []
  accountDirty : s.accountObjectsDirty = []

variable {rootSpace rootAccount : Hash} {s : StateDB}

variable {keccak get} in
theorem untouched_new (h : State.new get rootSpace rootAccount = .ok s) :
    s.Untouched (openedRoot rootSpace) (openedRoot rootAccount) := by
  unfold State.new SecureTrie.newSecure at h
  cases hs : Trie.new get 0 rootSpace with
  | error e =>
    rw [hs] at h
    cases h
  | ok ts =>
    cases ha : Trie.new get 0 rootAccount with
    | error e =>
      rw [hs, ha] at h
      cases h
    | ok ta =>
      rw [hs, ha] at h
      cases h
      exact ⟨Trie.clean_new hs, Trie.clean_new ha, rfl, rfl⟩

variable {keccak get} in
/-- Looking an account up changes nothing. -/
theorem Untouched.getAccountObject {s' : StateDB} {addr : Address} {r : Lookup AccountObject}
    (hs : s.Untouched rootSpace rootAccount)
    (h : s.getAccountObject keccak get addr = some (r, s')) :
    s'.Untouched rootSpace rootAccount := by
  unfold StateDB.getAccountObject at h
  split at h
  · cases h
    exact hs
  split at h
  · cases h
  · cases h
    exact hs
  · next enc t ht =>
    have hclean : t.trie.Clean rootAccount := by
      unfold SecureTrie.tryGet at ht
      cases hn : s.trieAccount.trie.tryGet get (keccak addr.bytes).bytes with
      | error e =>
        rw [hn] at ht
        cases ht
      | ok x =>
        rw [hn] at ht
        cases ht
        exact hs.account.tryGet hn
    have hs' : { s with trieAccount := t }.Untouched rootSpace rootAccount :=
      ⟨hs.space, hclean, hs.spaceDirty, hs.accountDirty⟩
    simp only at h
    split at h
    · cases h
      exact hs'
    · split at h
      · cases h
        exact hs'
      · cases h
        exact ⟨hs'.space, hs'.account, hs'.spaceDirty, hs'.accountDirty⟩

/-- **A state without changes commits to the roots it has.** -/
theorem Untouched.commitTo (hs : s.Untouched rootSpace rootAccount) (db : Db) :
    ∃ c, s.commitTo keccak ord db = some c ∧ c.rootSpace = rootSpace ∧
      c.rootAccount = rootAccount := by
  obtain ⟨ts, hts⟩ : ∃ t', s.trieSpace.trie.commitTo keccak = .ok (rootSpace, t', []) :=
    hs.space.commitTo
  obtain ⟨ta, hta⟩ : ∃ t', s.trieAccount.trie.commitTo keccak = .ok (rootAccount, t', []) :=
    hs.account.commitTo
  simp only [StateDB.commitTo, spaceFinalise, accountFinalise, hs.spaceDirty, hs.accountDirty,
    foldlM_perm_nil ord.spaces_perm, foldlM_perm_nil ord.accounts_perm, SecureTrie.commitTo, hts,
    hta, some_bind, orPanic]
  exact ⟨_, rfl, rfl, rfl⟩

end StateDB

end Gocoin.State
