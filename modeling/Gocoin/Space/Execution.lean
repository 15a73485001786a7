import Gocoin.Space.Tally
import Gocoin.State.Persistence

/-!
# Space/Execution — executing a transaction on a good state

On a good state a transaction crashes only for what it is itself: an empty payload has no type, and
the first three types need a recipient.  Every other one returns, moves the state, and changes the
balances, and the book with its counters, as `Space/Tally` says (`exists_validateTransaction`).  The
book is spoken of when the allowed ids are small; the ledger is not limited so.
-/

namespace Gocoin

open State Trie

/-- The transaction crashes on every state. -/
def Tx.Crashes (tx : Tx) : Prop :=
  tx.ptype = none ∨ tx.recipient = none ∧ (tx.ptype = some .spaceCreation ∨
    tx.ptype = some .recharge ∨ tx.ptype = some .attrSet)

instance (tx : Tx) : Decidable tx.Crashes := inferInstanceAs (Decidable (_ ∨ _))

theorem Tx.exists_recipient {tx : Tx} (htx : ¬ tx.Crashes) (hp : tx.ptype = some .spaceCreation ∨
    tx.ptype = some .recharge ∨ tx.ptype = some .attrSet) : ∃ r, tx.recipient = some r :=
  Option.ne_none_iff_exists'.mp fun hnone => htx (.inr ⟨hnone, hp⟩)

namespace Space

section

variable {P : Prims} {get : Nodes} {C : Contents}

/-- Good, without a bound on the ids. -/
abbrev Healthy (P : Prims) (get : Nodes) (C : Contents) (s : StateDB) : Prop :=
  Good P.keccak get C (fun _ => True) s

/-- A run of moves, without a bound on the ids. -/
abbrev Goes (P : Prims) (get : Nodes) (C : Contents) (E : Edits) (s s' : StateDB) :
    Prop := Moves P.keccak get C (fun _ => True) E s s'

/-- Good, with ids below `2 ^ 64`. -/
abbrev Bounded (P : Prims) (get : Nodes) (C : Contents) (s : StateDB) : Prop :=
  Good P.keccak get C Small s

/-- The stored accounts are bound to ids below `2 ^ 64`. -/
abbrev StoresSmall (P : Prims) (C : Contents) : Prop := AllowsStored P.keccak C Small

variable {K : ℕ → Prop} {T : Prop} {s s' : StateDB} {acc : Totals} {db : Db} {E : Edits} {tx : Tx}
  {txs : List Tx}

theorem Healthy.goes (h : Healthy P get C s) (hm : Goes P get C E s s') :
    Healthy P get C s' := Good.moves (allowsStored_true _ _) h hm

/-- The stored form of an account cannot be read. -/
def broken (P : Prims) (C : Contents) (addr : Address) : Bool :=
  match C.storedAccount P.keccak addr with
  | .failed => true
  | _ => false

theorem storedAccount_of_broken {addr : Address} (h : broken P C addr = true) :
    C.storedAccount P.keccak addr = .failed := by
  unfold broken at h
  split at h
  · next hf => exact hf
  · cases h

/-- Broken accounts are not in the cache. -/
def Unbroken (P : Prims) (C : Contents) (s : StateDB) : Prop :=
  ∀ addr, broken P C addr = true → s.accountObjects addr = none

theorem Unbroken.moves (hu : Unbroken P C s) (hK : AllowsStored P.keccak C K)
    (h : Good P.keccak get C K s) (hm : Moves P.keccak get C K E s s') : Unbroken P C s' :=
  fun addr hb => h.uncached_of_failed hK hm (storedAccount_of_broken hb) (hu addr hb)

theorem Unbroken.goes (hu : Unbroken P C s) (h : Healthy P get C s) (hm : Goes P get C E s s') :
    Unbroken P C s' := hu.moves (allowsStored_true _ _) h hm

/-- Where nothing is stored, nothing is broken. -/
theorem unbroken_nothing (P : Prims) (s : StateDB) : Unbroken P .nothing s := nofun

/-- A crash is a crash on every state. -/
theorem validateTransaction_of_crashes (h : tx.Crashes) (db : Db) (acc : Totals) :
    validateTransaction P db acc tx = none := by
  unfold validateTransaction
  rcases h with hp | ⟨hr, hp | hp | hp⟩
  · rw [hp]
    rfl
  · simp only [hp, hr, createSpace, Option.bind_eq_bind, Option.bind_some, Option.bind_none]
  · simp only [hp, hr, recharge, Option.bind_eq_bind, Option.bind_some, Option.bind_none]
  · simp only [hp, hr, setAttr, Option.bind_eq_bind, Option.bind_some, Option.bind_none]

/-! ## Reports -/

section

variable (hK : AllowsStored P.keccak C K)
include hK

/-- A report charges its space, if there is one. -/
theorem exists_settleReport (h : Good P.keccak get C K s) {report : LiquidationReport}
    (hid : K report.spaceId) (hT : T → Small report.spaceId) :
    ∃ s', settleReport P get s report = some s' ∧
      Reaches P.keccak get C K T .spaces s s' (chargeReport (s.book P.keccak C) report) := by
  obtain ⟨s₁, hget, hl⟩ := h.exists_getSpaceObject report.spaceId fun _ _ => hid
  have hg₁ := h.moves hK hl.moves
  have hr₁ := hl.reaches (E := .spaces) hT
  have hsub : ∀ amount, ∃ s', s₁.subSpaceBalanceByID P.keccak get report.spaceId amount = some s' ∧
      Reaches P.keccak get C K T .spaces s s'
        ((s.book P.keccak C).onSpace (u64 report.spaceId) (.sub amount)) := fun amount => by
    obtain ⟨s', hs', hr⟩ := hg₁.exists_withSpace hK hid hT (editsSpace_subSpaceBalance amount)
    exact ⟨s', hs', hr₁.andThen (F := fun B => B.onSpace _ _) hr⟩
  unfold settleReport StateDB.getSpaceBalanceByID
  simp only [hget, Option.bind_eq_bind, Option.bind_some]
  cases hfound : s.spaceAt P.keccak C report.spaceId with
  | found sp =>
    have hcharge : T → chargeReport (s.book P.keccak C) report = (s.book P.keccak C).onSpace
        (u64 report.spaceId) (.sub (if report.gas < intU64 sp.data.balance then report.gas.toNat
          else sp.data.balance)) := fun ht => by
      have hsp : (s.book P.keccak C).space (u64 report.spaceId) = .found sp.data :=
        book_space_eq (hT ht) hfound
      rw [chargeReport, Book.onSpace_of_found hsp, Book.onSpace_of_found hsp]
      split <;> rfl
    rw [Option.bind_some]
    dsimp only
    split
    · next hlt =>
      obtain ⟨s', hs', hr⟩ := hsub report.gas.toNat
      exact ⟨s', hs', hr.congr fun ht => by rw [hcharge ht, if_pos hlt]⟩
    · next hlt =>
      obtain ⟨s', hs', hr⟩ := hsub sp.data.balance
      exact ⟨s', hs', hr.congr fun ht => by rw [hcharge ht, if_neg hlt]⟩
  | _ =>
    have hnot : T → ∀ f g, (s.book P.keccak C).onSpace (u64 report.spaceId) f
        = (s.book P.keccak C).onSpace (u64 report.spaceId) g := fun ht f g => by
      have hno : ∀ sp, (s.book P.keccak C).space (u64 report.spaceId) ≠ .found sp := fun sp => by
        rw [book_space_eq (hT ht) hfound]
        exact nofun
      rw [Book.onSpace_of_not hno, Book.onSpace_of_not hno]
    rw [Option.bind_some]
    dsimp only
    split
    all_goals
      obtain ⟨s', hs', hr⟩ := hsub _
      exact ⟨s', hs', hr.congr fun ht => hnot ht _ _⟩

variable (hT : T → ∀ id, K id → Small id)
include hT

/-- Settling stored reports charges them one after the other. -/
theorem exists_settleReports {reports : List LiquidationReport}
    (hids : ∀ report ∈ reports, K report.spaceId) (h : Good P.keccak get C K s) :
    ∃ s', reports.foldlM (settleReport P get) s = some s' ∧
      Reaches P.keccak get C K T .spaces s s' (reports.foldl chargeReport (s.book P.keccak C)) := by
  induction reports generalizing s with
  | nil => exact ⟨s, rfl, .refl s⟩
  | cons report reports ih =>
    have hid := hids report List.mem_cons_self
    obtain ⟨s₁, hs₁, hr₁⟩ := exists_settleReport hK h hid fun ht => hT ht _ hid
    obtain ⟨s₂, hs₂, hr₂⟩ :=
      ih (fun r hr => hids r (List.mem_cons_of_mem report hr)) (h.moves hK hr₁.moves)
    exact ⟨s₂, by rw [List.foldlM_cons, hs₁]; exact hs₂,
      hr₁.andThen (F := fun B => reports.foldl chargeReport B) hr₂⟩

/-! ## The cases of the switch -/

/-- A settlement charges the reports stored under its hash, and does nothing without any. -/
theorem exists_settle (h : Good P.keccak db.nodes C K acc.state)
    (hids : ∀ report ∈ reportsOf P db tx, K report.spaceId) :
    ∃ s', settle P db acc (tx.hash P) = some { acc with state := s' } ∧
      Reaches P.keccak db.nodes C K T .spaces acc.state s'
        ((reportsOf P db tx).foldl chargeReport (acc.state.book P.keccak C)) ∧
      (getLiquidation db (tx.hash P) = [] → s' = acc.state) := by
  unfold settle reportsOf at *
  dsimp only at hids ⊢
  split
  · next hlen =>
    have hne : getLiquidation db (tx.hash P) ≠ [] := List.ne_nil_of_length_pos hlen
    rw [if_pos hlen] at hids
    unfold liquidationToState
    cases hdec : decodeReports (getLiquidation db (tx.hash P)) with
    | none => exact ⟨acc.state, rfl, .refl _, fun _ => rfl⟩
    | some reports =>
      rw [hdec, Option.getD_some] at hids
      obtain ⟨s', hs', hr⟩ := exists_settleReports hK hT hids h
      simp only [hs', some_bind]
      exact ⟨s', rfl, hr, fun hnil => absurd hnil hne⟩
  · exact ⟨acc.state, rfl, .refl _, fun _ => rfl⟩

/-- **A new space** empties the account of its recipient, which is there afterwards. -/
theorem exists_createSpace (h : Good P.keccak get C K acc.state) (hid : K acc.spaceid)
    (r : Address) :
    let made := (acc.state.book P.keccak C).createSpaceAndBindAddr (u64 acc.spaceid) acc.walletid r
    ∃ s', createSpace P get acc (some r) = some ⟨acc.spaceid + 1, made.1, acc.cost, s'⟩ ∧
      Moves P.keccak get C K .calm acc.state s' ∧
      (Unbroken P C acc.state → s'.ledger P.keccak C = if broken P C r
        then acc.state.ledger P.keccak C
        else Function.update (acc.state.ledger P.keccak C) r (some 0)) ∧
      (T → s'.book P.keccak C = made.2.onAccount r fun h => { h with balance := 0 }) := by
  intro made
  obtain ⟨s₁, hs₁, hr₁, hcached⟩ := h.exists_createSpaceAndBindAddr hK hT hid acc.walletid r
  have hg₁ := h.moves hK hr₁.moves
  obtain ⟨s₂, hs₂, hr₂⟩ := hg₁.exists_withAccount (T := True) hK r
    (editsAccount_setBalanceGas fun _ => 0)
  change s₁.setBalance P.keccak get r 0 = some s₂ at hs₂
  refine ⟨s₂, by simp only [createSpace, hs₁, hs₂, some_bind]; rfl,
    (hr₁.moves.mono (Edits.binding_le_calm r)).trans (hr₂.moves.mono Edits.accounts_le_calm),
    fun hu => ?_, fun ht => by rw [hr₂.book trivial, hr₁.book ht]⟩
  have hother : ∀ b, b ≠ r → s₁.ledger P.keccak C b = acc.state.ledger P.keccak C b := fun b hb =>
    (h.ledger_moves (E := .binding r) hK (fun _ _ hE => hE.1) hr₁.moves b).resolve_right
      fun hcr => hb hcr.1
  rw [hr₂.ledger (z := fun _ => 0) fun _ => rfl]
  split
  · next hb =>
    have hnone : ∀ {s : StateDB}, Unbroken P C s → s.ledger P.keccak C r = none := fun hu => by
      rw [StateDB.ledger, StateDB.accountAt, hu r hb, storedAccount_of_broken hb]
    rw [hnone (hu.moves hK h hr₁.moves)]
    funext b
    by_cases hbr : b = r
    · rw [hbr, Function.update_self, hnone hu]
      rfl
    · rw [Function.update_of_ne hbr, hother b hbr]
  · next hb =>
    obtain ⟨obj, hobj⟩ := hcached fun hfail => hb (by
      unfold StateDB.accountAt at hfail
      split at hfail
      · cases hfail
      · rw [broken, hfail])
    rw [ledger_of_cached hobj]
    funext b
    by_cases hbr : b = r
    · rw [hbr, Function.update_self, Function.update_self]
      rfl
    · rw [Function.update_of_ne hbr, Function.update_of_ne hbr, hother b hbr]

end

/-! ## A transaction -/

/-- What a transaction did: the moves, the moves when it was silent about spaces' balances, the
ledger, and — if `T` — the tally. -/
structure Did (P : Prims) (get : Nodes) (C : Contents) (K : ℕ → Prop) (T : Prop)
    (silent : Prop) (L : Ledger) (U : Tally) (acc acc' : Totals) : Prop where
  goes : Moves P.keccak get C K .all acc.state acc'.state
  calm : silent → Moves P.keccak get C K .calm acc.state acc'.state
  ledger : Unbroken P C acc.state → acc'.state.ledger P.keccak C = L
  tally : T → acc'.tally P C = U

/-- A transaction is silent about the balances of spaces unless it has a report. -/
def Silent (P : Prims) (db : Db) (tx : Tx) : Prop :=
  tx.ptype = some .stellReport → getLiquidation db (tx.hash P) = []

theorem did_of_accounts (acc : Totals) {silent : Prop} {c : ℤ} {B : Book} {L : Ledger}
    (hr : Reaches P.keccak get C K True .accounts acc.state s' B) (hL : B.ledger = L) :
    Did P get C K T silent L { acc.tally P C with book := B } acc
      { acc with cost := c, state := s' } where
  goes := hr.moves.all
  calm := fun _ => hr.moves.mono Edits.accounts_le_calm
  ledger := fun _ => by rw [ledger_eq_book, hr.book trivial, hL]
  tally := fun _ => by rw [Totals.tally, hr.book trivial]; rfl

/-- The cost is taken from the sender, after what was done to the recipient. -/
theorem exists_chargeSender (hK : AllowsStored P.keccak C K) (h : Good P.keccak get C K s)
    {s₁ : StateDB} {B : Book} (hr : Reaches P.keccak get C K True .accounts s s₁ B) (tx : Tx) :
    ∃ s₂, s₁.subBalance P.keccak get (tx.senderOrZero P) tx.cost = some s₂ ∧
      Reaches P.keccak get C K True .accounts s s₂ (chargeSender P tx B) := by
  obtain ⟨s₂, hs₂, hr₂⟩ := (h.moves hK hr.moves).exists_withAccount hK (tx.senderOrZero P)
    (editsAccount_subBalanceGas tx.cost)
  exact ⟨s₂, hs₂, hr.andThen (F := chargeSender P tx) hr₂⟩

theorem ledger_chargeSender (tx : Tx) (B : Book) :
    (chargeSender P tx B).ledger = Ledger.debit B.ledger (tx.senderOrZero P) tx.cost :=
  Book.ledger_onAccount fun _ => rfl

/-- **A transaction that does not crash of itself returns**, moves the state without touching the
balance of a space — a settlement report apart — and changes the ledger and the tally as
`ledgerAfter` and `tallyAfter` say. -/
theorem exists_validateTransaction (hK : AllowsStored P.keccak C K)
    (hT : T → ∀ id, K id → Small id) (h : Good P.keccak db.nodes C K acc.state)
    (htx : ¬ tx.Crashes) (hids : UsesIds K P db acc.spaceid tx) :
    ∃ acc', validateTransaction P db acc tx = some acc' ∧
      Did P db.nodes C K T (Silent P db tx)
        (ledgerAfter P (broken P C) (acc.state.ledger P.keccak C) tx)
        (tallyAfter P (reportsOf P db tx) (acc.tally P C) tx) acc acc' := by
  let acc₀ : Totals := { acc with cost := acc.cost + tx.cost }
  have h₀ : Good P.keccak db.nodes C K acc₀.state := h
  have hpay : ∀ silent, ∃ acc', payCost P db.nodes acc₀ (tx.senderOrZero P) tx.cost = some acc' ∧
      Did P db.nodes C K T silent
        (Ledger.debit (acc.state.ledger P.keccak C) (tx.senderOrZero P) tx.cost)
        { acc.tally P C with book := chargeSender P tx (acc.state.book P.keccak C) } acc acc' :=
    fun _ => by
      obtain ⟨s', hs', hr⟩ := exists_chargeSender hK h₀ (.refl _) tx
      refine ⟨{ acc₀ with state := s' }, by rw [payCost, hs']; rfl, did_of_accounts acc hr ?_⟩
      rw [ledger_chargeSender, ledger_eq_book]
  have hkeep : ∀ silent, ∃ acc', some acc₀ = some acc' ∧ Did P db.nodes C K T silent
      (acc.state.ledger P.keccak C) (acc.tally P C) acc acc' := fun _ =>
    ⟨acc₀, rfl, .refl, fun _ => .refl, fun _ => rfl, fun _ => rfl⟩
  have hr := Tx.exists_recipient htx
  unfold validateTransaction ledgerAfter tallyAfter
  cases hp : tx.ptype with
  | none => exact absurd (.inl hp) htx
  | some kind =>
    cases kind with
    | createGroup | publishCoin | epochSigTx | applyGroup | stellGroup | coinGroup
      | transactionGroup => exact hpay _
    | epochTx | other => exact hkeep _
    | stellReport =>
      obtain ⟨s', hs', hr, hsame⟩ := exists_settle hK hT h₀ (hids.reported hp)
      refine ⟨_, hs', hr.moves.all, fun hsilent => ?_, fun _ => h.ledger_of_spaces hK hr.moves,
        fun ht => by rw [Totals.tally, hr.book ht]; rfl⟩
      rw [hsame (hsilent hp)]
    | spaceCreation =>
      obtain ⟨r, hr⟩ := hr (.inl hp)
      rw [hr]
      obtain ⟨s', hs', hm, hl, hbook⟩ := exists_createSpace hK hT h₀ (hids.created hp) r
      exact ⟨_, hs', hm.all, fun _ => hm, hl, fun ht => by rw [Totals.tally, hbook ht]; rfl⟩
    | recharge =>
      obtain ⟨r, hr⟩ := hr (.inr (.inl hp))
      rw [hr]
      obtain ⟨s₁, hs₁, hr₁⟩ := h₀.exists_withAccount (T := True) hK r
        (editsAccount_addBalanceGas tx.amount)
      change acc.state.addBalance P.keccak db.nodes r tx.amount = some s₁ at hs₁
      obtain ⟨s₂, hs₂, hr₂⟩ := exists_chargeSender hK h₀ hr₁ tx
      refine ⟨{ acc₀ with state := s₂ }, ?_, did_of_accounts acc hr₂ ?_⟩
      · simp only [recharge, hs₁, hs₂, some_bind]
        rfl
      · rw [ledger_chargeSender, Book.ledger_onAccount (z := fun z => z + tx.amount) fun _ => rfl,
          ledger_eq_book]
        rfl
    | attrSet =>
      obtain ⟨r, hr⟩ := hr (.inr (.inr hp))
      rw [hr]
      obtain ⟨s₁, hs₁, hr₁⟩ := h₀.exists_withAccount (T := True) hK r
        (editsAccount_setObjAttribute (decodeAttr tx.payload.tail).k (decodeAttr tx.payload.tail).v)
      change acc.state.setAttribute P.keccak db.nodes r _ _ = some s₁ at hs₁
      obtain ⟨s₂, hs₂, hr₂⟩ := exists_chargeSender hK h₀ hr₁ tx
      refine ⟨{ acc₀ with state := s₂ }, ?_, did_of_accounts acc hr₂ ?_⟩
      · simp only [setAttr, hs₁, hs₂, some_bind]
        rfl
      · rw [ledger_chargeSender, Book.ledger_onAccount_of_eq, ledger_eq_book]
        · rfl
        · exact fun _ => rfl

/-- Without a bound on the ids the ledger is known. -/
theorem Healthy.exists_validateTransaction (hdb : db.nodes = get) (h : Healthy P get C acc.state)
    (htx : ¬ tx.Crashes) :
    ∃ acc', validateTransaction P db acc tx = some acc' ∧
      Did P get C (fun _ => True) False (Silent P db tx)
        (ledgerAfter P (broken P C) (acc.state.ledger P.keccak C) tx)
        (tallyAfter P (reportsOf P db tx) (acc.tally P C) tx) acc acc' := by
  subst hdb
  exact Space.exists_validateTransaction (allowsStored_true _ _) False.elim h htx
    ⟨fun _ => trivial, fun _ _ _ => trivial⟩

/-! ## A list of transactions -/

/-- A list with a crashing transaction crashes. -/
theorem validateAll_of_crashes (h : ∃ tx ∈ txs, tx.Crashes) (db : Db) (acc : Totals) :
    validateAll P db acc txs = none := by
  induction txs generalizing acc with
  | nil => simp at h
  | cons tx txs ih =>
    rw [validateAll_cons]
    by_cases hc : tx.Crashes
    · rw [validateTransaction_of_crashes hc]
      rfl
    · have htail : ∃ tx ∈ txs, tx.Crashes := by simpa [hc] using h
      cases validateTransaction P db acc tx with
      | none => rfl
      | some acc' => exact ih htail acc'

/-- **Every other list returns**, with the ledger it says. -/
theorem Healthy.exists_validateAll (hdb : db.nodes = get) (h : Healthy P get C acc.state)
    (hu : Unbroken P C acc.state) (htxs : ∀ tx ∈ txs, ¬ tx.Crashes) :
    ∃ acc', validateAll P db acc txs = some acc' ∧ Goes P get C .all acc.state acc'.state ∧
      acc'.state.ledger P.keccak C
        = txs.foldl (ledgerAfter P (broken P C)) (acc.state.ledger P.keccak C) := by
  induction txs generalizing acc with
  | nil => exact ⟨acc, rfl, .refl, rfl⟩
  | cons tx txs ih =>
    obtain ⟨acc₁, hacc₁, hdid⟩ := h.exists_validateTransaction hdb (htxs tx List.mem_cons_self)
    obtain ⟨acc₂, hacc₂, hm, hl⟩ := ih (h.goes hdid.goes) (hu.goes h hdid.goes)
      fun tx' h' => htxs tx' (List.mem_cons_of_mem _ h')
    refine ⟨acc₂, by rw [validateAll_cons, hacc₁, Option.bind_some, hacc₂], hdid.goes.trans hm, ?_⟩
    rw [hl, hdid.ledger hu, List.foldl_cons]

end

end Space

end Gocoin
