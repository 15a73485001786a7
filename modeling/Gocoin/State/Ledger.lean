import Gocoin.State.Operations

/-!
# State/Ledger — the balances a state shows

The ledger of a state has the balance of every account that is there.  Moves that edit no balance
leave it as it is, except that they may open an account with nothing on it.  An operation on an
account changes one entry, in the way it changes the book (`Reaches.ledger`).
-/

namespace Gocoin.State

open Trie
open Function (update update_self update_of_ne)

/-- The balances of the accounts that are there. -/
def StateDB.ledger (H : HashFn) (C : Contents) (s : StateDB) (addr : Address) : Option ℤ :=
  match s.accountAt H C addr with
  | .found obj => some obj.data.balance
  | _ => none

variable {H : HashFn} {get : Nodes} {C : Contents} {K : ℕ → Prop}
  {E : Edits} {s s' : StateDB} {addr : Address}

theorem ledger_congr (h : s'.accountObjects addr = s.accountObjects addr) :
    s'.ledger H C addr = s.ledger H C addr := by
  unfold StateDB.ledger
  rw [accountAt_congr h]

theorem ledger_of_cached {obj : AccountObject} (h : s.accountObjects addr = some obj) :
    s.ledger H C addr = some obj.data.balance := by
  unfold StateDB.ledger StateDB.accountAt
  rw [h]

/-! ## The ledger of a book -/

/-- The balances a book has. -/
def Book.ledger (B : Book) (addr : Address) : Option ℤ :=
  match B.account addr with
  | .found h => some h.balance
  | _ => none

/-- The ledger is read off the book. -/
theorem ledger_eq_book (s : StateDB) : s.ledger H C = (s.book H C).ledger := by
  funext addr
  rw [StateDB.ledger, Book.ledger, book_account_eq rfl]
  cases s.accountAt H C addr <;> rfl

namespace Book

variable {B : Book} {h : Holder} {g : Holder → Holder} {z : ℤ → ℤ}

theorem ledger_setAccount :
    (B.setAccount addr h).ledger = update B.ledger addr (some h.balance) := by
  funext b
  by_cases hb : b = addr
  · subst hb
    rw [update_self, ledger, account_setAccount_self]
  · rw [update_of_ne hb, ledger, account_setAccount_of_ne hb, ledger]

/-- A change of an account changes its entry, if there is one. -/
theorem ledger_onAccount (hg : ∀ h, (g h).balance = z h.balance) :
    (B.onAccount addr g).ledger = update B.ledger addr ((B.ledger addr).map z) := by
  cases ha : B.account addr with
  | found h =>
    have hl : B.ledger addr = some h.balance := by rw [ledger, ha]
    rw [onAccount_of_found ha, ledger_setAccount, hl, hg]
    rfl
  | _ =>
    have hl : B.ledger addr = none := by rw [ledger, ha]
    rw [onAccount, ha, hl]
    exact (Function.update_eq_self_iff.mpr hl.symm).symm

/-- A change that keeps the balance keeps the ledger. -/
theorem ledger_onAccount_of_eq (hg : ∀ h, (g h).balance = h.balance) :
    (B.onAccount addr g).ledger = B.ledger := by
  rw [ledger_onAccount (z := id) hg, Option.map_id, id, Function.update_eq_self]

end Book

/-- **What an operation on an account does to the ledger.** -/
theorem Reaches.ledger {g : Holder → Holder} {z : ℤ → ℤ}
    (hr : Reaches H get C K True E s s' ((s.book H C).onAccount addr g))
    (hg : ∀ h, (g h).balance = z h.balance) :
    s'.ledger H C
      = update (s.ledger H C) addr ((s.ledger H C addr).map z) := by
  rw [ledger_eq_book, hr.book trivial, Book.ledger_onAccount hg, ledger_eq_book]

/-- An object put into the cache is what its account shows. -/
theorem ledger_setAccountObject (s : StateDB) (obj : AccountObject) :
    (s.setAccountObject obj).ledger H C
      = update (s.ledger H C) obj.address (some obj.data.balance) := by
  rw [ledger_eq_book, book_setAccountObject, Book.ledger_setAccount, ledger_eq_book]
  rfl

theorem ledger_touchAccount (s : StateDB) (obj : AccountObject) :
    (s.touchAccount obj).ledger H C
      = update (s.ledger H C) obj.address (some obj.data.balance) := by
  rw [ledger_eq_book, book_touchAccount, Book.ledger_setAccount, ledger_eq_book]
  rfl

theorem ledger_touchSpace (s : StateDB) (obj : SpaceObject) :
    (s.touchSpace obj).ledger H C = s.ledger H C :=
  funext fun b => ledger_congr (congrFun (accountObjects_touchSpace s obj) b)

/-! ## Moves -/

/-- **A move that edits no balance** keeps the balances, or opens an account. -/
theorem Good.ledger_move (h : Good H get C K s)
    (hE : ∀ obj obj', E.account obj obj' → obj'.data.balance = obj.data.balance)
    (hm : Move H get C K E s s') (b : Address) :
    s'.ledger H C b = s.ledger H C b ∨
      E.create b ∧ s.ledger H C b = none ∧ s'.ledger H C b = some 0 := by
  cases hm with
  | trieAccount | trieSpace | readSpace | newSpace => exact .inl (ledger_congr rfl)
  | @readAccount addr obj hc hr =>
    left
    obtain rfl := (address_of_readAccount hr).1
    rw [ledger_setAccountObject]
    by_cases hb : b = obj.address
    · subst hb
      rw [update_self, StateDB.ledger, StateDB.accountAt, hc, hr]
    · rw [update_of_ne hb]
  | @newAccount addr w hc hr hcr =>
    rw [ledger_setAccountObject]
    by_cases hb : b = addr
    · subst hb
      refine .inr ⟨hcr, ?_, update_self ..⟩
      rw [StateDB.ledger, StateDB.accountAt, hc, hr]
    · exact .inl (update_of_ne hb ..)
  | @editAccount addr obj obj' hc ha hd hid hEd =>
    left
    rw [ledger_touchAccount, ha, h.accountKey addr obj hc, hE _ _ hEd]
    exact congrFun (Function.update_eq_self_iff.mpr (ledger_of_cached hc).symm) b
  | editSpace => exact .inl (congrFun (ledger_touchSpace _ _) b)

section

variable (hK : AllowsStored H C K) (h : Good H get C K s)
include hK h

theorem Good.ledger_moves
    (hE : ∀ obj obj', E.account obj obj' → obj'.data.balance = obj.data.balance)
    (hm : Moves H get C K E s s') (b : Address) :
    s'.ledger H C b = s.ledger H C b ∨
      E.create b ∧ s.ledger H C b = none ∧ s'.ledger H C b = some 0 := by
  induction hm with
  | refl => exact .inl rfl
  | @tail s₁ s₂ hm hstep ih =>
    rcases (h.moves hK hm).ledger_move hE hstep b with heq | ⟨hcr, hnone, hzero⟩
    · rwa [heq]
    · rcases ih with heq | ⟨-, -, hsome⟩
      · exact .inr ⟨hcr, by rw [← heq, hnone], hzero⟩
      · rw [hsome] at hnone
        cases hnone

/-- Accounts whose stored form cannot be read are never cached. -/
theorem Good.uncached_of_failed (hm : Moves H get C K E s s')
    (hfail : C.storedAccount H addr = .failed) (hc : s.accountObjects addr = none) :
    s'.accountObjects addr = none := by
  have hset : ∀ {s : StateDB} {obj : AccountObject}, addr ≠ obj.address →
      s.accountObjects addr = none → (s.setAccountObject obj).accountObjects addr = none :=
    fun hne hnone => by
      rw [← hnone]
      exact update_of_ne hne ..
  induction hm with
  | refl => exact hc
  | @tail s₁ s₂ hm hstep ih =>
    cases hstep with
    | trieAccount | trieSpace | readSpace | newSpace => exact ih
    | @readAccount b obj hcb hr =>
      refine hset (fun he => ?_) ih
      rw [he, (address_of_readAccount hr).1, hr] at hfail
      cases hfail
    | @newAccount b w hcb hr =>
      refine hset (fun he => ?_) ih
      rw [show addr = b from he, hr] at hfail
      cases hfail
    | @editAccount b obj obj' hcb ha =>
      have hg := h.moves hK hm
      rw [accountObjects_touchAccount, ha, hg.accountKey b obj hcb, update_of_ne fun he => ?_, ih]
      rw [← he, ih] at hcb
      cases hcb
    | editSpace =>
      rw [accountObjects_touchSpace]
      exact ih

/-- **Moves that edit no space's balance** keep the balance of a cached space. -/
theorem Good.space_balance_moves
    (hE : ∀ obj obj', E.space obj obj' → obj'.data.balance = obj.data.balance)
    (hm : Moves H get C K E s s') {i : UInt64} {obj : SpaceObject}
    (hc : s.spaceObjects i = some obj) :
    ∃ obj', s'.spaceObjects i = some obj' ∧ obj'.data.balance = obj.data.balance := by
  induction hm with
  | refl => exact ⟨obj, hc, rfl⟩
  | @tail s₁ s₂ hm hstep ih =>
    obtain ⟨obj₁, hc₁, hbal⟩ := ih
    have hg := h.moves hK hm
    cases hstep with
    | trieAccount | trieSpace | readAccount | newAccount => exact ⟨obj₁, hc₁, hbal⟩
    | @readSpace id o hid hco hr =>
      refine ⟨obj₁, ?_, hbal⟩
      rw [← hc₁]
      refine update_of_ne (fun he => ?_) ..
      rw [he, (id_of_readSpace hr).1, hco] at hc₁
      cases hc₁
    | @newSpace id hid hco hr =>
      refine ⟨obj₁, ?_, hbal⟩
      rw [← hc₁]
      refine update_of_ne (fun he => ?_) ..
      rw [show i = u64 id from he, hco] at hc₁
      cases hc₁
    | editAccount =>
      rw [spaceObjects_touchAccount]
      exact ⟨obj₁, hc₁, hbal⟩
    | @editSpace j o o' hco hi hd hEd =>
      rw [spaceObjects_touchSpace, hi, hg.spaceKey j o hco]
      by_cases hij : i = j
      · subst hij
        obtain rfl := Option.some.inj (hc₁.symm.trans hco)
        exact ⟨_, update_self .., (hE _ _ hEd).trans hbal⟩
      · exact ⟨obj₁, by rw [update_of_ne hij, hc₁], hbal⟩

/-- Moves that change only spaces keep the ledger. -/
theorem Good.ledger_of_spaces (hm : Moves H get C K .spaces s s') :
    s'.ledger H C = s.ledger H C := by
  funext b
  rcases h.ledger_moves hK (fun _ _ hE => False.elim hE) hm b with heq | ⟨hcr, -⟩
  · exact heq
  · exact hcr.elim

end

end Gocoin.State
