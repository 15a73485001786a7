import Gocoin.State.Persistence

/-!
# State/Aliasing — when two space ids are told apart

The trie of spaces is keyed by whole ids, the cache by their low 64 bits.  A space that is cached
therefore answers for every id with the same low bits, whatever the trie has for it.  Calls for one
id leave alone what is read for another exactly when the two ids differ in their low 64 bits
(`spaces_apart_iff`).
-/

namespace Gocoin.State

open Trie

/-- The calls for one space: reading it, making it, and changing its balance, by its id or through
an account. -/
inductive SpaceCall where
  | read
  | create
  | add (amount : ℤ)
  | sub (amount : ℤ)
  | addBy (addr : Address) (amount : ℤ)
  | subBy (addr : Address) (amount : ℤ)
  | setBy (addr : Address) (amount : ℤ)

namespace SpaceCall

/-- The account a call goes through. -/
def addr? : SpaceCall → Option Address
  | addBy addr _ | subBy addr _ | setBy addr _ => some addr
  | _ => none

section

variable (H : HashFn) (get : Nodes)

/-- A call, for the space with this id. -/
def run (id : ℕ) (s : StateDB) : SpaceCall → Option StateDB
  | read => (s.getSpaceBalanceByID H get id).map Prod.snd
  | create => (s.createSpaceObject H get id).map Prod.snd
  | add amount => s.addSpaceBalanceByID H get id amount
  | sub amount => s.subSpaceBalanceByID H get id amount
  | addBy addr amount => s.addSpaceBalanceByAddress H get addr amount
  | subBy addr amount => s.subSpaceBalanceByAddress H get addr amount
  | setBy addr amount => s.setSpaceBalanceByAddress H get addr amount

end

/-- The call is one for the space with this id: an account it goes through is bound there. -/
def Concerns (H : HashFn) (C : Contents) (s : StateDB) (id : ℕ) (c : SpaceCall) : Prop :=
  ∀ addr ∈ c.addr?, ∀ obj, s.accountAt H C addr = .found obj → obj.data.bindSpaceId = id

end SpaceCall

/-- Every id is allowed. -/
abbrev AnyId (_ : ℕ) : Prop := True

section Apart

variable {H : HashFn} {get : Nodes} {C : Contents} {id : ℕ}
  {s s' s'' : StateDB}

/-- What calls for one id leave alone: the cached spaces under other keys, and what is shown of the
accounts. -/
structure Apart (H : HashFn) (get : Nodes) (C : Contents) (id : ℕ)
    (s s' : StateDB) : Prop where
  good : Good H get C AnyId s'
  spaces : ∀ k ≠ u64 id, s'.spaceObjects k = s.spaceObjects k
  accounts : ∀ addr, s'.accountAt H C addr = s.accountAt H C addr

/-- A good state is good without a bound on the ids. -/
theorem Good.anyId {K : ℕ → Prop} (h : Good H get C K s) : Good H get C AnyId s :=
  { h with spaceId := fun _ _ _ => trivial, bind := fun _ _ _ => trivial }

theorem Apart.refl (h : Good H get C AnyId s) : Apart H get C id s s :=
  ⟨h, fun _ _ => rfl, fun _ => rfl⟩

theorem Apart.trans (h : Apart H get C id s s') (h' : Apart H get C id s' s'') :
    Apart H get C id s s'' :=
  ⟨h'.good, fun k hk => (h'.spaces k hk).trans (h.spaces k hk),
    fun addr => (h'.accounts addr).trans (h.accounts addr)⟩

/-- A lookup of the space. -/
theorem FindsSpace.apart (hl : FindsSpace H get C AnyId id s s')
    (h : Good H get C AnyId s) : Apart H get C id s s' :=
  ⟨h.moves (allowsStored_true H C) hl.moves, hl.others, hl.accountAt⟩

/-- A lookup of an account. -/
theorem FindsAccount.apart {addr : Address} (hl : FindsAccount H get C AnyId addr s s')
    (h : Good H get C AnyId s) : Apart H get C id s s' :=
  ⟨h.moves (allowsStored_true H C) hl.moves, fun k _ => congrFun hl.spaces k, hl.accountAt⟩

/-- A write through the pointer to the space. -/
theorem Good.apart_touchSpace (h : Good H get C AnyId s) {obj obj' : SpaceObject}
    (hc : s.spaceObjects (u64 id) = some obj) (hi : obj'.id = obj.id)
    (hd : obj'.onDirty = obj.onDirty) : Apart H get C id s (s.touchSpace obj') := by
  refine ⟨h.moves (allowsStored_true H C) (E := .all) (.single (.editSpace hc hi hd trivial)),
    fun k hk => ?_, fun b =>
      accountAt_congr (congrFun (accountObjects_touchSpace s obj') b)⟩
  rw [spaceObjects_touchSpace, hi, h.spaceKey _ obj hc, Function.update_of_ne hk]

/-- A method of the space. -/
theorem Good.apart_editSpace {f : StateDB → SpaceObject → StateDB} {g : Space → Space}
    (hf : EditsSpace f g) (h : Good H get C AnyId s) {obj : SpaceObject}
    (hc : s.spaceObjects (u64 id) = some obj) : Apart H get C id s (f s obj) := by
  obtain ⟨-, hf⟩ | ⟨obj', hi, hd, -, hf⟩ := hf obj
  · rw [hf]
    exact .refl h
  · rw [hf]
    exact h.apart_touchSpace hc hi hd

variable {f : StateDB → SpaceObject → StateDB} {g : Space → Space}

section

variable (h : Good H get C AnyId s)
include h

/-- An operation on the space. -/
theorem Good.apart_withSpace (id : ℕ) (hf : EditsSpace f g) :
    ∃ s', s.withSpace H get id f = some s' ∧ Apart H get C id s s' := by
  obtain ⟨s₁, hget, hl⟩ := h.exists_getSpaceObject id fun _ _ => trivial
  have hap := hl.apart h
  unfold StateDB.withSpace
  rw [hget, some_bind]
  cases hfound : s.spaceAt H C id with
  | found obj => exact ⟨_, rfl, hap.trans (hap.good.apart_editSpace hf ((hl.cache obj).mpr hfound))⟩
  | _ => exact ⟨_, rfl, hap⟩

theorem Good.apart_withSpaceOf {addr : Address}
    (haddr : ∀ obj, s.accountAt H C addr = .found obj → obj.data.bindSpaceId = id)
    (hf : EditsSpace f g) :
    ∃ s', s.withSpaceOf H get addr f = some s' ∧ Apart H get C id s s' := by
  obtain ⟨s₁, hget, hl⟩ := h.exists_getAccountObject addr
  have hap : Apart H get C id s s₁ := hl.apart h
  unfold StateDB.withSpaceOf StateDB.getSpaceObjectByAddr
  rw [hget, Option.bind_eq_bind, some_bind]
  cases hfound : s.accountAt H C addr with
  | found obj =>
    obtain ⟨s₂, hs₂, hap₂⟩ := hap.good.apart_withSpace id hf
    rw [← haddr obj hfound] at hs₂
    exact ⟨s₂, hs₂, hap.trans hap₂⟩
  | _ => exact ⟨_, rfl, hap⟩

/-- **A call for one id** runs, and leaves the rest alone. -/
theorem Good.apart_run {c : SpaceCall} (hc : c.Concerns H C s id) :
    ∃ s', c.run H get id s = some s' ∧ Apart H get C id s s' := by
  cases c with
  | read =>
    obtain ⟨s', hget, hl⟩ := h.exists_getSpaceObject id fun _ _ => trivial
    refine ⟨s', ?_, hl.apart h⟩
    simp only [SpaceCall.run, StateDB.getSpaceBalanceByID, hget, some_bind]
    cases s.spaceAt H C id <;> rfl
  | create =>
    obtain ⟨s₁, hget, hl⟩ := h.exists_getSpaceObject id fun _ _ => trivial
    have hap := hl.apart h
    simp only [SpaceCall.run, StateDB.createSpaceObject, hget, some_bind]
    have hnew : Apart H get C id s₁ (s₁.setSpaceObject (newSpaceObject id ⟨0, 0, []⟩)) :=
      ⟨hap.good.setSpaceObject trivial, fun k hk => Function.update_of_ne hk .., fun _ => rfl⟩
    cases s.spaceAt H C id with
    | found obj => exact ⟨s₁, rfl, hap⟩
    | _ => exact ⟨_, rfl, hap.trans hnew⟩
  | add amount => exact h.apart_withSpace id (editsSpace_addSpaceBalance amount)
  | sub amount => exact h.apart_withSpace id (editsSpace_subSpaceBalance amount)
  | addBy addr amount =>
    exact h.apart_withSpaceOf (hc addr rfl) (editsSpace_addSpaceBalance amount)
  | subBy addr amount =>
    exact h.apart_withSpaceOf (hc addr rfl) (editsSpace_subSpaceBalance amount)
  | setBy addr amount =>
    exact h.apart_withSpaceOf (hc addr rfl) (editsSpace_setSpaceBalance fun _ => amount)

/-- **A run of calls for one id.** -/
theorem Good.apart_runAll {calls : List SpaceCall} (hcalls : ∀ c ∈ calls, c.Concerns H C s id) :
    ∃ s', calls.foldlM (SpaceCall.run H get id) s = some s' ∧ Apart H get C id s s' := by
  induction calls generalizing s with
  | nil => exact ⟨s, rfl, .refl h⟩
  | cons c calls ih =>
    obtain ⟨hc, hcalls⟩ := List.forall_mem_cons.mp hcalls
    obtain ⟨s₁, hs₁, hap₁⟩ := h.apart_run hc
    obtain ⟨s₂, hs₂, hap₂⟩ := ih hap₁.good fun c' hc' addr ha obj hobj =>
      hcalls c' hc' addr ha obj (hap₁.accounts addr ▸ hobj)
    exact ⟨s₂, by rw [List.foldlM_cons, hs₁]; exact hs₂, hap₁.trans hap₂⟩

/-- What is read for an id depends on its own cache entry. -/
theorem Good.viewSpace_congr (h' : Good H get C AnyId s')
    (hsame : s'.spaceObjects (u64 id) = s.spaceObjects (u64 id)) :
    s'.viewSpace H get id = s.viewSpace H get id := by
  rw [h.viewSpace_eq trivial, h'.viewSpace_eq trivial, spaceAt_congr hsame]

end

end Apart

/-- A space that is made and given 5 is read for every id with the same low bits. -/
theorem exists_alias (H : HashFn) (get : Nodes) {i j : ℕ} (hij : u64 i = u64 j) :
    ∃ s, Good H get .nothing AnyId s ∧ s.viewSpace H get j = some ⟨0, []⟩ ∧
      ∃ s', [SpaceCall.create, .add 5].foldlM (SpaceCall.run H get i) s = some s' ∧
        s'.viewSpace H get j = some ⟨5, []⟩ := by
  have hstored : StoredAt H get emptyRoot fun _ => none := IsEmptyRoot.storedAt (.inl rfl)
  obtain ⟨s, -, hg, -, -, hcs⟩ := exists_new (C := .nothing) hstored hstored AnyId
  have hnone : ∀ id, s.spaceAt H .nothing id = .absent := fun id => by
    rw [StateDB.spaceAt, hcs]
    rfl
  obtain ⟨s₁, hget₁, hl₁⟩ := hg.exists_getSpaceObject i fun _ _ => trivial
  let made := s₁.setSpaceObject (newSpaceObject i ⟨0, 0, []⟩)
  have hmade : made.spaceObjects (u64 i) = some (newSpaceObject i ⟨0, 0, []⟩) :=
    Function.update_self ..
  have hcreate : SpaceCall.create.run H get i s = some made := by
    simp only [SpaceCall.run, StateDB.createSpaceObject, hget₁, hnone, some_bind]
    rfl
  have hadd : (SpaceCall.add 5).run H get i made
      = some (made.setSpaceBalance (newSpaceObject i ⟨0, 0, []⟩) (0 + 5)) := by
    simp only [SpaceCall.run, StateDB.addSpaceBalanceByID, StateDB.withSpace,
      StateDB.getSpaceObject, hmade, some_bind]
    rfl
  have hgood : Good H get .nothing AnyId made := (hl₁.apart hg).good.setSpaceObject trivial
  have hafter := hgood.apart_editSpace (editsSpace_setSpaceBalance fun _ => 0 + 5) hmade
  refine ⟨s, hg, ?_, made.setSpaceBalance (newSpaceObject i ⟨0, 0, []⟩) (0 + 5), ?_, ?_⟩
  · rw [hg.viewSpace_eq trivial, hnone]
    rfl
  · rw [List.foldlM_cons, hcreate, some_bind, List.foldlM_cons, hadd]
    rfl
  · have hkey : (made.setSpaceBalance (newSpaceObject i ⟨0, 0, []⟩) (0 + 5)).spaceObjects (u64 i)
        = some ⟨i, ⟨1, 5, []⟩, false⟩ := by
      rw [StateDB.setSpaceBalance, spaceObjects_touchSpace]
      exact Function.update_self ..
    rw [hafter.good.viewSpace_eq trivial, StateDB.spaceAt, ← hij, hkey]
    rfl

/-- **Spaces are told apart exactly by the low 64 bits of their ids.**  Every run of calls for one
id leaves what is read for another alone, in every state, exactly when the two differ modulo `2 ^
64`. -/
theorem spaces_apart_iff (H : HashFn) (get : Nodes) (i j : ℕ) :
    (∀ (C : Contents) (s : StateDB), Good H get C AnyId s →
      ∀ calls : List SpaceCall, (∀ c ∈ calls, c.Concerns H C s i) →
        ∃ s', calls.foldlM (SpaceCall.run H get i) s = some s' ∧
          s'.viewSpace H get j = s.viewSpace H get j) ↔
      i % 2 ^ 64 ≠ j % 2 ^ 64 := by
  have hkey : u64 i = u64 j ↔ i % 2 ^ 64 = j % 2 ^ 64 := by
    rw [← UInt64.toNat_inj, u64, u64, UInt64.toNat_ofNat', UInt64.toNat_ofNat']
  rw [Ne, ← hkey]
  constructor
  · intro hall hsame
    obtain ⟨s, hg, hbefore, s', hs', hafter⟩ := exists_alias H get hsame
    obtain ⟨s'', hs'', hview⟩ := hall _ s hg [.create, .add 5] fun c hc addr ha => by
      simp only [List.mem_cons, List.not_mem_nil, or_false] at hc
      rcases hc with rfl | rfl <;> cases ha
    obtain rfl := Option.some.inj (hs'.symm.trans hs'')
    rw [hbefore, hafter] at hview
    exact absurd (congrArg SpaceView.balance (Option.some.inj hview)) (by decide)
  · intro hne C s hg calls hcalls
    obtain ⟨s', hs', hap⟩ := hg.apart_runAll hcalls
    exact ⟨s', hs', hg.viewSpace_congr hap.good (hap.spaces _ fun h => hne h.symm)⟩

/-- The space 1 answers for the space `2 ^ 64 + 1`. -/
theorem spaces_alias :
    ∃ s ∈ sampleRun [],
      (∃ sp ∈ s.viewSpace Sample.keccak Db.empty.nodes (2 ^ 64 + 1), sp.balance = 0) ∧
      ∃ s' ∈ [SpaceCall.create, .add 5].foldlM (SpaceCall.run Sample.keccak Db.empty.nodes 1) s,
        ∃ sp ∈ s'.viewSpace Sample.keccak Db.empty.nodes (2 ^ 64 + 1), sp.balance = 5 := by
  decide +kernel

end Gocoin.State
