import Gocoin.State.Persistence

/-!
# State/Mirror — two states with the same objects

A state and its mirror have the same objects in their caches.  The mirror may have forgotten that
some of them have changed, and its tries may hold anything at the keys of the objects that the state
knows to have changed.  Those objects are cached, so they are never looked up in the tries: an
operation does the same to a state and to its mirror (`Mirrors.run`).
-/

namespace Gocoin.State

open Trie Fold

/-- The hash tells the keys of the two tries apart. -/
structure TellsApart (H : HashFn) (K : ℕ → Prop) : Prop where
  account : ∀ a b : Address, H a.bytes = H b.bytes → a = b
  space : ∀ m n, K m → K n → H (BigEndian.toBytes m) = H (BigEndian.toBytes n) → m = n

/-- The second state has the objects of the first; it may know fewer of the changes, and its tries
differ from those of the first at most at the keys of changed objects. -/
structure Mirrors (H : HashFn) (get : Nodes) (C C' : Contents)
    (K : ℕ → Prop) (s t : StateDB) : Prop where
  left : Good H get C K s
  right : Good H get C' K t
  accounts : t.accountObjects = s.accountObjects
  spaces : t.spaceObjects = s.spaceObjects
  accountDirty : ∀ addr ∈ t.accountObjectsDirty, addr ∈ s.accountObjectsDirty
  spaceDirty : ∀ i ∈ t.spaceObjectsDirty, i ∈ s.spaceObjectsDirty
  account : ∀ x, C'.account x = C.account x ∨
    ∃ addr, addr ∈ s.accountObjectsDirty ∧ H addr.bytes = x
  space : ∀ x, C'.space x = C.space x ∨
    ∃ i obj, i ∈ s.spaceObjectsDirty ∧ s.spaceObjects i = some obj ∧
      H (BigEndian.toBytes obj.id) = x

/-- Two results with states: the results are the same, the second state mirrors the first, and `P`
holds of the first. -/
def Mirrored (H : HashFn) (get : Nodes) (C C' : Contents) (K : ℕ → Prop)
    {α : Type} (P : α → StateDB → Prop) (p q : α × StateDB) : Prop :=
  p.1 = q.1 ∧ Mirrors H get C C' K p.2 q.2 ∧ P p.1 p.2

namespace Mirrors

variable {H : HashFn} {get : Nodes} {C C' : Contents} {K : ℕ → Prop}
  {s t : StateDB}

theorem refl (h : Good H get C K s) : Mirrors H get C C K s s :=
  ⟨h, h, rfl, rfl, fun _ h => h, fun _ h => h, fun _ => .inl rfl, fun _ => .inl rfl⟩

/-! ## Writing to both caches -/

variable {obj : AccountObject} {addr : Address} {id : ℕ}

theorem setAccountObject (h : Mirrors H get C C' K s t) (hK : K obj.data.bindSpaceId) :
    Mirrors H get C C' K (s.setAccountObject obj) (t.setAccountObject obj) :=
  { h with
    left := h.left.setAccountObject hK
    right := h.right.setAccountObject hK
    accounts := by rw [StateDB.setAccountObject, StateDB.setAccountObject, h.accounts] }

theorem setSpaceObject (h : Mirrors H get C C' K s t) {obj : SpaceObject} (hK : K obj.id)
    (hc : s.spaceObjects (u64 obj.id) = none) :
    Mirrors H get C C' K (s.setSpaceObject obj) (t.setSpaceObject obj) :=
  { h with
    left := h.left.setSpaceObject hK
    right := h.right.setSpaceObject hK
    spaces := by rw [StateDB.setSpaceObject, StateDB.setSpaceObject, h.spaces]
    space := fun x => by
      refine (h.space x).imp_right ?_
      rintro ⟨i, old, hi, hold, hx⟩
      have hne : i ≠ u64 obj.id := by
        rintro rfl
        rw [hc] at hold
        cases hold
      exact ⟨i, old, hi, (Function.update_of_ne hne _ _).trans hold, hx⟩ }

theorem touchAccount (h : Mirrors H get C C' K s t) {obj' : AccountObject}
    (hc : s.accountObjects addr = some obj) (ha : obj'.address = obj.address)
    (hK : K obj'.data.bindSpaceId) :
    Mirrors H get C C' K (s.touchAccount obj') (t.touchAccount obj') where
  left := h.left.touchAccount hc ha hK
  right := h.right.touchAccount (h.accounts ▸ hc) ha hK
  accounts := by rw [accountObjects_touchAccount, accountObjects_touchAccount, h.accounts]
  spaces := by rw [spaceObjects_touchAccount, spaceObjects_touchAccount, h.spaces]
  accountDirty := by
    intro b
    rw [mem_dirty_touchAccount, mem_dirty_touchAccount]
    exact Or.imp_right (h.accountDirty b)
  spaceDirty := by
    rw [spaceObjectsDirty_touchAccount, spaceObjectsDirty_touchAccount]
    exact h.spaceDirty
  account := by
    intro x
    refine (h.account x).imp_right ?_
    rintro ⟨b, hb, hx⟩
    exact ⟨b, (mem_dirty_touchAccount s obj').mpr (.inr hb), hx⟩
  space := by
    rw [spaceObjectsDirty_touchAccount, spaceObjects_touchAccount]
    exact h.space

theorem touchSpace (h : Mirrors H get C C' K s t) {i : UInt64} {obj obj' : SpaceObject}
    (hc : s.spaceObjects i = some obj) (hi : obj'.id = obj.id) :
    Mirrors H get C C' K (s.touchSpace obj') (t.touchSpace obj') where
  left := h.left.touchSpace hc hi
  right := h.right.touchSpace (h.spaces ▸ hc) hi
  accounts := by rw [accountObjects_touchSpace, accountObjects_touchSpace, h.accounts]
  spaces := by rw [spaceObjects_touchSpace, spaceObjects_touchSpace, h.spaces]
  accountDirty := by
    rw [accountObjectsDirty_touchSpace, accountObjectsDirty_touchSpace]
    exact h.accountDirty
  spaceDirty := by
    intro j
    rw [mem_dirty_touchSpace, mem_dirty_touchSpace]
    exact Or.imp_right (h.spaceDirty j)
  account := by
    rw [accountObjectsDirty_touchSpace]
    exact h.account
  space := by
    intro x
    refine (h.space x).imp_right ?_
    rintro ⟨j, old, hj, hold, hx⟩
    have hdirty := (mem_dirty_touchSpace s obj').mpr (.inr hj)
    rw [spaceObjects_touchSpace]
    by_cases hji : j = u64 obj'.id
    · have hold' : obj = old := by
        rw [hji, hi, h.left.spaceKey i obj hc] at hold
        exact Option.some.inj (hc.symm.trans hold)
      exact ⟨j, _, hdirty, by rw [hji, Function.update_self], by rw [← hx, ← hold', ← hi]⟩
    · exact ⟨j, old, hdirty, by rw [Function.update_of_ne hji, hold], hx⟩

/-- A method of a cached account. -/
theorem editAccount {f : StateDB → AccountObject → StateDB} {g : Holder → Holder}
    (hf : EditsAccount f g) (h : Mirrors H get C C' K s t)
    (hc : s.accountObjects addr = some obj) : Mirrors H get C C' K (f s obj) (f t obj) := by
  obtain ⟨-, hf⟩ | ⟨obj', ha, -, hb, -, hf⟩ := hf obj
  · rwa [hf, hf]
  · rw [hf, hf]
    exact h.touchAccount hc ha (hb ▸ h.left.bind addr obj hc)

/-- A method of a cached space. -/
theorem editSpace {f : StateDB → SpaceObject → StateDB} {g : Space → Space} (hf : EditsSpace f g)
    (h : Mirrors H get C C' K s t) {i : UInt64} {sp : SpaceObject}
    (hc : s.spaceObjects i = some sp) : Mirrors H get C C' K (f s sp) (f t sp) := by
  obtain ⟨-, hf⟩ | ⟨sp', hi, -, -, hf⟩ := hf sp
  · rwa [hf, hf]
  · rw [hf, hf]
    exact h.touchSpace hc hi

/-! ## Lookups -/

/-- An account that is not cached is stored alike. -/
theorem account_eq (h : Mirrors H get C C' K s t) (hinj : TellsApart H K)
    (hc : s.accountObjects addr = none) :
    C'.account (H addr.bytes) = C.account (H addr.bytes) := by
  rcases h.account (H addr.bytes) with heq | ⟨b, hb, hkey⟩
  · exact heq
  · obtain ⟨obj, hobj⟩ := h.left.accountDirty b hb
    rw [hinj.account b addr hkey, hc] at hobj
    cases hobj

theorem space_eq (h : Mirrors H get C C' K s t) (hinj : TellsApart H K) (hid : K id)
    (hc : s.spaceObjects (u64 id) = none) :
    C'.space (H (BigEndian.toBytes id)) = C.space (H (BigEndian.toBytes id)) := by
  rcases h.space (H (BigEndian.toBytes id)) with heq | ⟨i, obj, -, hobj, hkey⟩
  · exact heq
  · have hi := h.left.spaceKey i obj hobj
    rw [hinj.space obj.id id (h.left.spaceId i obj hobj) hid hkey] at hi
    rw [← hi, hc] at hobj
    cases hobj

/-- **A lookup of an account** finds the same in both states. -/
theorem getAccountObject (hK : AllowsStored H C K) (hinj : TellsApart H K)
    (h : Mirrors H get C C' K s t) (addr : Address) :
    Option.Rel (Mirrored H get C C' K fun r s =>
        ∀ obj, s.accountObjects addr = some obj ↔ r = .found obj)
      (s.getAccountObject H get addr) (t.getAccountObject H get addr) := by
  unfold StateDB.getAccountObject
  rw [congrFun h.accounts addr]
  cases hc : s.accountObjects addr with
  | some obj =>
    refine .some ⟨rfl, h, fun obj' => ?_⟩
    rw [hc, Option.some.injEq, Lookup.found.injEq]
  | none =>
    obtain ⟨t₁, ht₁, hm₁⟩ := SecureTrie.exists_tryGet h.left.account addr.bytes
    obtain ⟨t₂, ht₂, hm₂⟩ := SecureTrie.exists_tryGet h.right.account addr.bytes
    rw [h.account_eq hinj hc] at ht₂
    have hload : Mirrors H get C C' K { s with trieAccount := t₁ }
        { t with trieAccount := t₂ } :=
      { h with left := { h.left with account := hm₁ }, right := { h.right with account := hm₂ } }
    simp only [ht₁, ht₂]
    split
    · exact .some ⟨rfl, hload, fun obj => by simp [hc]⟩
    · next hlen =>
      cases hdec : Account.decode ((C.account (H addr.bytes)).getD []) with
      | none => exact .some ⟨rfl, hload, fun obj => by simp [hc]⟩
      | some acc =>
        have hstored : C.storedAccount H addr = .found (newAccountObject addr acc) := by
          rw [Contents.storedAccount, readAccount, if_neg hlen, hdec]
        refine .some ⟨rfl, hload.setAccountObject (hK.bind _ _ hstored), fun obj => ?_⟩
        simp [StateDB.setAccountObject, newAccountObject]

/-- **A lookup of a space** finds the same in both states. -/
theorem getSpaceObject (hinj : TellsApart H K) (h : Mirrors H get C C' K s t) (hid : K id) :
    Option.Rel (Mirrored H get C C' K fun r s =>
        ∀ obj, s.spaceObjects (u64 id) = some obj ↔ r = .found obj)
      (s.getSpaceObject H get id) (t.getSpaceObject H get id) := by
  unfold StateDB.getSpaceObject
  rw [congrFun h.spaces (u64 id)]
  cases hc : s.spaceObjects (u64 id) with
  | some obj =>
    refine .some ⟨rfl, h, fun obj' => ?_⟩
    rw [hc, Option.some.injEq, Lookup.found.injEq]
  | none =>
    obtain ⟨t₁, ht₁, hm₁⟩ := SecureTrie.exists_tryGet h.left.space (BigEndian.toBytes id)
    obtain ⟨t₂, ht₂, hm₂⟩ := SecureTrie.exists_tryGet h.right.space (BigEndian.toBytes id)
    rw [h.space_eq hinj hid hc] at ht₂
    have hload : Mirrors H get C C' K { s with trieSpace := t₁ } { t with trieSpace := t₂ } :=
      { h with left := { h.left with space := hm₁ }, right := { h.right with space := hm₂ } }
    simp only [ht₁, ht₂]
    split
    · exact .some ⟨rfl, hload, fun obj => by simp [hc]⟩
    · cases Space.decode ((C.space (H (BigEndian.toBytes id))).getD []) with
      | none => exact .some ⟨rfl, hload, fun obj => by simp [hc]⟩
      | some space =>
        refine .some ⟨rfl, hload.setSpaceObject hid hc, fun obj => ?_⟩
        simp [StateDB.setSpaceObject, newSpaceObject]

/-! ## Operations on one object -/

section Operations

variable (hK : AllowsStored H C K) (hinj : TellsApart H K)
  (h : Mirrors H get C C' K s t)
include hK hinj h

theorem withAccount (addr : Address) {f : StateDB → AccountObject → StateDB}
    {g : Holder → Holder} (hf : EditsAccount f g) :
    Option.Rel (Mirrors H get C C' K) (s.withAccount H get addr f)
      (t.withAccount H get addr f) := by
  unfold StateDB.withAccount
  refine rel_bind (h.getAccountObject hK hinj addr) ?_
  rintro ⟨r, s₁⟩ ⟨_, t₁⟩ ⟨rfl, h₁, hc⟩
  cases r with
  | found obj => exact .some (h₁.editAccount hf ((hc obj).mpr rfl))
  | _ => exact .some h₁

variable {id : ℕ} {f : StateDB → SpaceObject → StateDB} {g : Space → Space}

omit hK in
theorem withSpace (hid : K id) (hf : EditsSpace f g) :
    Option.Rel (Mirrors H get C C' K) (s.withSpace H get id f)
      (t.withSpace H get id f) := by
  unfold StateDB.withSpace
  refine rel_bind (h.getSpaceObject hinj hid) ?_
  rintro ⟨r, s₁⟩ ⟨_, t₁⟩ ⟨rfl, h₁, hc⟩
  cases r with
  | found obj => exact .some (h₁.editSpace hf ((hc obj).mpr rfl))
  | _ => exact .some h₁

theorem getSpaceObjectByAddr (addr : Address) :
    Option.Rel (Mirrored H get C C' K fun r s =>
        ∀ obj, r = .found obj → ∃ i, s.spaceObjects i = some obj)
      (s.getSpaceObjectByAddr H get addr) (t.getSpaceObjectByAddr H get addr) := by
  unfold StateDB.getSpaceObjectByAddr
  refine rel_bind (h.getAccountObject hK hinj addr) ?_
  rintro ⟨r, s₁⟩ ⟨_, t₁⟩ ⟨rfl, h₁, hc⟩
  cases r with
  | absent | failed => exact .some ⟨rfl, h₁, nofun⟩
  | found obj =>
    have hbind := h₁.left.bind addr obj ((hc obj).mpr rfl)
    refine rel_mono (h₁.getSpaceObject hinj hbind) ?_
    rintro ⟨r, s₂⟩ ⟨_, t₂⟩ ⟨rfl, h₂, hc₂⟩
    exact ⟨rfl, h₂, fun sp hr => ⟨_, (hc₂ sp).mpr hr⟩⟩

theorem withSpaceOf (addr : Address) (hf : EditsSpace f g) :
    Option.Rel (Mirrors H get C C' K) (s.withSpaceOf H get addr f)
      (t.withSpaceOf H get addr f) := by
  unfold StateDB.withSpaceOf
  refine rel_bind (h.getSpaceObjectByAddr hK hinj addr) ?_
  rintro ⟨r, s₁⟩ ⟨_, t₁⟩ ⟨rfl, h₁, hc⟩
  cases r with
  | found obj =>
    obtain ⟨i, hi⟩ := hc obj rfl
    exact .some (h₁.editSpace hf hi)
  | _ => exact .some h₁

/-! ## Binding accounts to spaces -/

omit hinj in
theorem unassociateSpaceAndAccount (i : UInt64) (addr : Address) :
    Option.Rel (Mirrors H get C C' K) (s.unassociateSpaceAndAccount i addr)
      (t.unassociateSpaceAndAccount i addr) := by
  unfold StateDB.unassociateSpaceAndAccount
  rw [congrFun h.accounts addr]
  cases hacc : s.accountObjects addr with
  | none => exact .none
  | some acc =>
    have h₁ : Mirrors H get C C' K (s.setSpaceID acc 0) (t.setSpaceID acc 0) :=
      h.touchAccount hacc rfl hK.zero
    simp only [some_bind, congrFun h₁.spaces i]
    cases hsp : (s.setSpaceID acc 0).spaceObjects i with
    | none => exact .none
    | some sp => exact .some (h₁.touchSpace hsp rfl)

theorem leaveSpace {addr : Address} {acc : AccountObject}
    (hacc : s.accountObjects addr = some acc) :
    Option.Rel (Mirrors H get C C' K) (s.leaveSpace H get acc)
      (t.leaveSpace H get acc) := by
  unfold StateDB.leaveSpace
  split
  · exact .some h
  · refine rel_bind (h.getSpaceObject hinj (h.left.bind addr acc hacc)) ?_
    rintro ⟨r, s₁⟩ ⟨_, t₁⟩ ⟨rfl, h₁, -⟩
    cases r with
    | found prev => exact h₁.unassociateSpaceAndAccount hK _ _
    | _ => exact .some h₁

theorem associateSpaceAndAccount (i : UInt64) (addr : Address) :
    Option.Rel (Mirrors H get C C' K) (s.associateSpaceAndAccount H get i addr)
      (t.associateSpaceAndAccount H get i addr) := by
  unfold StateDB.associateSpaceAndAccount
  rw [congrFun h.accounts addr]
  cases hacc : s.accountObjects addr with
  | none => exact .none
  | some acc =>
    refine rel_bind (h.leaveSpace hK hinj hacc) fun s₁ t₁ h₁ => ?_
    rw [congrFun h₁.accounts addr, congrFun h₁.spaces i]
    cases hacc₁ : s₁.accountObjects addr with
    | none => exact .none
    | some acc₁ =>
      cases hsp : s₁.spaceObjects i with
      | none => exact .none
      | some sp =>
        have h₂ : Mirrors H get C C' K (s₁.setSpaceID acc₁ sp.id) (t₁.setSpaceID acc₁ sp.id) :=
          h₁.touchAccount hacc₁ rfl (h₁.left.spaceId i sp hsp)
        simp only [some_bind, congrFun h₂.spaces i]
        cases hsp₂ : (s₁.setSpaceID acc₁ sp.id).spaceObjects i with
        | none => exact .none
        | some sp₂ => exact .some (h₂.touchSpace hsp₂ rfl)

theorem createAccountObject (walletid : UInt64) (addr : Address) :
    Option.Rel (Mirrored H get C C' K fun _ _ => True)
      (s.createAccountObject H get walletid addr)
      (t.createAccountObject H get walletid addr) := by
  unfold StateDB.createAccountObject
  refine rel_bind (h.getAccountObject hK hinj addr) ?_
  rintro ⟨r, s₁⟩ ⟨_, t₁⟩ ⟨rfl, h₁, -⟩
  cases r with
  | failed => exact .some ⟨rfl, h₁, trivial⟩
  | _ => exact .some ⟨rfl, h₁.setAccountObject hK.zero, trivial⟩

omit hK in
theorem createSpaceObject (hid : K id) :
    Option.Rel (Mirrored H get C C' K fun _ _ => True) (s.createSpaceObject H get id)
      (t.createSpaceObject H get id) := by
  unfold StateDB.createSpaceObject
  refine rel_bind (h.getSpaceObject hinj hid) ?_
  rintro ⟨r, s₁⟩ ⟨_, t₁⟩ ⟨rfl, h₁, hc⟩
  cases r with
  | found obj => exact .some ⟨rfl, h₁, trivial⟩
  | _ =>
    have hnone : s₁.spaceObjects (u64 id) = none := by
      rw [Option.eq_none_iff_forall_ne_some]
      intro obj hobj
      cases (hc obj).mp hobj
    exact .some ⟨rfl, h₁.setSpaceObject hid hnone, trivial⟩

theorem bindAddr (hid : K id) (walletid : UInt64) (addr : Address) :
    Option.Rel (Mirrored H get C C' K fun _ _ => True)
      (s.bindAddr H get id walletid addr) (t.bindAddr H get id walletid addr) := by
  unfold StateDB.bindAddr
  refine rel_bind (h.getSpaceObject hinj hid) ?_
  rintro ⟨space, s₁⟩ ⟨_, t₁⟩ ⟨rfl, h₁, -⟩
  cases space with
  | failed => exact .some ⟨rfl, h₁, trivial⟩
  | absent =>
    refine rel_bind (h₁.getAccountObject hK hinj addr) ?_
    rintro ⟨acc, s₂⟩ ⟨_, t₂⟩ ⟨rfl, h₂, -⟩
    cases acc with
    | found _ | absent => exact .some ⟨rfl, h₂, trivial⟩
    | failed =>
      refine rel_bind (h₂.createAccountObject hK hinj walletid addr) ?_
      rintro ⟨made, s₃⟩ ⟨_, t₃⟩ ⟨rfl, h₃, -⟩
      exact .some ⟨rfl, h₃, trivial⟩
  | found sp =>
    refine rel_bind (h₁.getAccountObject hK hinj addr) ?_
    rintro ⟨acc, s₂⟩ ⟨_, t₂⟩ ⟨rfl, h₂, -⟩
    cases acc with
    | absent => exact .some ⟨rfl, h₂, trivial⟩
    | found obj =>
      exact rel_bind (h₂.associateSpaceAndAccount hK hinj _ addr) fun s₃ t₃ h₃ =>
        .some ⟨rfl, h₃, trivial⟩
    | failed =>
      refine rel_bind (h₂.createAccountObject hK hinj walletid addr) ?_
      rintro ⟨made, s₃⟩ ⟨_, t₃⟩ ⟨rfl, h₃, -⟩
      cases made with
      | false => exact .some ⟨rfl, h₃, trivial⟩
      | true =>
        exact rel_bind (h₃.associateSpaceAndAccount hK hinj _ addr) fun s₄ t₄ h₄ =>
          .some ⟨rfl, h₄, trivial⟩

theorem unbindAddr (hid : K id) (addr : Address) :
    Option.Rel (Mirrors H get C C' K) (s.unbindAddr H get id addr)
      (t.unbindAddr H get id addr) := by
  unfold StateDB.unbindAddr
  refine rel_bind (h.getSpaceObject hinj hid) ?_
  rintro ⟨space, s₁⟩ ⟨_, t₁⟩ ⟨rfl, h₁, -⟩
  cases space with
  | absent | failed => exact .some h₁
  | found sp =>
    refine rel_bind (h₁.getAccountObject hK hinj addr) ?_
    rintro ⟨acc, s₂⟩ ⟨_, t₂⟩ ⟨rfl, h₂, -⟩
    cases acc with
    | found obj => exact h₂.unassociateSpaceAndAccount hK _ addr
    | _ => exact .some h₂

theorem createSpaceAndBindAddr (hid : K id) (walletid : UInt64) (addr : Address) :
    Option.Rel (Mirrored H get C C' K fun _ _ => True)
      (s.createSpaceAndBindAddr H get id walletid addr)
      (t.createSpaceAndBindAddr H get id walletid addr) := by
  unfold StateDB.createSpaceAndBindAddr
  refine rel_bind (h.getAccountObject hK hinj addr) ?_
  rintro ⟨acc, s₁⟩ ⟨_, t₁⟩ ⟨rfl, h₁, -⟩
  cases acc with
  | found obj =>
    refine rel_bind (h₁.createSpaceObject hinj hid) ?_
    rintro ⟨isNew, s₂⟩ ⟨_, t₂⟩ ⟨rfl, h₂, -⟩
    cases isNew with
    | false => exact .some ⟨rfl, h₂, trivial⟩
    | true =>
      exact rel_bind (h₂.associateSpaceAndAccount hK hinj _ addr) fun s₃ t₃ h₃ =>
        .some ⟨rfl, h₃, trivial⟩
  | _ =>
    refine rel_bind (h₁.createAccountObject hK hinj walletid addr) ?_
    rintro ⟨made, s₂⟩ ⟨_, t₂⟩ ⟨rfl, h₂, -⟩
    refine rel_bind (h₂.createSpaceObject hinj hid) ?_
    rintro ⟨isNew, s₃⟩ ⟨_, t₃⟩ ⟨rfl, h₃, -⟩
    cases isNew with
    | false => exact .some ⟨rfl, h₃, trivial⟩
    | true =>
      cases made with
      | false => exact .some ⟨rfl, h₃, trivial⟩
      | true =>
        exact rel_bind (h₃.associateSpaceAndAccount hK hinj _ addr) fun s₄ t₄ h₄ =>
          .some ⟨rfl, h₄, trivial⟩

/-! ## Every operation -/

/-- **An operation does the same to a state and to its mirror.** -/
theorem run {op : Op} (hid : ∀ id, op.id? = some id → K id) :
    Option.Rel (Mirrors H get C C' K) (op.run H get s) (op.run H get t) := by
  cases op with
  | setBalance addr amount =>
    exact h.withAccount hK hinj addr (editsAccount_setBalanceGas fun _ => amount)
  | addBalance addr amount =>
    exact h.withAccount hK hinj addr (editsAccount_addBalanceGas amount)
  | subBalance addr amount =>
    exact h.withAccount hK hinj addr (editsAccount_subBalanceGas amount)
  | setAttribute addr key value =>
    exact h.withAccount hK hinj addr (editsAccount_setObjAttribute key value)
  | delAttribute addr key =>
    exact h.withAccount hK hinj addr (editsAccount_delObjAttribute key)
  | createSpaceAndBindAddr id walletid addr =>
    exact rel_map (h.createSpaceAndBindAddr hK hinj (hid id rfl) walletid addr)
      fun p q hpq => hpq.2.1
  | bindAddr id walletid addr =>
    exact rel_map (h.bindAddr hK hinj (hid id rfl) walletid addr) fun p q hpq => hpq.2.1
  | unbindAddr id addr => exact h.unbindAddr hK hinj (hid id rfl) addr
  | addSpaceBalanceByID id amount =>
    exact h.withSpace hinj (hid id rfl) (editsSpace_addSpaceBalance amount)
  | subSpaceBalanceByID id amount =>
    exact h.withSpace hinj (hid id rfl) (editsSpace_subSpaceBalance amount)
  | addSpaceBalanceByAddress addr amount =>
    exact h.withSpaceOf hK hinj addr (editsSpace_addSpaceBalance amount)
  | subSpaceBalanceByAddress addr amount =>
    exact h.withSpaceOf hK hinj addr (editsSpace_subSpaceBalance amount)
  | setSpaceBalanceByAddress addr amount =>
    exact h.withSpaceOf hK hinj addr (editsSpace_setSpaceBalance fun _ => amount)

end Operations

end Mirrors

end Gocoin.State
