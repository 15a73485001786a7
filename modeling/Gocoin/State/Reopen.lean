import Gocoin.State.Finalise
import Gocoin.State.Operations

/-!
# State/Reopen — a committed state reads the same when it is opened again

What a reader sees of an account is its balance, its attributes and the space it is bound to, and of
a space its balance and the accounts bound to it; what is not there reads as zero and empty.  An
object that has not been announced as dirty reads as its trie has it (`Fresh`), and the encoding of
an object reads as the object.  So a state that is committed and opened at the roots of the commit
shows what the live state shows.
-/

namespace Gocoin.State

open Trie Fold

/-! ## Encodings are read back -/

variable {it : Rlp.Item} {obj : AccountObject} {order : Entries} {data : Bytes} {e : Entry}

theorem ofItem_of_item {acc : Account} (h : acc.item = some it) : Account.ofItem it = some acc := by
  unfold Account.item at h
  obtain ⟨bal, hbal, rfl⟩ := Option.map_eq_some_iff.mp h
  obtain ⟨hnonneg, rfl⟩ := Rlp.Item.eq_of_ofInt? hbal
  simp only [Account.ofItem, Rlp.Item.nat?_ofNat, Rlp.Item.uint64?_ofNat, Rlp.Item.bytes?_str,
    Rlp.Item.strings?_ofStrings, some_bind, Int.toNat_of_nonneg hnonneg]

theorem ofItem_of_spaceItem {sp : Space} (h : sp.item = some it) : Space.ofItem it = some sp := by
  unfold Space.item at h
  obtain ⟨bal, hbal, rfl⟩ := Option.map_eq_some_iff.mp h
  obtain ⟨hnonneg, rfl⟩ := Rlp.Item.eq_of_ofInt? hbal
  have haddr : ∀ a : Address, addressOfItem (.str a.bytes) = some a := fun a => by
    simp only [addressOfItem, Rlp.Item.bytes?_str, Option.bind_some, dif_pos a.length_eq]
  have hbinds : (sp.bindAddr.map fun a => Rlp.Item.str a.bytes).mapM addressOfItem
      = some sp.bindAddr := by
    rw [mapM_eq_some_iff, List.forall₂_map_left_iff]
    exact List.forall₂_same.mpr fun a _ => haddr a
  simp only [Space.ofItem, Rlp.Item.nat?_ofNat, Rlp.Item.uint64?_ofNat, Rlp.Item.elems?_list,
    hbinds, some_bind, Int.toNat_of_nonneg hnonneg]

theorem length_ne_zero_of_value {v : Bytes} (h : Value v) : v.length ≠ 0 :=
  Nat.pos_iff_ne_zero.mp (List.length_pos_iff.mpr h.1)

/-- The encoding of an account is read back with the attributes in the order of the walk. -/
theorem readAccount_encodeRLP (h : obj.encodeRLP order = some data) (addr : Address) :
    readAccount addr data = .found (newAccountObject addr { obj.data with
      accountkey := order.map Sigma.fst
      accountValue := order.map Sigma.snd }) := by
  obtain ⟨it, hit, hdata⟩ := Option.bind_eq_some_iff.mp h
  obtain ⟨hval, rfl⟩ := value_of_encodeToBytes hdata
  have hdec : Account.decode (Rlp.encode it) = some { obj.data with
      accountkey := order.map Sigma.fst
      accountValue := order.map Sigma.snd } := by
    rw [Account.decode, Rlp.decode_encode (lt_trans hval.2 (by norm_num)), Option.bind_some,
      ofItem_of_item hit]
  rw [readAccount, if_neg (length_ne_zero_of_value hval), hdec]

/-- The encoding of a space is read back. -/
theorem readSpace_encodeRLP {obj : SpaceObject} (h : obj.encodeRLP = some data) (id : ℕ) :
    readSpace id data = .found (newSpaceObject id obj.data) := by
  obtain ⟨it, hit, hdata⟩ := Option.bind_eq_some_iff.mp h
  obtain ⟨hval, rfl⟩ := value_of_encodeToBytes hdata
  have hdec : Space.decode (Rlp.encode it) = some obj.data := by
    rw [Space.decode, Rlp.decode_encode (lt_trans hval.2 (by norm_num)), Option.bind_some,
      ofItem_of_spaceItem hit]
  rw [readSpace, if_neg (length_ne_zero_of_value hval), hdec]

/-- Entries written one after the other into a map: the entries hide the map. -/
theorem lookup_foldl_insert {l : Entries} (hl : l.NodupKeys) (m : Attributes) (k : Bytes) :
    (l.foldl (fun m e => m.insert e.1 e.2) m).lookup k = (l.dlookup k).or (m.lookup k) := by
  induction l generalizing m with
  | nil => rfl
  | cons e l ih =>
    obtain ⟨hnot, hl⟩ := List.nodupKeys_cons.mp hl
    rw [List.foldl_cons, ih hl]
    by_cases hk : k = e.1
    · subst hk
      rw [List.dlookup_eq_none.mpr hnot, List.dlookup_cons_eq, AList.lookup_insert]
      rfl
    · rw [List.dlookup_cons_ne _ _ hk, AList.lookup_insert_ne hk]

/-- **The attribute lists of any order are read back as the attributes.** -/
theorem lookup_ofLists {m : Attributes} (hp : order.Perm m.entries) (k : Bytes) :
    (Attributes.ofLists (order.map Sigma.fst) (order.map Sigma.snd)).lookup k = m.lookup k := by
  have hnodup : order.NodupKeys := (List.perm_nodupKeys hp).mpr m.nodupKeys
  have hzip : (order.map Sigma.fst).zip (order.map Sigma.snd)
      = order.map fun e => (e.1, e.2) := List.zip_map'
  rw [Attributes.ofLists, hzip, List.foldl_map, lookup_foldl_insert hnodup]
  show (order.dlookup k).or none = m.entries.dlookup k
  rw [Option.or_none, List.perm_dlookup k hnodup hp]

/-! ## What a reader sees -/

/-- What a reader sees of an account. -/
structure AccountView where
  balance : ℤ
  attributes : Bytes → Option Bytes
  bindSpaceId : ℕ

/-- What a reader sees of a space. -/
structure SpaceView where
  balance : ℤ
  bindAddr : List Address

/-- The view of a looked up account; what is not there is zero and empty. -/
def AccountView.of : Lookup AccountObject → AccountView
  | .found obj => ⟨obj.data.balance, fun k => obj.accountAttribute.lookup k, obj.data.bindSpaceId⟩
  | _ => ⟨0, fun _ => none, 0⟩

/-- The view of a looked up space. -/
def SpaceView.of : Lookup SpaceObject → SpaceView
  | .found obj => ⟨obj.data.balance, obj.data.bindAddr⟩
  | _ => ⟨0, []⟩

namespace StateDB

variable (H : HashFn) (get : Nodes)

/-- Reading an account. -/
def viewAccount (s : StateDB) (addr : Address) : Option AccountView :=
  (s.getAccountObject H get addr).map fun r => .of r.1

/-- Reading a space. -/
def viewSpace (s : StateDB) (id : ℕ) : Option SpaceView :=
  (s.getSpaceObject H get id).map fun r => .of r.1

end StateDB

/-- The entry of an account reads as the account. -/
theorem view_of_accountEntry (hp : order.Perm obj.accountAttribute.entries)
    (h : obj.entry order = some e) (addr : Address) :
    AccountView.of (readAccount addr (e.value.getD [])) = .of (.found obj) := by
  unfold AccountObject.entry at h
  split at h
  · next hempty =>
    cases h
    have hread : readAccount addr [] = .absent := rfl
    simp only [AccountObject.empty, Bool.and_eq_true, decide_eq_true_eq] at hempty
    obtain ⟨⟨hbind, hattr⟩, hbal⟩ := hempty
    simp only [Option.getD_none, hread, AccountView.of, hbind, hbal, AccountView.mk.injEq,
      true_and, and_true]
    funext k
    show none = obj.accountAttribute.entries.dlookup k
    rw [hattr]
    rfl
  · obtain ⟨data, hdata, rfl⟩ := Option.map_eq_some_iff.mp h
    simp only [Option.getD_some, readAccount_encodeRLP hdata, AccountView.of, newAccountObject,
      lookup_ofLists hp]

/-- The entry of a space reads as the space. -/
theorem view_of_spaceEntry {obj : SpaceObject} (h : obj.entry = some e) (id : ℕ) :
    SpaceView.of (readSpace id (e.value.getD [])) = .of (.found obj) := by
  unfold SpaceObject.entry at h
  split at h
  · next hempty =>
    cases h
    have hread : readSpace id [] = .absent := rfl
    simp only [SpaceObject.empty, Bool.and_eq_true, decide_eq_true_eq] at hempty
    simp only [Option.getD_none, hread, SpaceView.of, hempty.1.2, hempty.2]
  · obtain ⟨data, hdata, rfl⟩ := Option.map_eq_some_iff.mp h
    simp only [Option.getD_some, readSpace_encodeRLP hdata, SpaceView.of, newSpaceObject]

/-! ## Objects that are not dirty -/

section Fresh

variable (H : HashFn) (C : Contents)

/-- A cached object that is not dirty will announce its first change, and reads as it is stored. -/
structure Fresh (s : StateDB) : Prop where
  account : ∀ addr obj, s.accountObjects addr = some obj → addr ∉ s.accountObjectsDirty →
    obj.onDirty = true ∧ AccountView.of (.found obj) = .of (C.storedAccount H addr)
  space : ∀ i obj, s.spaceObjects i = some obj → i ∉ s.spaceObjectsDirty →
    obj.onDirty = true ∧ SpaceView.of (.found obj) = .of (C.storedSpace H obj.id)

variable {H C} {get : Nodes} {K : ℕ → Prop} {E : Edits} {s s' : StateDB}

variable {obj : AccountObject}

section

variable (h : Fresh H C s)
include h

theorem Fresh.setAccountObject (hobj : obj.onDirty = true ∧
      AccountView.of (.found obj) = .of (C.storedAccount H obj.address)) :
    Fresh H C (s.setAccountObject obj) where
  account := by
    intro addr obj' hc hnot
    rcases eq_or_of_update_eq_some hc with ⟨rfl, rfl⟩ | hc
    · exact hobj
    · exact h.account addr obj' hc hnot
  space := h.space

theorem Fresh.setSpaceObject {obj : SpaceObject}
    (hobj : obj.onDirty = true ∧ SpaceView.of (.found obj) = .of (C.storedSpace H obj.id)) :
    Fresh H C (s.setSpaceObject obj) where
  account := h.account
  space := by
    intro i obj' hc hnot
    rcases eq_or_of_update_eq_some hc with ⟨rfl, rfl⟩ | hc
    · exact hobj
    · exact h.space i obj' hc hnot

/-- An edited object is dirty. -/
theorem Fresh.touchAccount (hg : Good H get C K s) {addr : Address}
    {obj' : AccountObject} (hc : s.accountObjects addr = some obj) (ha : obj'.address = obj.address)
    (hd : obj'.onDirty = obj.onDirty) :
    Fresh H C (s.touchAccount obj') where
  account := by
    intro b objb hb hnot
    rw [mem_dirty_touchAccount] at hnot
    obtain ⟨hnew, hold⟩ := not_or.mp hnot
    rw [accountObjects_touchAccount] at hb
    rcases eq_or_of_update_eq_some hb with ⟨rfl, -⟩ | hb
    · rw [ha, hg.accountKey addr obj hc] at hold
      exact absurd ⟨hd.trans (h.account addr obj hc hold).1, rfl⟩ hnew
    · exact h.account b objb hb hold
  space := by
    intro i obj hc hnot
    rw [spaceObjects_touchAccount] at hc
    rw [spaceObjectsDirty_touchAccount] at hnot
    exact h.space i obj hc hnot

theorem Fresh.touchSpace (hg : Good H get C K s) {i : UInt64}
    {obj obj' : SpaceObject} (hc : s.spaceObjects i = some obj) (hi : obj'.id = obj.id)
    (hd : obj'.onDirty = obj.onDirty) : Fresh H C (s.touchSpace obj') where
  account := by
    intro addr obj hc hnot
    rw [accountObjects_touchSpace] at hc
    rw [accountObjectsDirty_touchSpace] at hnot
    exact h.account addr obj hc hnot
  space := by
    intro j objj hj hnot
    rw [mem_dirty_touchSpace] at hnot
    obtain ⟨hnew, hold⟩ := not_or.mp hnot
    rw [spaceObjects_touchSpace] at hj
    rcases eq_or_of_update_eq_some hj with ⟨rfl, -⟩ | hj
    · rw [hi, hg.spaceKey i obj hc] at hold
      exact absurd ⟨hd.trans (h.space i obj hc hold).1, rfl⟩ hnew
    · exact h.space j objj hj hold

/-- **A move keeps a state fresh.** -/
theorem Fresh.move (hg : Good H get C K s) (hm : Move H get C K E s s') : Fresh H C s' := by
  cases hm with
  | trieAccount ht | trieSpace ht => exact ⟨h.account, h.space⟩
  | readAccount hc hr =>
    obtain ⟨haddr, hd⟩ := address_of_readAccount hr
    exact h.setAccountObject ⟨hd, by rw [haddr, hr]⟩
  | readSpace hid hc hr =>
    obtain ⟨hi, hd⟩ := id_of_readSpace hr
    exact h.setSpaceObject ⟨hd, by rw [hi, hr]⟩
  | @newAccount addr w hc hr hE =>
    refine h.setAccountObject ⟨rfl, ?_⟩
    show _ = AccountView.of (C.storedAccount H addr)
    rw [hr]
    rfl
  | @newSpace id hid hc hr =>
    refine h.setSpaceObject ⟨rfl, ?_⟩
    show SpaceView.of _ = SpaceView.of (C.storedSpace H id)
    cases hst : C.storedSpace H id with
    | found obj => exact absurd hst (hr obj)
    | absent => rfl
    | failed => rfl
  | editAccount hc ha hd hid hE => exact h.touchAccount hg hc ha hd
  | editSpace hc hi hd hE => exact h.touchSpace hg hc hi hd

end

theorem Fresh.moves (hK : AllowsStored H C K) (h : Fresh H C s)
    (hg : Good H get C K s) (hm : Moves H get C K E s s') : Fresh H C s' := by
  induction hm with
  | refl => exact h
  | tail hm hstep ih => exact ih.move (hg.moves hK hm) hstep

end Fresh

/-! ## The maps of a commit -/

section Written

variable {H : HashFn} {get : Nodes} {C : Contents} {K : ℕ → Prop}
  {s : StateDB} {ord : IterOrder} {es as : List Entry}

/-- **An account reads before the commit as it is stored after it.** -/
theorem Fresh.view_accountAt (hf : Fresh H C s) (h : Good H get C K s)
    (hinj : ∀ a b : Address, H a.bytes = H b.bytes → a = b)
    (has : s.accountEntries ord = some as) (m : HashMap) (addr : Address) :
    AccountView.of (s.accountAt H C addr)
      = .of (Contents.storedAccount H ⟨m, writeAll H C.account as⟩ addr) := by
  show _ = AccountView.of (readAccount addr
    ((writeAll H C.account as (H addr.bytes)).getD []))
  by_cases hd : addr ∈ s.accountObjectsDirty
  · obtain ⟨obj, hobj⟩ := h.accountDirty addr hd
    obtain ⟨e, he, hentry, hkey⟩ := h.exists_accountEntry has hd hobj
    rw [← hkey, writeAll_of_mem (h.consistent_accountEntries hinj has) he,
      view_of_accountEntry (ord.attributes_perm _ _) hentry, StateDB.accountAt, hobj]
  · have hne : ∀ e ∈ as, H e.key ≠ H addr.bytes := by
      intro e he heq
      obtain ⟨b, hb, hkey⟩ := h.mem_dirty_of_accountEntriesFor (b := true) has he
      rw [hkey] at heq
      exact hd (hinj b addr heq ▸ hb)
    rw [writeAll_of_forall_ne hne, StateDB.accountAt]
    cases hobj : s.accountObjects addr with
    | none => rfl
    | some obj => exact (hf.account addr obj hobj hd).2

variable {id : ℕ}

/-- **A space reads before the commit as it is stored after it.** -/
theorem Fresh.view_spaceAt (hf : Fresh H C s) (h : Good H get C K s)
    (hinj : ∀ m n, K m → K n → H (BigEndian.toBytes m) = H (BigEndian.toBytes n) → m = n)
    (hu : ∀ m n, K m → K n → u64 m = u64 n → m = n) (hes : s.spaceEntries ord = some es)
    (m : HashMap) (hid : K id) :
    SpaceView.of (s.spaceAt H C id)
      = .of (Contents.storedSpace H ⟨writeAll H C.space es, m⟩ id) := by
  have hcached : ∀ i obj, s.spaceObjects i = some obj →
      H (BigEndian.toBytes obj.id) = H (BigEndian.toBytes id) → obj.id = id :=
    fun i obj hobj => hinj _ _ (h.spaceId i obj hobj) hid
  show _ = SpaceView.of (readSpace id
    ((writeAll H C.space es (H (BigEndian.toBytes id))).getD []))
  by_cases hd : u64 id ∈ s.spaceObjectsDirty
  · obtain ⟨obj, hobj⟩ := h.spaceDirty _ hd
    obtain ⟨e, he, hentry, hkey⟩ := exists_spaceEntry hes hd hobj
    obtain rfl : obj.id = id := hu _ _ (h.spaceId _ obj hobj) hid (h.spaceKey _ obj hobj)
    have hcons := h.consistent_spaceEntries (fun i _ j _ obj hobj obj' hobj' =>
      hinj _ _ (h.spaceId i obj hobj) (h.spaceId j obj' hobj')) hes
    rw [← hkey, writeAll_of_mem hcons he, view_of_spaceEntry hentry, StateDB.spaceAt, hobj]
  · have hne : ∀ e ∈ es, H e.key ≠ H (BigEndian.toBytes id) := by
      intro e he heq
      obtain ⟨j, hj, obj, hobj, hkey⟩ := mem_dirty_of_spaceEntriesFor (b := true) hes he
      rw [hkey] at heq
      rw [← hcached j obj hobj heq, h.spaceKey j obj hobj] at hd
      exact hd hj
    rw [writeAll_of_forall_ne hne, StateDB.spaceAt]
    cases hobj : s.spaceObjects (u64 id) with
    | none => rfl
    | some obj =>
      obtain rfl : obj.id = id := hu _ _ (h.spaceId _ obj hobj) hid (h.spaceKey _ obj hobj)
      exact (hf.space _ obj hobj hd).2

/-- Reading an account shows what the state has of it. -/
theorem Good.viewAccount_eq (h : Good H get C K s) (addr : Address) :
    s.viewAccount H get addr = some (.of (s.accountAt H C addr)) := by
  obtain ⟨s', hs', -⟩ := h.exists_getAccountObject addr
  rw [StateDB.viewAccount, hs']
  rfl

theorem Good.viewSpace_eq (h : Good H get C K s) (hid : K id) :
    s.viewSpace H get id = some (.of (s.spaceAt H C id)) := by
  obtain ⟨s', hs', -⟩ := h.exists_getSpaceObject id fun _ _ => hid
  rw [StateDB.viewSpace, hs']
  rfl

end Written

/-! ## What a reader sees is in the book -/

section Book

/-- The view of an account of the book. -/
def AccountView.ofHolder : Lookup Holder → AccountView
  | .found h => ⟨h.balance, fun k => h.accountAttribute.lookup k, h.bindSpaceId.toNat⟩
  | _ => ⟨0, fun _ => none, 0⟩

/-- The view of a space of the book. -/
def SpaceView.ofSpace : Lookup Space → SpaceView
  | .found sp => ⟨sp.balance, sp.bindAddr⟩
  | _ => ⟨0, []⟩

variable {H : HashFn} {get : Nodes} {C : Contents} {s : StateDB}
  {a : Address} {id : ℕ} {obj : AccountObject}

theorem Good.small_bindSpaceId (hK : AllowsStored H C Small) (h : Good H get C Small s)
    (hat : s.accountAt H C a = .found obj) : Small obj.data.bindSpaceId := by
  unfold StateDB.accountAt at hat
  split at hat
  · next obj' hobj =>
    obtain rfl := Lookup.found.inj hat
    exact h.bind a _ hobj
  · exact hK.bind a obj hat

theorem Good.viewAccount_book (hK : AllowsStored H C Small) (h : Good H get C Small s)
    (a : Address) :
    s.viewAccount H get a = some (.ofHolder ((s.book H C).account a)) := by
  rw [h.viewAccount_eq a, book_account_eq rfl]
  cases hat : s.accountAt H C a with
  | found obj =>
    have hbind := toNat_u64 (h.small_bindSpaceId hK hat)
    simp only [AccountView.of, Lookup.map, AccountView.ofHolder, AccountObject.holder, hbind]
  | absent => rfl
  | failed => rfl

theorem Good.viewSpace_book (h : Good H get C Small s) (hid : Small id) :
    s.viewSpace H get id = some (.ofSpace ((s.book H C).space (u64 id))) := by
  rw [h.viewSpace_eq hid, book_space_eq hid rfl]
  cases s.spaceAt H C id <;> rfl

end Book

end Gocoin.State
