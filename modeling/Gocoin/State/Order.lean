import Gocoin.State.Persistence

/-!
# State/Order — do the roots depend on the order of the walks?

The dirty sets may be walked in any order: the entries of different objects go to different places
of the tries.  The attributes of an account may not, since their order is the order of the stored
lists.  So the roots of a commit are free of the orders exactly when no changed account has two
attributes, or when there is nothing to compare because an object without an encoding makes every
commit crash (`roots_order_free_iff`).
-/

namespace Gocoin.State

open Trie Fold

/-- The two roots of a commit. -/
def StateDB.Committed.roots (c : StateDB.Committed) : Hash × Hash := (c.rootSpace, c.rootAccount)

/-! ## Orders of attributes -/

theorem attributes_of_length_le (ord : IterOrder) (addr : Address) {l : Entries}
    (h : l.length ≤ 1) : ord.attributes addr l = l := by
  have hp := ord.attributes_perm addr l
  match l, h with
  | [], _ => exact List.perm_nil.mp hp
  | [e], _ => exact List.perm_singleton.mp hp

variable {obj : AccountObject} {order order' : Entries} {s : StateDB}

/-- An account with at most one attribute has one entry. -/
theorem AccountObject.entry_of_length_le
    (h : obj.empty = false → obj.accountAttribute.entries.length ≤ 1) (ord : IterOrder)
    (addr : Address) :
    obj.entry (ord.attributes addr obj.accountAttribute.entries)
      = obj.entry obj.accountAttribute.entries := by
  unfold AccountObject.entry
  cases hempty : obj.empty with
  | true => rfl
  | false => rw [attributes_of_length_le ord addr (h hempty)]

/-- Whether an account has an encoding does not depend on the order. -/
theorem AccountObject.encodeRLP_eq_none_perm (hp : order.Perm order')
    (h : obj.encodeRLP order = none) : obj.encodeRLP order' = none := by
  unfold AccountObject.encodeRLP Account.item at h ⊢
  cases hbal : Rlp.Item.ofInt? obj.data.balance with
  | none => rfl
  | some bal =>
    have hstr : ∀ f : (Sigma fun _ : Bytes => Bytes) → Bytes,
        (Rlp.encode (.ofStrings (order.map f))).length
          = (Rlp.encode (.ofStrings (order'.map f))).length := fun f =>
      Rlp.length_encode_list_perm ((hp.map f).map _)
    have hlen : ∀ a b c d : Rlp.Item, (Rlp.encode (.list [a, b, c, d,
          .ofStrings (order.map Sigma.fst), .ofStrings (order.map Sigma.snd)])).length
        = (Rlp.encode (.list [a, b, c, d, .ofStrings (order'.map Sigma.fst),
          .ofStrings (order'.map Sigma.snd)])).length := by
      intro a b c d
      refine Rlp.length_encode_list_congr ?_
      simp only [Rlp.encodeItems, List.length_append, hstr]
    simp only [hbal, Option.map_some, Option.bind_some, encodeToBytes, hlen] at h ⊢
    split at h
    · cases h
    · next hbig => rw [if_neg hbig]

theorem AccountObject.entry_eq_none_perm (hp : order.Perm order') (h : obj.entry order = none) :
    obj.entry order' = none := by
  unfold AccountObject.entry at h ⊢
  split at h
  · cases h
  · next hempty =>
    rw [Option.map_eq_none_iff] at h
    rw [if_neg hempty, encodeRLP_eq_none_perm hp h]
    rfl

/-- The orders that swap the first two attributes of every account. -/
def IterOrder.swapped : IterOrder :=
  { IterOrder.plain with
    attributes := fun _ l =>
      match l with
      | a :: b :: rest => b :: a :: rest
      | l => l
    attributes_perm := fun _ l => by
      match l with
      | [] => exact .refl _
      | [_] => exact .refl _
      | a :: b :: rest => exact .swap a b rest }

/-! ## Entries under different orders -/

/-- Some changed object that is not empty has no encoding. -/
def StateDB.Unencodable (s : StateDB) : Prop :=
  (∃ i ∈ s.spaceObjectsDirty, s.spaceEntry i = none) ∨
    ∃ addr ∈ s.accountObjectsDirty, s.accountEntry .plain addr = none

/-- No changed account that is not empty has two attributes. -/
def StateDB.FewAttributes (s : StateDB) : Prop :=
  ∀ addr ∈ s.accountObjectsDirty, ∀ obj ∈ s.accountObjects addr, obj.empty = false →
    obj.accountAttribute.entries.length ≤ 1

instance (s : StateDB) : Decidable s.FewAttributes := inferInstanceAs (Decidable (∀ _ ∈ _, _))

/-- No account has an attribute. -/
def StateDB.NoAttributes (s : StateDB) : Prop :=
  ∀ addr, ∀ obj ∈ s.accountObjects addr, obj.accountAttribute = ∅

theorem StateDB.NoAttributes.fewAttributes (h : s.NoAttributes) :
    s.FewAttributes := fun addr _ obj hobj _ => by
  rw [h addr obj hobj]
  exact Nat.zero_le 1

/-- Over empty tries, accounts get attributes only from edits of attributes. -/
theorem noAttributes_moves {H : HashFn} {get : Nodes} {C : Contents}
    {K : ℕ → Prop} {s' : StateDB} (hC : ∀ addr obj, C.storedAccount H addr ≠ .found obj)
    (hm : Moves H get C K .besideAttributes s s') (h : s.NoAttributes) : s'.NoAttributes := by
  induction hm with
  | refl => exact h
  | tail _ hstep ih =>
    cases hstep with
    | trieAccount => exact ih
    | trieSpace => exact ih
    | readAccount _ hfound => exact absurd hfound (hC _ _)
    | readSpace => exact ih
    | newAccount =>
      intro a obj hobj
      rcases eq_or_of_update_eq_some hobj with ⟨-, rfl⟩ | hobj
      · rfl
      · exact ih a obj hobj
    | newSpace => exact ih
    | editAccount hc _ _ _ hE =>
      intro a obj hobj
      rw [accountObjects_touchAccount] at hobj
      rcases eq_or_of_update_eq_some hobj with ⟨-, rfl⟩ | hobj
      · exact hE.trans (ih _ _ hc)
      · exact ih a obj hobj
    | editSpace =>
      intro a obj hobj
      rw [accountObjects_touchSpace] at hobj
      exact ih a obj hobj

section Entries

variable {s : StateDB} {ord : IterOrder}

theorem accountEntry_eq_none_iff (ord : IterOrder) (addr : Address) :
    s.accountEntry ord addr = none ↔ s.accountEntry .plain addr = none := by
  unfold StateDB.accountEntry
  cases s.accountObjects addr with
  | none => exact Iff.rfl
  | some obj =>
    exact ⟨AccountObject.entry_eq_none_perm (ord.attributes_perm addr _),
      AccountObject.entry_eq_none_perm (ord.attributes_perm addr _).symm⟩

/-- An object without an encoding makes the commit crash, whatever the orders. -/
theorem StateDB.Unencodable.commitTo (h : s.Unencodable) (H : HashFn)
    (ord : IterOrder) (db : Db) : s.commitTo H ord db = none := by
  refine commitTo_eq_none ?_
  rcases h with ⟨i, hi, hnone⟩ | ⟨addr, haddr, hnone⟩
  · exact .inl (mapM_eq_none_of_mem ((ord.spaces_perm _).mem_iff.mpr hi) hnone)
  · exact .inr (mapM_eq_none_of_mem ((ord.accounts_perm _).mem_iff.mpr haddr)
      ((accountEntry_eq_none_iff ord addr).mpr hnone))

theorem exists_spaceEntries_of_encodable (h : ¬ s.Unencodable) (ord : IterOrder) :
    ∃ es, s.spaceEntries ord = some es := by
  refine exists_mapM_of_forall fun i hi => Option.ne_none_iff_exists'.mp fun hnone => h (.inl ?_)
  exact ⟨i, (ord.spaces_perm _).mem_iff.mp hi, hnone⟩

theorem exists_accountEntries_of_encodable (h : ¬ s.Unencodable) (ord : IterOrder) :
    ∃ es, s.accountEntries ord = some es := by
  refine exists_mapM_of_forall fun addr haddr =>
    Option.ne_none_iff_exists'.mp fun hnone => h (.inr ?_)
  exact ⟨addr, (ord.accounts_perm _).mem_iff.mp haddr, (accountEntry_eq_none_iff ord addr).mp hnone⟩

variable {es es' : List Entry}

/-- The entries of the spaces are the same up to their order. -/
theorem spaceEntries_perm (hes : s.spaceEntries .plain = some es)
    (hes' : s.spaceEntries ord = some es') : es'.Perm es := by
  obtain ⟨es'', h'', hp⟩ := exists_perm_of_mapM (ord.spaces_perm s.spaceObjectsDirty) hes
  rwa [Option.some.inj (hes'.symm.trans h'')]

theorem accountEntries_perm (hfew : s.FewAttributes) (hes : s.accountEntries .plain = some es)
    (hes' : s.accountEntries ord = some es') :
    es'.Perm es := by
  have hcongr : (ord.accounts s.accountObjectsDirty).mapM (s.accountEntry ord)
      = (ord.accounts s.accountObjectsDirty).mapM (s.accountEntry .plain) := by
    refine mapM_congr_of_mem fun addr haddr => ?_
    unfold StateDB.accountEntry
    cases hobj : s.accountObjects addr with
    | none => rfl
    | some obj =>
      exact AccountObject.entry_of_length_le
        (hfew addr ((ord.accounts_perm _).mem_iff.mp haddr) obj hobj) ord addr
  obtain ⟨es'', h'', hp⟩ := exists_perm_of_mapM (ord.accounts_perm s.accountObjectsDirty) hes
  rw [StateDB.accountEntries, hcongr] at hes'
  rwa [Option.some.inj (hes'.symm.trans h'')]

end Entries

/-- The strings that are hashed by the commits of a state in all orders. -/
def hashedByCommits (H : HashFn) (db : Db) (C : Contents) (s : StateDB) : Set Bytes :=
  storedNodes H db ∪ Set.range (FixedBytes.bytes (n := 20)) ∪
    {b | ∃ i ∈ s.spaceObjectsDirty, ∃ obj ∈ s.spaceObjects i, b = BigEndian.toBytes obj.id} ∪
      {e | ∃ ord, e ∈ committedNodes H ord C s}

section Roots

variable {H : HashFn} {db : Db} {C : Contents} {K : ℕ → Prop} {s : StateDB}

/-- A state whose objects have encodings commits to the roots of its entries. -/
theorem Good.exists_roots (h : Good H db.nodes C K s)
    (hfree : CollisionFree H (hashedByCommits H db C s)) (ord : IterOrder)
    {es as : List Entry} (hes : s.spaceEntries ord = some es)
    (has : s.accountEntries ord = some as) :
    ∃ c, s.commitTo H ord db = some c ∧ IsRoot H (writeAll H C.space es) c.rootSpace ∧
      IsRoot H (writeAll H C.account as) c.rootAccount := by
  obtain ⟨c, hc, hrs, hra, -⟩ := h.exists_commitTo hfree (fun e he => .inl (.inl (.inl he))) hes has
    (fun e he => .inr ⟨ord, .inl ⟨es, hes, he⟩⟩) (fun e he => .inr ⟨ord, .inr ⟨as, has, he⟩⟩)
  exact ⟨c, hc, hrs, hra⟩

/-- With few attributes every order gives the roots of the plain one. -/
theorem Good.roots_eq_plain (h : Good H db.nodes C K s)
    (hfree : CollisionFree H (hashedByCommits H db C s)) (henc : ¬ s.Unencodable)
    (hfew : s.FewAttributes) (ord : IterOrder) :
    (s.commitTo H ord db).map StateDB.Committed.roots
      = (s.commitTo H .plain db).map StateDB.Committed.roots := by
  obtain ⟨es, hes⟩ := exists_spaceEntries_of_encodable henc ord
  obtain ⟨as, has⟩ := exists_accountEntries_of_encodable henc ord
  obtain ⟨es₀, hes₀⟩ := exists_spaceEntries_of_encodable henc .plain
  obtain ⟨as₀, has₀⟩ := exists_accountEntries_of_encodable henc .plain
  obtain ⟨c, hc, hrs, hra⟩ := h.exists_roots hfree ord hes has
  obtain ⟨c₀, hc₀, hrs₀, hra₀⟩ := h.exists_roots hfree .plain hes₀ has₀
  have hinjA := hfree.address_inj fun a => .inl (.inl (.inr ⟨a, rfl⟩))
  have hspace := writeAll_perm (h.consistent_spaceEntries (fun i hi j hj obj hobj obj' hobj' =>
    hfree.id_inj (.inl (.inr ⟨i, hi, obj, hobj, rfl⟩)) (.inl (.inr ⟨j, hj, obj', hobj', rfl⟩))) hes)
      (spaceEntries_perm hes₀ hes) C.space
  have haccount := writeAll_perm (h.consistent_accountEntries hinjA has)
    (accountEntries_perm hfew has₀ has) C.account
  rw [hspace] at hrs
  rw [haccount] at hra
  rw [hc, hc₀, Option.map_some, Option.map_some, StateDB.Committed.roots, StateDB.Committed.roots,
    root_unique hrs hrs₀, root_unique hra hra₀]

variable {obj : AccountObject}

/-- An encoding shows the order of the attributes. -/
theorem keys_eq_of_encodeRLP {order order' : Entries} {data : Bytes}
    (h : obj.encodeRLP order = some data) (h' : obj.encodeRLP order' = some data) :
    order.map Sigma.fst = order'.map Sigma.fst := by
  have heq := (readAccount_encodeRLP h obj.address).symm.trans
    (readAccount_encodeRLP h' obj.address)
  exact congrArg (fun o => o.data.accountkey) (Lookup.found.inj heq)

/-- Swapping the first two of several attributes gives another entry. -/
theorem AccountObject.value_ne_swapped (hempty : obj.empty = false)
    (hlen : 2 ≤ obj.accountAttribute.entries.length) (addr : Address) {e e' : Entry}
    (he : obj.entry obj.accountAttribute.entries = some e)
    (he' : obj.entry (IterOrder.swapped.attributes addr obj.accountAttribute.entries) = some e') :
    e.value ≠ e'.value := by
  intro hval
  rw [entry, hempty, if_neg Bool.false_ne_true] at he he'
  obtain ⟨data, hdata, rfl⟩ := Option.map_eq_some_iff.mp he
  obtain ⟨data', hdata', rfl⟩ := Option.map_eq_some_iff.mp he'
  obtain rfl : data = data' := Option.some.inj hval
  have hkeys := keys_eq_of_encodeRLP hdata hdata'
  have hnodup := obj.accountAttribute.nodupKeys
  rcases hl : obj.accountAttribute.entries with - | ⟨a, - | ⟨b, rest⟩⟩
  · simp [hl] at hlen
  · simp [hl] at hlen
  · rw [hl] at hkeys hnodup
    have hab : a.1 = b.1 := (List.cons.inj hkeys).1
    exact (List.nodupKeys_cons.mp hnodup).1 (hab ▸ List.mem_cons_self)

/-- **With two attributes the roots depend on the order.** -/
theorem Good.roots_ne_swapped (h : Good H db.nodes C K s)
    (hfree : CollisionFree H (hashedByCommits H db C s)) (henc : ¬ s.Unencodable)
    (hmany : ¬ s.FewAttributes) :
    (s.commitTo H .plain db).map StateDB.Committed.roots
      ≠ (s.commitTo H .swapped db).map StateDB.Committed.roots := by
  unfold StateDB.FewAttributes at hmany
  push Not at hmany
  obtain ⟨addr, haddr, obj, hobj, hempty, hlen⟩ := hmany
  obtain ⟨es, hes⟩ := exists_spaceEntries_of_encodable henc .plain
  obtain ⟨as, has⟩ := exists_accountEntries_of_encodable henc .plain
  obtain ⟨es', hes'⟩ := exists_spaceEntries_of_encodable henc .swapped
  obtain ⟨as', has'⟩ := exists_accountEntries_of_encodable henc .swapped
  obtain ⟨c, hc, -, hra⟩ := h.exists_roots hfree .plain hes has
  obtain ⟨c', hc', -, hra'⟩ := h.exists_roots hfree .swapped hes' has'
  rw [hc, hc']
  intro heq
  have hroot : c.rootAccount = c'.rootAccount := congrArg Prod.snd (Option.some.inj heq)
  rw [← hroot] at hra'
  have hinjA := hfree.address_inj fun a => .inl (.inl (.inr ⟨a, rfl⟩))
  have hsub : nodesOf H (writeAll H C.account as) ⊆ hashedByCommits H db C s :=
    fun e he => .inr ⟨.plain, .inr ⟨as, has, he⟩⟩
  have hsub' : nodesOf H (writeAll H C.account as') ⊆ hashedByCommits H db C s :=
    fun e he => .inr ⟨.swapped, .inr ⟨as', has', he⟩⟩
  have hmap := hfree.map_eq hsub hsub' hra hra'
  obtain ⟨e, he, hentry, hkey⟩ := h.exists_accountEntry has haddr hobj
  obtain ⟨e', he', hentry', hkey'⟩ := h.exists_accountEntry has' haddr hobj
  have hval := writeAll_of_mem (h.consistent_accountEntries hinjA has) he C.account
  have hval' := writeAll_of_mem (h.consistent_accountEntries hinjA has') he' C.account
  rw [hkey, hmap, ← hkey', hval'] at hval
  exact AccountObject.value_ne_swapped hempty hlen addr hentry hentry' hval.symm

/-- **The roots are free of the orders exactly when** a changed object has no encoding — then every
commit crashes — or no changed account has two attributes.  The state is any good one: the ones
opened at stored roots are, and every operation keeps them so. -/
theorem roots_order_free_iff {H : HashFn} {db : Db} {C : Contents} {s : StateDB}
    (h : Good H db.nodes C (fun _ => True) s) (hfree : CollisionFree H (hashedByCommits H db C s)) :
    (∀ ord ord', (s.commitTo H ord db).map StateDB.Committed.roots
      = (s.commitTo H ord' db).map StateDB.Committed.roots) ↔
      s.Unencodable ∨ s.FewAttributes := by
  constructor
  · intro hall
    by_contra hnot
    obtain ⟨henc, hmany⟩ := not_or.mp hnot
    exact h.roots_ne_swapped hfree henc hmany (hall .plain .swapped)
  · rintro (hun | hfew) ord ord'
    · rw [hun.commitTo, hun.commitTo]
    · by_cases hun : s.Unencodable
      · rw [hun.commitTo, hun.commitTo]
      · rw [h.roots_eq_plain hfree hun hfew ord, h.roots_eq_plain hfree hun hfew ord']

end Roots

/-! ## Samples -/

/-- The state the sample operations lead to. -/
theorem roots_order_free_iff_sample : ∃ s,
    sampleRun sampleOps = some s ∧
      ((∀ ord ord', (s.commitTo Sample.keccak ord Db.empty).map StateDB.Committed.roots
        = (s.commitTo Sample.keccak ord' Db.empty).map StateDB.Committed.roots) ↔
          s.Unencodable ∨ s.FewAttributes) := by
  obtain ⟨s, hexec, hg⟩ := exists_sampleRun sampleOps
  obtain ⟨hes₀, has₀⟩ := sampleOps_entries s hexec
  have hfew : s.FewAttributes :=
    (show ∀ s ∈ sampleRun sampleOps, s.FewAttributes by decide +kernel) s hexec
  have hshort : s.spaceObjectsDirty.all fun i =>
      decide (∀ obj ∈ s.spaceObjects i, (BigEndian.toBytes obj.id).length ≤ 31) :=
    (show ∀ s ∈ sampleRun sampleOps,
      s.spaceObjectsDirty.all fun i =>
        decide (∀ obj ∈ s.spaceObjects i, (BigEndian.toBytes obj.id).length ≤ 31)
      by decide +kernel) s hexec
  refine ⟨s, hexec, roots_order_free_iff hg
    (collisionFree_sampleNodes.mono ?_)⟩
  rintro e (((he | ⟨a, rfl⟩) | ⟨i, hi, obj, hobj, rfl⟩) | ⟨ord, he⟩)
  · cases he
  · exact .inl (by simp [a.length_eq])
  · exact .inl (of_decide_eq_true (List.all_eq_true.mp hshort i hi) obj hobj)
  · rcases he with ⟨es, hes, he⟩ | ⟨as, has, he⟩
    · obtain rfl := List.perm_singleton.mp (spaceEntries_perm hes₀ hes)
      exact .inr (committedNodes_sample hes₀ has₀ (.inl ⟨_, hes₀, he⟩))
    · obtain rfl := List.perm_singleton.mp (accountEntries_perm hfew has₀ has)
      exact .inr (committedNodes_sample hes₀ has₀ (.inr ⟨_, has₀, he⟩))

/-- A new account with two attributes. -/
def twoAttributes : List Op :=
  [.createSpaceAndBindAddr 1 1 (Sample.address 1), .setAttribute (Sample.address 1) [1] [2],
    .setAttribute (Sample.address 1) [3] [4]]

/-- The commits of an account with two attributes in two orders give different account roots. -/
theorem attribute_order_changes_root :
    ∃ s ∈ sampleRun twoAttributes,
      ∃ c ∈ s.commitTo Sample.keccak .plain Db.empty,
        ∃ c' ∈ s.commitTo Sample.keccak .swapped Db.empty, c.rootAccount ≠ c'.rootAccount := by
  decide +kernel

end Gocoin.State
