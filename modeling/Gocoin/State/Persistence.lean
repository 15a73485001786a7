import Gocoin.Common.Sample
import Gocoin.State.Reopen

/-!
# State/Persistence — a state survives commit and reopen

A run of operations on a state opened at two stored roots, and the commit at the end of the run.  On
healthy tries a run never fails and leaves a good and fresh state, so what the commit returns can be
opened again, and the opened state reads as the live one (`reopen_reads_live`).
-/

namespace Gocoin.State

open Trie Fold
open Sample (address keccak)

variable {H : HashFn} {get : Nodes} {C : Contents} {K : ℕ → Prop}
  {s : StateDB}

/-- **A state opens at two stored roots**, good and fresh. -/
theorem exists_new {rootSpace rootAccount : Hash} (hspace : StoredAt H get rootSpace C.space)
    (haccount : StoredAt H get rootAccount C.account) (K : ℕ → Prop) :
    ∃ s, State.new get rootSpace rootAccount = .ok s ∧ Good H get C K s ∧
      Fresh H C s ∧ s.accountObjects = (fun _ => none) ∧ s.spaceObjects = fun _ => none := by
  obtain ⟨ts, hts, hms⟩ := SecureTrie.exists_newSecure hspace 0
  obtain ⟨ta, hta, hma⟩ := SecureTrie.exists_newSecure haccount 0
  refine ⟨⟨ts, ta, fun _ => none, fun _ => none, [], []⟩, ?_, ?_, ?_, rfl, rfl⟩
  · unfold State.new
    rw [hts, hta]
    rfl
  · exact ⟨hms, hma, nofun, nofun, nofun, nofun, nofun, nofun, List.nodup_nil, List.nodup_nil⟩
  · exact ⟨nofun, nofun⟩

/-- The root of an empty trie. -/
def IsEmptyRoot (root : Hash) : Prop := root = emptyRoot ∨ root = FixedBytes.zero 32

theorem IsEmptyRoot.storedAt {root : Hash} (h : IsEmptyRoot root) :
    StoredAt H get root fun _ => none := ⟨.nil, .nil, .inl ⟨rfl, h⟩⟩

/-- The book of a state that has nothing. -/
def Book.empty : Book := ⟨fun _ => .absent, fun _ => .absent⟩

theorem book_of_empty (hca : s.accountObjects = fun _ => none)
    (hcs : s.spaceObjects = fun _ => none) : s.book H .nothing = .empty := by
  refine Book.ext (funext fun a => ?_) (funext fun i => ?_)
  · rw [book_account_eq rfl, StateDB.accountAt, hca]
    rfl
  · rw [← u64_toNat i, book_space_eq i.toNat_lt rfl, StateDB.spaceAt, hcs]
    rfl

theorem allowsStored_empty (H : HashFn) : AllowsStored H .nothing Small := ⟨by norm_num, nofun⟩

/-- **A run from nothing** returns a good state, and does to the empty book what the book says. -/
theorem exists_execute (get : Nodes) {rootSpace rootAccount : Hash} {T : Prop}
    (hspace : IsEmptyRoot rootSpace) (haccount : IsEmptyRoot rootAccount)
    (hK : AllowsStored H .nothing K) (hT : T → ∀ id, K id → Small id) (ops : List Op)
    (hids : ∀ op ∈ ops, ∀ id, op.id? = some id → K id) :
    ∃ s, execute H get rootSpace rootAccount ops = some s ∧ Good H get .nothing K s ∧
      (T → s.book H .nothing = ops.foldl Book.run .empty) := by
  obtain ⟨s₀, hnew, hg₀, -, hca, hcs⟩ :=
    exists_new (C := .nothing) hspace.storedAt haccount.storedAt K
  obtain ⟨s, hrun, hr⟩ := hg₀.exists_runAll hK hT hids
  refine ⟨s, by rw [execute, hnew]; exact hrun, hg₀.moves hK hr.moves, fun ht => ?_⟩
  rw [hr.book ht, book_of_empty hca hcs]

/-! ## Committing the state -/

namespace StateDB

/-- No changed object has a negative balance. -/
def NonNegative (s : StateDB) : Prop :=
  (∀ i ∈ s.spaceObjectsDirty, ∀ obj ∈ s.spaceObjects i, 0 ≤ obj.data.balance) ∧
    ∀ addr ∈ s.accountObjectsDirty, ∀ obj ∈ s.accountObjects addr, 0 ≤ obj.data.balance

/-- The encodings of the changed objects are not longer than slices can be. -/
def Fits (s : StateDB) (ord : IterOrder) : Prop :=
  (∀ i ∈ s.spaceObjectsDirty, ∀ obj ∈ s.spaceObjects i, ∀ it ∈ obj.data.item,
    (Rlp.encode it).length < 2 ^ 63) ∧
  ∀ addr ∈ s.accountObjectsDirty, ∀ obj ∈ s.accountObjects addr,
    ∀ it ∈ Account.item { obj.data with
      accountkey := (ord.attributes addr obj.accountAttribute.entries).map Sigma.fst
      accountValue := (ord.attributes addr obj.accountAttribute.entries).map Sigma.snd },
    (Rlp.encode it).length < 2 ^ 63

instance (s : StateDB) : Decidable s.NonNegative :=
  @instDecidableAnd _ _ (List.decidableBAll _ _) (List.decidableBAll _ _)

instance (s : StateDB) (ord : IterOrder) : Decidable (s.Fits ord) :=
  @instDecidableAnd _ _ (List.decidableBAll _ _) (List.decidableBAll _ _)

end StateDB

theorem exists_item_of_nonneg {acc : Account} (h : 0 ≤ acc.balance) : ∃ it, acc.item = some it := by
  unfold Account.item
  rw [Rlp.Item.ofInt?_of_nonneg h]
  exact ⟨_, rfl⟩

theorem exists_spaceItem_of_nonneg {sp : Space} (h : 0 ≤ sp.balance) : ∃ it, sp.item = some it := by
  unfold Space.item
  rw [Rlp.Item.ofInt?_of_nonneg h]
  exact ⟨_, rfl⟩

variable {ord : IterOrder}

/-- Changed spaces without negative balances have their entries. -/
theorem Good.exists_spaceEntries (h : Good H get C K s) (hnn : s.NonNegative)
    (hfit : s.Fits ord) : ∃ es, s.spaceEntries ord = some es := by
  refine exists_mapM_of_forall fun i hi => ?_
  replace hi := (ord.spaces_perm _).mem_iff.mp hi
  obtain ⟨obj, hobj⟩ := h.spaceDirty i hi
  obtain ⟨it, hit⟩ := exists_spaceItem_of_nonneg (hnn.1 i hi obj hobj)
  rw [StateDB.spaceEntry, hobj, Option.bind_some, SpaceObject.entry, SpaceObject.encodeRLP, hit,
    Option.bind_some, encodeToBytes, if_pos (hfit.1 i hi obj hobj it hit)]
  split
  · exact ⟨_, rfl⟩
  · exact ⟨_, rfl⟩

theorem Good.exists_accountEntries (h : Good H get C K s) (hnn : s.NonNegative)
    (hfit : s.Fits ord) : ∃ es, s.accountEntries ord = some es := by
  refine exists_mapM_of_forall fun addr haddr => ?_
  replace haddr := (ord.accounts_perm _).mem_iff.mp haddr
  obtain ⟨obj, hobj⟩ := h.accountDirty addr haddr
  have hbalance : 0 ≤ Account.balance { obj.data with
      accountkey := (ord.attributes addr obj.accountAttribute.entries).map Sigma.fst
      accountValue := (ord.attributes addr obj.accountAttribute.entries).map Sigma.snd } :=
    hnn.2 addr haddr obj hobj
  obtain ⟨it, hit⟩ := exists_item_of_nonneg hbalance
  rw [StateDB.accountEntry, hobj, Option.bind_some, AccountObject.entry, AccountObject.encodeRLP,
    hit, Option.bind_some, encodeToBytes, if_pos (hfit.2 addr haddr obj hobj it hit)]
  split
  · exact ⟨_, rfl⟩
  · exact ⟨_, rfl⟩

/-- The encodings of the nodes of the two tries a commit leaves. -/
def committedNodes (H : HashFn) (ord : IterOrder) (C : Contents) (s : StateDB) : Set Bytes :=
  {e | ∃ es, s.spaceEntries ord = some es ∧ e ∈ nodesOf H (writeAll H C.space es)} ∪
    {e | ∃ es, s.accountEntries ord = some es ∧ e ∈ nodesOf H (writeAll H C.account es)}

/-- The strings that are hashed: what the database has under its own hash, the addresses and the
ids, and the nodes the commit stores. -/
def dataInvolved (H : HashFn) (ord : IterOrder) (db : Db) (C : Contents) (s : StateDB) :
    Set Bytes :=
  storedNodes H db ∪ Set.range (FixedBytes.bytes (n := 20)) ∪
    {b | ∃ id < 2 ^ 64, b = BigEndian.toBytes id} ∪ committedNodes H ord C s

/-- The state a commit leaves is good, over the new maps. -/
theorem Good.committed {db : Db} (h : Good H get C K s) {s' : StateDB} {C' : Contents}
    (hspace : s'.trieSpace.trie.Models H db.nodes C'.space)
    (haccount : s'.trieAccount.trie.Models H db.nodes C'.account)
    (hsp : s'.spaceObjects = s.spaceObjects) (hacc : s'.accountObjects = s.accountObjects)
    (hspd : s'.spaceObjectsDirty = []) (haccd : s'.accountObjectsDirty = []) :
    Good H db.nodes C' K s' where
  space := hspace
  account := haccount
  accountKey := hacc ▸ h.accountKey
  spaceKey := hsp ▸ h.spaceKey
  spaceId := hsp ▸ h.spaceId
  bind := hacc ▸ h.bind
  accountDirty := by simp [haccd]
  spaceDirty := by simp [hspd]
  accountNodup := by simp [haccd]
  spaceNodup := by simp [hspd]

/-- **The state survives commit and reopen.**  A state opened at two stored roots goes through a
sequence of operations that use ids below `2 ^ 64` — the stored accounts are bound to such ids — and
leave no negative balance; the commit returns two roots, the state opens at them, and every account
and every space with an id below `2 ^ 64` reads there as on the live state, before and after the
commit. -/
theorem reopen_reads_live {H : HashFn} {db : Db} {rootSpace rootAccount : Hash}
    {C : Contents} (hspace : StoredAt H db.nodes rootSpace C.space)
    (haccount : StoredAt H db.nodes rootAccount C.account)
    (hbind : ∀ addr obj, C.storedAccount H addr = .found obj → obj.data.bindSpaceId < 2 ^ 64)
    {ops : List Op} (hids : ∀ op ∈ ops, ∀ id ∈ op.id?, id < 2 ^ 64) (ord : IterOrder)
    (hnonneg : ∀ s ∈ execute H db.nodes rootSpace rootAccount ops, s.NonNegative)
    (hfit : ∀ s ∈ execute H db.nodes rootSpace rootAccount ops, s.Fits ord)
    (hfree : ∀ s ∈ execute H db.nodes rootSpace rootAccount ops,
      CollisionFree H (dataInvolved H ord db C s)) :
    ∃ s c s', execute H db.nodes rootSpace rootAccount ops = some s ∧ s.commitTo H ord db = some c ∧
      State.new c.db.nodes c.rootSpace c.rootAccount = .ok s' ∧
      (∀ addr, ∃ v, s.viewAccount H db.nodes addr = some v ∧
        c.state.viewAccount H c.db.nodes addr = some v ∧
        s'.viewAccount H c.db.nodes addr = some v) ∧
      ∀ id < 2 ^ 64, ∃ v, s.viewSpace H db.nodes id = some v ∧
        c.state.viewSpace H c.db.nodes id = some v ∧
        s'.viewSpace H c.db.nodes id = some v := by
  have hK : AllowsStored H C (· < 2 ^ 64) := ⟨by norm_num, hbind⟩
  obtain ⟨s₀, hnew, hg₀, hf₀, -⟩ := exists_new hspace haccount (· < 2 ^ 64)
  obtain ⟨s, hrun, hm, -⟩ := hg₀.exists_runAll hK False.elim hids
  have hexec : execute H db.nodes rootSpace rootAccount ops = some s := by
    rw [execute, hnew]
    exact hrun
  have hg := hg₀.moves hK hm
  have hf := hf₀.moves hK hg₀ hm
  have hD := hfree s hexec
  have hinjA := hD.address_inj fun a => .inl (.inl (.inr ⟨a, rfl⟩))
  have hinjS : ∀ m n, m < 2 ^ 64 → n < 2 ^ 64 →
      H (BigEndian.toBytes m) = H (BigEndian.toBytes n) → m = n := fun m n hm hn =>
    hD.id_inj (.inl (.inr ⟨m, hm, rfl⟩)) (.inl (.inr ⟨n, hn, rfl⟩))
  obtain ⟨es, hes⟩ := hg.exists_spaceEntries (hnonneg s hexec) (hfit s hexec)
  obtain ⟨as, has⟩ := hg.exists_accountEntries (hnonneg s hexec) (hfit s hexec)
  obtain ⟨c, hc, -, -, hsts, hsta, hms, hma, hcs, hca, hds, hda, -⟩ := hg.exists_commitTo hD
    (fun e he => .inl (.inl (.inl he))) hes has (fun e he => .inr (.inl ⟨es, hes, he⟩))
    (fun e he => .inr (.inr ⟨as, has, he⟩))
  let C' : Contents := ⟨writeAll H C.space es, writeAll H C.account as⟩
  obtain ⟨s', hnew', hg', -, hca', hcs'⟩ := exists_new (C := C') hsts hsta (· < 2 ^ 64)
  have hgc : Good H c.db.nodes C' (· < 2 ^ 64) c.state := hg.committed hms hma hcs hca hds hda
  refine ⟨s, c, s', hexec, hc, hnew', fun addr => ?_, fun id hid => ?_⟩
  · have hview := hf.view_accountAt hg hinjA has C'.space addr
    refine ⟨_, hg.viewAccount_eq addr, ?_, ?_⟩
    · rw [hgc.viewAccount_eq addr, Option.some.injEq]
      unfold StateDB.accountAt at hview ⊢
      rw [hca]
      cases hobj : s.accountObjects addr with
      | none => rw [hobj] at hview; exact hview.symm
      | some obj => rfl
    · rw [hg'.viewAccount_eq addr, hview, StateDB.accountAt, hca']
  · have hview := hf.view_spaceAt hg hinjS (fun m n => u64_inj) hes C'.account hid
    refine ⟨_, hg.viewSpace_eq hid, ?_, ?_⟩
    · rw [hgc.viewSpace_eq hid, Option.some.injEq]
      unfold StateDB.spaceAt at hview ⊢
      rw [hcs]
      cases hobj : s.spaceObjects (u64 id) with
      | none => rw [hobj] at hview; exact hview.symm
      | some obj => rfl
    · rw [hg'.viewSpace_eq hid, hview, StateDB.spaceAt, hcs']

/-- A sample run: operations, from nothing. -/
def sampleRun (ops : List Op) : Option StateDB :=
  execute keccak Db.empty.nodes emptyRoot emptyRoot ops

theorem exists_sampleRun (ops : List Op) : ∃ s, sampleRun ops = some s ∧
    Good keccak Db.empty.nodes .nothing (fun _ => True) s := by
  obtain ⟨s, hs, hg, -⟩ := exists_execute Db.empty.nodes (.inl rfl) (.inl rfl)
    (allowsStored_true _ _) False.elim ops fun _ _ _ _ => trivial
  exact ⟨s, hs, hg⟩

theorem exists_sampleRun_book (ops : List Op)
    (hids : ∀ op ∈ ops, ∀ id, op.id? = some id → Small id) :
    ∃ s, sampleRun ops = some s ∧ Good keccak Db.empty.nodes .nothing Small s ∧
      s.book keccak .nothing = ops.foldl Book.run .empty := by
  obtain ⟨s, hs, hg, hbook⟩ := exists_execute Db.empty.nodes (.inl rfl) (.inl rfl)
    (allowsStored_empty _) (fun _ _ h => h) ops hids
  exact ⟨s, hs, hg, hbook trivial⟩

/-- A space, an attribute and a balance for a new account. -/
def sampleOps : List Op :=
  [.createSpaceAndBindAddr 1 1 (address 1), .setAttribute (address 1) [1] [2],
    .addBalance (address 1) 5]

/-- The entry of the space the operations make. -/
def sampleSpaceEntry : Entry :=
  ⟨[1], some (Rlp.encode (.list [.str [], .str [], .list [.str (address 1).bytes]]))⟩

/-- The entry of the account. -/
def sampleAccountEntry : Entry :=
  ⟨(address 1).bytes, some (Rlp.encode (.list [.ofNat 1, .ofNat 5, .ofNat 1, .str [],
    .ofStrings [[1]], .ofStrings [[2]]]))⟩

/-- The only node of a trie with one entry. -/
def sampleNode (e : Entry) : Bytes :=
  enc keccak (.short (path (keccak e.key)) (.value (e.value.getD [])))

theorem nodesOf_sample {e : Entry} {v : Bytes} (he : e.value = some v) (hv : Value v) :
    nodesOf keccak (writeAll keccak (fun _ => none) [e]) ⊆ {sampleNode e} := by
  have hsub : nodesOf keccak _ ⊆ _ := nodesOf_single (keccak e.key) hv
  rw [sampleNode, he]
  show nodesOf keccak (Function.update _ (keccak e.key) e.value) ⊆ _
  rw [he]
  exact hsub

/-- The nodes of the two tries the sample operations lead to. -/
def sampleNodes : List Bytes := [sampleNode sampleSpaceEntry, sampleNode sampleAccountEntry]

theorem collisionFree_sampleNodes :
    CollisionFree keccak ({b | b.length ≤ 31} ∪ {e | e ∈ sampleNodes}) :=
  Sample.collisionFree_of_long (by decide +kernel) (by decide +kernel)

theorem sampleOps_entries :
    ∀ s ∈ sampleRun sampleOps,
      s.spaceEntries .plain = some [sampleSpaceEntry] ∧
        s.accountEntries .plain = some [sampleAccountEntry] := by
  decide +kernel

theorem committedNodes_sample {s : StateDB} (hes : s.spaceEntries ord = some [sampleSpaceEntry])
    (has : s.accountEntries ord = some [sampleAccountEntry]) :
    committedNodes keccak ord .nothing s ⊆ {e | e ∈ sampleNodes} := by
  rintro e (⟨es, h, he⟩ | ⟨es, h, he⟩)
  · obtain rfl := Option.some.inj (hes.symm.trans h)
    rw [nodesOf_sample rfl ⟨by decide +kernel, by decide +kernel⟩ he]
    exact List.mem_cons_self
  · obtain rfl := Option.some.inj (has.symm.trans h)
    rw [nodesOf_sample rfl ⟨by decide +kernel, by decide +kernel⟩ he]
    exact List.mem_cons_of_mem _ List.mem_cons_self

/-- The sample hash has no collision on the data of the sample operations. -/
theorem collisionFree_sample : ∀ s ∈ sampleRun
    sampleOps, CollisionFree keccak
      (dataInvolved keccak .plain Db.empty .nothing s) := by
  intro s hs
  obtain ⟨hes, has⟩ := sampleOps_entries s hs
  refine collisionFree_sampleNodes.mono ?_
  rintro e (((he | ⟨a, rfl⟩) | ⟨id, hid, rfl⟩) | he)
  · cases he
  · exact .inl (by simp [a.length_eq])
  · exact .inl ((BigEndian.length_toBytes_le (k := 8) (by omega)).trans (by norm_num))
  · exact .inr (committedNodes_sample hes has he)

/-- The sample operations on the empty state. -/
theorem reopen_reads_live_sample : ∃ s c s',
    sampleRun sampleOps = some s ∧ s.commitTo keccak .plain Db.empty = some c ∧
      State.new c.db.nodes c.rootSpace c.rootAccount = .ok s' ∧
      (∀ addr, ∃ v, s.viewAccount keccak Db.empty.nodes addr = some v ∧
        c.state.viewAccount keccak c.db.nodes addr = some v ∧
        s'.viewAccount keccak c.db.nodes addr = some v) ∧
      ∀ id < 2 ^ 64, ∃ v, s.viewSpace keccak Db.empty.nodes id = some v ∧
        c.state.viewSpace keccak c.db.nodes id = some v ∧
        s'.viewSpace keccak c.db.nodes id = some v :=
  reopen_reads_live (C := .nothing) (IsEmptyRoot.storedAt (.inl rfl))
    (IsEmptyRoot.storedAt (.inl rfl)) nofun (by decide) .plain (by decide +kernel)
    (by decide +kernel) collisionFree_sample

end Gocoin.State
