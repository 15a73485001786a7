import Gocoin.Machinery.Fold
import Gocoin.State.Commit
import Gocoin.State.Moves

/-!
# State/Finalise — what a commit writes

`SpaceFinalise` and `AccountFinalise` turn every dirty object into one entry of a trie — the
encoding of the object, or a deletion when it is empty — and apply the entries one after the other.
An object without an encoding makes the commit crash; otherwise the two tries stand, after it, for
the old maps with the entries written over them (`Good.exists_commitTo`).
-/

namespace Gocoin.State

open Trie Fold

/-- A change of a trie: a key, and its new value unless it is deleted. -/
structure Entry where
  key : Bytes
  value : Option Bytes
  deriving DecidableEq

/-- The entry of a space; none when the space has no encoding. -/
def SpaceObject.entry (obj : SpaceObject) : Option Entry :=
  if obj.empty then some ⟨BigEndian.toBytes obj.id, none⟩
  else obj.encodeRLP.map fun data => ⟨BigEndian.toBytes obj.id, some data⟩

/-- The entry of an account whose attributes are walked in an order. -/
def AccountObject.entry (obj : AccountObject) (order : Entries) : Option Entry :=
  if obj.empty then some ⟨obj.address.bytes, none⟩
  else (obj.encodeRLP order).map fun data => ⟨obj.address.bytes, some data⟩

/-- The entry `SpaceFinalise` makes of a space, which deletes empty spaces only when told to. -/
def SpaceObject.entryFor (deleteEmptyObjects : Bool) (obj : SpaceObject) : Option Entry :=
  if deleteEmptyObjects && obj.empty then some ⟨BigEndian.toBytes obj.id, none⟩
  else obj.encodeRLP.map fun data => ⟨BigEndian.toBytes obj.id, some data⟩

/-- …and `AccountFinalise` of an account. -/
def AccountObject.entryFor (deleteEmptyObjects : Bool) (obj : AccountObject) (order : Entries) :
    Option Entry :=
  if deleteEmptyObjects && obj.empty then some ⟨obj.address.bytes, none⟩
  else (obj.encodeRLP order).map fun data => ⟨obj.address.bytes, some data⟩

section Tries

variable (H : HashFn) (get : Nodes)

/-- The entry is written to a trie; a missing node leaves the trie as it was. -/
def applyEntry (t : SecureTrie) (e : Entry) : Option SecureTrie :=
  match e.value with
  | none =>
    match t.tryDelete H get e.key with
    | (_, .error .panic) => none
    | (t, _) => some t
  | some data =>
    match t.tryUpdate H get e.key data with
    | .error .panic => none
    | .error (.missing _) => some t
    | .ok t => some t

/-- The entries written over a map. -/
def writeAll (m : HashMap) (es : List Entry) : HashMap :=
  es.foldl (fun m e => Function.update m (H e.key) e.value) m

variable {H get}

variable {m : HashMap} {es : List Entry}

variable {t : SecureTrie} {e : Entry} {x : Hash} {es' : List Entry}

theorem exists_applyEntry (h : t.trie.Models H get m) (he : ∀ v, e.value = some v → Value v) :
    ∃ t', applyEntry H get t e = some t' ∧
      t'.trie.Models H get (Function.update m (H e.key) e.value) := by
  unfold applyEntry
  cases hv : e.value with
  | none =>
    obtain ⟨t', ht, hm⟩ := SecureTrie.exists_tryDelete h e.key
    exact ⟨t', by rw [ht], hm⟩
  | some data =>
    obtain ⟨t', ht, hm⟩ := SecureTrie.exists_tryUpdate h e.key (he data hv)
    exact ⟨t', by simp only [ht], hm⟩

/-- Writing entries to a trie writes them over its map. -/
theorem exists_foldlM_applyEntry (hes : ∀ e ∈ es, ∀ v, e.value = some v → Value v)
    (h : t.trie.Models H get m) :
    ∃ t', es.foldlM (applyEntry H get) t = some t' ∧ t'.trie.Models H get (writeAll H m es) := by
  induction es generalizing t m with
  | nil => exact ⟨t, rfl, h⟩
  | cons e es ih =>
    obtain ⟨t₁, ht₁, hm₁⟩ := exists_applyEntry h (hes e List.mem_cons_self)
    obtain ⟨t₂, ht₂, hm₂⟩ := ih (fun e' he' => hes e' (List.mem_cons_of_mem e he')) hm₁
    refine ⟨t₂, ?_, hm₂⟩
    rw [List.foldlM_cons, ht₁, some_bind, ht₂]

/-- Outside the written keys the map is as before. -/
theorem writeAll_of_forall_ne (h : ∀ e ∈ es, H e.key ≠ x) (m : HashMap) :
    writeAll H m es x = m x := by
  induction es generalizing m with
  | nil => rfl
  | cons e es ih =>
    show writeAll H (Function.update m (H e.key) e.value) es x = m x
    rw [ih fun e' he' => h e' (List.mem_cons_of_mem e he'),
      Function.update_of_ne (h e List.mem_cons_self).symm]

/-- At a key the map has the value that all entries for it write, when there is one or the value was
there before. -/
theorem writeAll_of_agree {v : Option Bytes} (h : ∀ e ∈ es, H e.key = x → e.value = v)
    (hx : m x = v ∨ ∃ e ∈ es, H e.key = x) :
    writeAll H m es x = v := by
  induction es generalizing m with
  | nil =>
    rcases hx with hx | ⟨e, he, -⟩
    · exact hx
    · exact absurd he List.not_mem_nil
  | cons e es ih =>
    refine ih (fun e' he' => h e' (List.mem_cons_of_mem e he'))
      (m := Function.update m (H e.key) e.value) ?_
    by_cases hkey : H e.key = x
    · exact .inl (by rw [hkey, Function.update_self, h e List.mem_cons_self hkey])
    · rw [Function.update_of_ne (Ne.symm hkey)]
      rcases hx with hx | ⟨e', he', hx⟩
      · exact .inl hx
      · rcases List.mem_cons.mp he' with rfl | he'
        · exact absurd hx hkey
        · exact .inr ⟨e', he', hx⟩

/-- No two entries write different values to one place. -/
def Consistent (H : HashFn) (es : List Entry) : Prop :=
  ∀ e ∈ es, ∀ e' ∈ es, H e.key = H e'.key → e.value = e'.value

theorem writeAll_of_mem (h : Consistent H es) (he : e ∈ es) (m : HashMap) :
    writeAll H m es (H e.key) = e.value :=
  writeAll_of_agree (fun e' he' hkey => h e' he' e he hkey) (.inr ⟨e, he, rfl⟩)

/-- Fewer entries written over another map give the same map when that map has the entries that are
not written to it, and differs from the first map at most where there are entries. -/
theorem writeAll_eq_iff (h : Consistent H es) (hsub : ∀ e ∈ es', e ∈ es) {m' : HashMap}
    (hm : ∀ x, m' x = m x ∨ ∃ e ∈ es, H e.key = x) :
    writeAll H m es = writeAll H m' es' ↔
      ∀ e ∈ es, (∀ e' ∈ es', H e'.key ≠ H e.key) → m' (H e.key) = e.value := by
  constructor
  · intro heq e he hne
    rw [← writeAll_of_forall_ne hne m', ← heq, writeAll_of_mem h he]
  · intro hval
    have h' : Consistent H es' := fun e he e' he' => h e (hsub e he) e' (hsub e' he')
    funext x
    by_cases hx : ∃ e ∈ es, H e.key = x
    · obtain ⟨e, he, rfl⟩ := hx
      rw [writeAll_of_mem h he]
      by_cases hx' : ∃ e' ∈ es', H e'.key = H e.key
      · obtain ⟨e', he', hkey⟩ := hx'
        rw [← hkey, writeAll_of_mem h' he', h e he e' (hsub e' he') hkey.symm]
      · have hne : ∀ e' ∈ es', H e'.key ≠ H e.key := fun e' he' hk => hx' ⟨e', he', hk⟩
        rw [writeAll_of_forall_ne hne, hval e he hne]
    · have hne : ∀ e ∈ es, H e.key ≠ x := fun e he hk => hx ⟨e, he, hk⟩
      rw [writeAll_of_forall_ne hne, writeAll_of_forall_ne fun e he => hne e (hsub e he)]
      exact ((hm x).resolve_right hx).symm

/-- **The order of the entries does not matter.** -/
theorem writeAll_perm (h : Consistent H es) (hp : es.Perm es') (m : HashMap) :
    writeAll H m es = writeAll H m es' :=
  (writeAll_eq_iff h (fun _ he => hp.mem_iff.mpr he) fun _ => .inl rfl).mpr fun e he hne =>
    absurd rfl (hne e (hp.mem_iff.mp he))

section Indexed

variable {ι : Type} {f : ι → Option Entry} {l l' : List ι} {es es' : List Entry}

/-- Entries of objects that are kept at different places do not meet. -/
theorem consistent_of_mapM (hes : l.mapM f = some es)
    (hinj : ∀ i ∈ l, ∀ j ∈ l, ∀ e, f i = some e → ∀ e', f j = some e' →
      H e.key = H e'.key → i = j) : Consistent H es := by
  intro e he e' he' hkey
  obtain ⟨i, hi, hfi⟩ := (mem_of_mapM_eq_some hes).2 e he
  obtain ⟨j, hj, hfj⟩ := (mem_of_mapM_eq_some hes).2 e' he'
  obtain rfl := hinj i hi j hj e hfi e' hfj hkey
  rw [Option.some.inj (hfi.symm.trans hfj)]

/-- **Writing the entries of fewer objects gives the same map** exactly when the others are there
already. -/
theorem writeAll_mapM_eq_iff (hes : l.mapM f = some es) (hes' : l'.mapM f = some es')
    (hsub : ∀ i ∈ l', i ∈ l) (hinj : ∀ i ∈ l, ∀ j ∈ l, ∀ e, f i = some e → ∀ e', f j = some e' →
      H e.key = H e'.key → i = j) {m m' : HashMap}
    (hm : ∀ x, m' x = m x ∨ ∃ i ∈ l, ∃ e, f i = some e ∧ H e.key = x) :
    writeAll H m es = writeAll H m' es' ↔
      ∀ i ∈ l, i ∉ l' → ∃ e, f i = some e ∧ m' (H e.key) = e.value := by
  have hall := mem_of_mapM_eq_some hes
  have hall' := mem_of_mapM_eq_some hes'
  have hfewer : ∀ e ∈ es', e ∈ es := by
    intro e he
    obtain ⟨i, hi, hfi⟩ := hall'.2 e he
    obtain ⟨e', he', hfi'⟩ := hall.1 i (hsub i hi)
    rwa [Option.some.inj (hfi.symm.trans hfi')]
  have hdiff : ∀ x, m' x = m x ∨ ∃ e ∈ es, H e.key = x := by
    intro x
    refine (hm x).imp_right ?_
    rintro ⟨i, hi, e, hfi, rfl⟩
    obtain ⟨e', he', hfi'⟩ := hall.1 i hi
    exact ⟨e', he', by rw [Option.some.inj (hfi'.symm.trans hfi)]⟩
  rw [writeAll_eq_iff (consistent_of_mapM hes hinj) hfewer hdiff]
  constructor
  · intro hval i hi hnot
    obtain ⟨e, he, hfi⟩ := hall.1 i hi
    refine ⟨e, hfi, hval e he fun e' he' hkey => hnot ?_⟩
    obtain ⟨j, hj, hfj⟩ := hall'.2 e' he'
    rwa [hinj i hi j (hsub j hj) e hfi e' hfj hkey.symm]
  · intro hset e he hne
    obtain ⟨i, hi, hfi⟩ := hall.2 e he
    have hnot : i ∉ l' := by
      intro hi'
      obtain ⟨e', he', hfi'⟩ := hall'.1 i hi'
      exact hne e' he' (by rw [Option.some.inj (hfi'.symm.trans hfi)])
    obtain ⟨e', hfi', hval⟩ := hset i hi hnot
    rwa [Option.some.inj (hfi'.symm.trans hfi)] at hval

end Indexed

end Tries

/-! ## The finalisers -/

namespace StateDB

variable (H : HashFn) (ord : IterOrder) (get : Nodes)

/-- The entry of a cached space. -/
def spaceEntry (s : StateDB) (i : UInt64) : Option Entry :=
  (s.spaceObjects i).bind SpaceObject.entry

/-- The entry of a cached account. -/
def accountEntry (s : StateDB) (addr : Address) : Option Entry :=
  (s.accountObjects addr).bind fun obj =>
    obj.entry (ord.attributes addr obj.accountAttribute.entries)

/-- The entries `SpaceFinalise` applies. -/
def spaceEntries (s : StateDB) : Option (List Entry) :=
  (ord.spaces s.spaceObjectsDirty).mapM s.spaceEntry

/-- The entries `AccountFinalise` applies. -/
def accountEntries (s : StateDB) : Option (List Entry) :=
  (ord.accounts s.accountObjectsDirty).mapM (s.accountEntry ord)

/-- The entries `SpaceFinalise` applies when it is told whether to delete empty spaces. -/
def spaceEntriesFor (deleteEmptyObjects : Bool) (s : StateDB) : Option (List Entry) :=
  (ord.spaces s.spaceObjectsDirty).mapM fun i =>
    (s.spaceObjects i).bind (SpaceObject.entryFor deleteEmptyObjects)

/-- The entries `AccountFinalise` applies when it is told whether to delete empty accounts. -/
def accountEntriesFor (deleteEmptyObjects : Bool) (s : StateDB) : Option (List Entry) :=
  (ord.accounts s.accountObjectsDirty).mapM fun addr =>
    (s.accountObjects addr).bind fun obj =>
      obj.entryFor deleteEmptyObjects (ord.attributes addr obj.accountAttribute.entries)

variable (b : Bool)

section

variable (s : StateDB)
include s

theorem finaliseSpace_eq (t : SecureTrie) (i : UInt64) :
    finaliseSpace H get b { s with trieSpace := t } i
      = (((s.spaceObjects i).bind (SpaceObject.entryFor b)).bind (applyEntry H get t)).map
          fun t => { s with trieSpace := t } := by
  unfold finaliseSpace SpaceObject.entryFor applyEntry
  cases hobj : s.spaceObjects i with
  | none => simp
  | some obj =>
    simp only [Option.bind_eq_bind, Option.bind_some]
    cases b && obj.empty with
    | true =>
      simp only [if_true, Option.bind_some]
      rcases t.tryDelete H get (BigEndian.toBytes obj.id) with ⟨t', (_ | _) | _⟩ <;> rfl
    | false =>
      simp only [Bool.false_eq_true, if_false]
      cases obj.encodeRLP with
      | none => rfl
      | some data =>
        simp only [Option.map_some, Option.bind_some]
        rcases t.tryUpdate H get (BigEndian.toBytes obj.id) data with (_ | _) | _ <;> rfl

theorem finaliseAccount_eq (t : SecureTrie) (addr : Address) :
    finaliseAccount H ord get b { s with trieAccount := t } addr
      = (((s.accountObjects addr).bind fun obj =>
          obj.entryFor b (ord.attributes addr obj.accountAttribute.entries)).bind
            (applyEntry H get t)).map fun t => { s with trieAccount := t } := by
  unfold finaliseAccount AccountObject.entryFor applyEntry
  cases hobj : s.accountObjects addr with
  | none => simp
  | some obj =>
    simp only [Option.bind_eq_bind, Option.bind_some]
    cases b && obj.empty with
    | true =>
      simp only [if_true, Option.bind_some]
      rcases t.tryDelete H get obj.address.bytes with ⟨t', (_ | _) | _⟩ <;> rfl
    | false =>
      simp only [Bool.false_eq_true, if_false]
      cases obj.encodeRLP (ord.attributes addr obj.accountAttribute.entries) with
      | none => rfl
      | some data =>
        simp only [Option.map_some, Option.bind_some]
        rcases t.tryUpdate H get obj.address.bytes data with (_ | _) | _ <;> rfl

/-- **`SpaceFinalise` applies the entries of the dirty spaces.** -/
theorem spaceFinalise_for :
    s.spaceFinalise H ord get b = (s.spaceEntriesFor ord b).bind fun es =>
      (es.foldlM (applyEntry H get) s.trieSpace).map fun t =>
        { s with trieSpace := t, spaceObjectsDirty := [] } := by
  have hfold := foldlM_part (fun t => { s with trieSpace := t })
    (l := ord.spaces s.spaceObjectsDirty) (fun t i _ => finaliseSpace_eq H get b s t i)
    s.trieSpace
  rw [foldlM_bind_entries] at hfold
  unfold spaceFinalise spaceEntriesFor
  rw [show s = { s with trieSpace := s.trieSpace } from rfl, hfold]
  cases (ord.spaces s.spaceObjectsDirty).mapM fun i =>
    (s.spaceObjects i).bind (SpaceObject.entryFor b) with
  | none => rfl
  | some es =>
    simp only [Option.bind_some, Option.bind_eq_bind]
    cases es.foldlM (applyEntry H get) s.trieSpace <;> rfl

/-- **`AccountFinalise` applies the entries of the dirty accounts.** -/
theorem accountFinalise_for :
    s.accountFinalise H ord get b = (s.accountEntriesFor ord b).bind fun es =>
      (es.foldlM (applyEntry H get) s.trieAccount).map fun t =>
        { s with trieAccount := t, accountObjectsDirty := [] } := by
  have hfold := foldlM_part (fun t => { s with trieAccount := t })
    (l := ord.accounts s.accountObjectsDirty)
    (fun t addr _ => finaliseAccount_eq H ord get b s t addr) s.trieAccount
  rw [foldlM_bind_entries] at hfold
  unfold accountFinalise accountEntriesFor
  rw [show s = { s with trieAccount := s.trieAccount } from rfl, hfold]
  cases (ord.accounts s.accountObjectsDirty).mapM fun addr =>
    (s.accountObjects addr).bind fun obj =>
    obj.entryFor b (ord.attributes addr obj.accountAttribute.entries) with
  | none => rfl
  | some es =>
    simp only [Option.bind_some, Option.bind_eq_bind]
    cases es.foldlM (applyEntry H get) s.trieAccount <;> rfl

/-- A commit deletes empty spaces. -/
theorem spaceFinalise_eq :
    s.spaceFinalise H ord get true = (s.spaceEntries ord).bind fun es =>
      (es.foldlM (applyEntry H get) s.trieSpace).map fun t =>
        { s with trieSpace := t, spaceObjectsDirty := [] } :=
  s.spaceFinalise_for H ord get true

theorem accountFinalise_eq :
    s.accountFinalise H ord get true = (s.accountEntries ord).bind fun es =>
      (es.foldlM (applyEntry H get) s.trieAccount).map fun t =>
        { s with trieAccount := t, accountObjectsDirty := [] } :=
  s.accountFinalise_for H ord get true

end

end StateDB

/-! ## The values of the entries -/

theorem value_of_encodeToBytes {it : Rlp.Item} {b : Bytes} (h : encodeToBytes it = some b) :
    Value b ∧ b = Rlp.encode it := by
  unfold encodeToBytes at h
  simp only at h
  split at h
  · next hlen =>
    obtain rfl := Option.some.inj h
    exact ⟨⟨List.length_pos_iff.mp (Rlp.length_encode_pos it), hlen⟩, rfl⟩
  · cases h

variable {e : Entry} {b : Bool} {obj : SpaceObject} {order : Entries}

theorem value_of_spaceEntryFor (h : obj.entryFor b = some e) :
    e.key = BigEndian.toBytes obj.id ∧ ∀ v, e.value = some v → Value v := by
  unfold SpaceObject.entryFor at h
  split at h
  · cases h
    exact ⟨rfl, nofun⟩
  · obtain ⟨data, hdata, rfl⟩ := Option.map_eq_some_iff.mp h
    obtain ⟨it, -, hit⟩ := Option.bind_eq_some_iff.mp hdata
    exact ⟨rfl, fun v hv => Option.some.inj hv ▸ (value_of_encodeToBytes hit).1⟩

theorem value_of_accountEntryFor {obj : AccountObject} (h : obj.entryFor b order = some e) :
    e.key = obj.address.bytes ∧ ∀ v, e.value = some v → Value v := by
  unfold AccountObject.entryFor at h
  split at h
  · cases h
    exact ⟨rfl, nofun⟩
  · obtain ⟨data, hdata, rfl⟩ := Option.map_eq_some_iff.mp h
    obtain ⟨it, -, hit⟩ := Option.bind_eq_some_iff.mp hdata
    exact ⟨rfl, fun v hv => Option.some.inj hv ▸ (value_of_encodeToBytes hit).1⟩

theorem value_of_spaceEntry (h : obj.entry = some e) :
    e.key = BigEndian.toBytes obj.id ∧ ∀ v, e.value = some v → Value v :=
  value_of_spaceEntryFor (b := true) h

theorem value_of_accountEntry {obj : AccountObject} (h : obj.entry order = some e) :
    e.key = obj.address.bytes ∧ ∀ v, e.value = some v → Value v :=
  value_of_accountEntryFor (b := true) h

namespace StateDB

variable {s : StateDB} {ord : IterOrder} {b : Bool} {es : List Entry}

theorem value_of_spaceEntriesFor (h : s.spaceEntriesFor ord b = some es) :
    ∀ e ∈ es, ∀ v, e.value = some v → Value v := by
  intro e he
  obtain ⟨i, -, hi⟩ := (mem_of_mapM_eq_some h).2 e he
  obtain ⟨obj, -, hobj⟩ := Option.bind_eq_some_iff.mp hi
  exact (value_of_spaceEntryFor hobj).2

theorem value_of_accountEntriesFor (h : s.accountEntriesFor ord b = some es) :
    ∀ e ∈ es, ∀ v, e.value = some v → Value v := by
  intro e he
  obtain ⟨addr, -, haddr⟩ := (mem_of_mapM_eq_some h).2 e he
  obtain ⟨obj, -, hobj⟩ := Option.bind_eq_some_iff.mp haddr
  exact (value_of_accountEntryFor hobj).2

end StateDB

/-! ## Entries and dirty objects -/

section Dirty

variable {H : HashFn} {get : Nodes} {C : Contents} {K : ℕ → Prop}
  {s : StateDB} {ord : IterOrder} {es : List Entry} {e : Entry} {b : Bool} {addr : Address}
  {i : UInt64}

/-- Every entry of the account trie is at the key of a dirty account. -/
theorem Good.mem_dirty_of_accountEntriesFor (h : Good H get C K s)
    (hes : s.accountEntriesFor ord b = some es) (he : e ∈ es) :
    ∃ addr ∈ s.accountObjectsDirty, e.key = addr.bytes := by
  obtain ⟨addr, haddr, hentry⟩ := (mem_of_mapM_eq_some hes).2 e he
  obtain ⟨obj, hobj, hentry⟩ := Option.bind_eq_some_iff.mp hentry
  refine ⟨addr, (ord.accounts_perm _).mem_iff.mp haddr, ?_⟩
  rw [(value_of_accountEntryFor hentry).1, h.accountKey addr obj hobj]

theorem mem_dirty_of_spaceEntriesFor (hes : s.spaceEntriesFor ord b = some es) (he : e ∈ es) :
    ∃ i ∈ s.spaceObjectsDirty, ∃ obj, s.spaceObjects i = some obj ∧
      e.key = BigEndian.toBytes obj.id := by
  obtain ⟨i, hi, hentry⟩ := (mem_of_mapM_eq_some hes).2 e he
  obtain ⟨obj, hobj, hentry⟩ := Option.bind_eq_some_iff.mp hentry
  exact ⟨i, (ord.spaces_perm _).mem_iff.mp hi, obj, hobj, (value_of_spaceEntryFor hentry).1⟩

theorem Good.key_of_accountEntry (h : Good H get C K s) (he : s.accountEntry ord addr = some e) :
    e.key = addr.bytes := by
  obtain ⟨obj, hobj, hentry⟩ := Option.bind_eq_some_iff.mp he
  rw [(value_of_accountEntry hentry).1, h.accountKey addr obj hobj]

theorem key_of_spaceEntry (he : s.spaceEntry i = some e) :
    ∃ obj, s.spaceObjects i = some obj ∧ e.key = BigEndian.toBytes obj.id := by
  obtain ⟨obj, hobj, hentry⟩ := Option.bind_eq_some_iff.mp he
  exact ⟨obj, hobj, (value_of_spaceEntry hentry).1⟩

/-- Every dirty account has an entry. -/
theorem Good.exists_accountEntry (h : Good H get C K s) (hes : s.accountEntries ord = some es)
    {obj : AccountObject} (haddr : addr ∈ s.accountObjectsDirty)
    (hobj : s.accountObjects addr = some obj) :
    ∃ e ∈ es, obj.entry (ord.attributes addr obj.accountAttribute.entries) = some e ∧
      e.key = addr.bytes := by
  obtain ⟨e, he, hentry⟩ :=
    (mem_of_mapM_eq_some hes).1 addr ((ord.accounts_perm _).mem_iff.mpr haddr)
  rw [StateDB.accountEntry, hobj, Option.bind_some] at hentry
  exact ⟨e, he, hentry, by rw [(value_of_accountEntry hentry).1, h.accountKey addr obj hobj]⟩

theorem exists_spaceEntry (hes : s.spaceEntries ord = some es) {obj : SpaceObject}
    (hi : i ∈ s.spaceObjectsDirty) (hobj : s.spaceObjects i = some obj) :
    ∃ e ∈ es, obj.entry = some e ∧ e.key = BigEndian.toBytes obj.id := by
  obtain ⟨e, he, hentry⟩ :=
    (mem_of_mapM_eq_some hes).1 i ((ord.spaces_perm _).mem_iff.mpr hi)
  rw [StateDB.spaceEntry, hobj, Option.bind_some] at hentry
  exact ⟨e, he, hentry, (value_of_spaceEntry hentry).1⟩

/-- The entries of accounts with different hashes do not meet. -/
theorem Good.consistent_accountEntries (h : Good H get C K s)
    (hinj : ∀ a b : Address, H a.bytes = H b.bytes → a = b)
    (hes : s.accountEntries ord = some es) : Consistent H es := by
  refine consistent_of_mapM hes fun addr _ addr' _ e he e' he' hkey => hinj addr addr' ?_
  rw [← h.key_of_accountEntry he, ← h.key_of_accountEntry he', hkey]

theorem Good.consistent_spaceEntries (h : Good H get C K s)
    (hinj : ∀ i ∈ s.spaceObjectsDirty, ∀ j ∈ s.spaceObjectsDirty, ∀ obj ∈ s.spaceObjects i,
      ∀ obj' ∈ s.spaceObjects j,
        H (BigEndian.toBytes obj.id) = H (BigEndian.toBytes obj'.id) → obj.id = obj'.id)
    (hes : s.spaceEntries ord = some es) : Consistent H es := by
  refine consistent_of_mapM hes fun i hi j hj e he e' he' hkey => ?_
  obtain ⟨obj, hobj, hk⟩ := key_of_spaceEntry he
  obtain ⟨obj', hobj', hk'⟩ := key_of_spaceEntry he'
  rw [hk, hk'] at hkey
  have hid := hinj i ((ord.spaces_perm _).mem_iff.mp hi) j ((ord.spaces_perm _).mem_iff.mp hj)
    obj hobj obj' hobj' hkey
  rw [← h.spaceKey i obj hobj, hid, h.spaceKey j obj' hobj']

end Dirty

/-! ## The commit -/

section Commit

variable {H : HashFn} {C : Contents} {K : ℕ → Prop} {s : StateDB} {db : Db}
  {ord : IterOrder}

/-- A state with an object that has no encoding cannot be committed. -/
theorem commitTo_eq_none (h : s.spaceEntries ord = none ∨ s.accountEntries ord = none) :
    s.commitTo H ord db = none := by
  unfold StateDB.commitTo
  rw [StateDB.spaceFinalise_eq]
  cases hsp : s.spaceEntries ord with
  | none => rfl
  | some es =>
    have hacc : s.accountEntries ord = none := h.resolve_left (by rw [hsp]; exact nofun)
    cases ht : es.foldlM (applyEntry H db.nodes) s.trieSpace with
    | none => simp [ht]
    | some t =>
      simp only [Option.bind_some, ht, Option.map_some, Option.bind_eq_bind]
      cases hc : StateDB.orPanic (t.commitTo H) with
      | none => rfl
      | some r =>
        simp only [Option.bind_some]
        rw [StateDB.accountFinalise_eq]
        show Option.bind (Option.bind (s.accountEntries ord) _) _ = none
        rw [hacc]
        rfl

/-- **A commit writes the entries over the maps** and stores both maps at the roots it returns. -/
theorem Good.exists_commitTo {D : Set Bytes} (hD : CollisionFree H D)
    (hdb : storedNodes H db ⊆ D) (h : Good H db.nodes C K s) {es as : List Entry}
    (hes : s.spaceEntries ord = some es) (has : s.accountEntries ord = some as)
    (hspace : nodesOf H (writeAll H C.space es) ⊆ D)
    (haccount : nodesOf H (writeAll H C.account as) ⊆ D) :
    ∃ c, s.commitTo H ord db = some c ∧ IsRoot H (writeAll H C.space es) c.rootSpace ∧
      IsRoot H (writeAll H C.account as) c.rootAccount ∧
      StoredAt H c.db.nodes c.rootSpace (writeAll H C.space es) ∧
      StoredAt H c.db.nodes c.rootAccount (writeAll H C.account as) ∧
      c.state.trieSpace.trie.Models H c.db.nodes (writeAll H C.space es) ∧
      c.state.trieAccount.trie.Models H c.db.nodes (writeAll H C.account as) ∧
      c.state.spaceObjects = s.spaceObjects ∧ c.state.accountObjects = s.accountObjects ∧
      c.state.spaceObjectsDirty = [] ∧ c.state.accountObjectsDirty = [] ∧
      Keeps H db.nodes c.db.nodes ∧ Grows H D db c.db := by
  obtain ⟨t₁, ht₁, hm₁⟩ :=
    exists_foldlM_applyEntry (StateDB.value_of_spaceEntriesFor (b := true) hes) h.space
  obtain ⟨root₁, t₁', ws₁, hc₁, hroot₁, hkeep₁, hgrows₁, hm₁', hst₁⟩ :=
    SecureTrie.exists_commitTo hD hdb hspace hm₁
  obtain ⟨t₂, ht₂, hm₂⟩ := exists_foldlM_applyEntry
    (StateDB.value_of_accountEntriesFor (b := true) has) (h.account.mono hkeep₁)
  obtain ⟨root₂, t₂', ws₂, hc₂, hroot₂, hkeep₂, hgrows₂, hm₂', hst₂⟩ :=
    SecureTrie.exists_commitTo hD (hgrows₁.storedNodes hdb) haccount hm₂
  refine ⟨⟨root₁, root₂, { s with
      trieSpace := t₁'
      spaceObjectsDirty := []
      trieAccount := t₂'
      accountObjectsDirty := [] }, (db.putAll ws₁).putAll ws₂⟩, ?_, hroot₁, hroot₂,
    hst₁.mono hkeep₂, hst₂, hm₁'.mono hkeep₂, hm₂', rfl, rfl, rfl, rfl,
    fun e he => hkeep₂ e (hkeep₁ e he), hgrows₁.trans hgrows₂⟩
  unfold StateDB.commitTo
  rw [StateDB.spaceFinalise_eq, hes]
  simp only [Option.bind_some, ht₁, Option.map_some, Option.bind_eq_bind, hc₁, StateDB.orPanic]
  rw [StateDB.accountFinalise_eq]
  show Option.bind (Option.bind (s.accountEntries ord) _) _ = _
  rw [has]
  simp only [Option.bind_some, ht₂, Option.map_some, hc₂]

end Commit

end Gocoin.State
