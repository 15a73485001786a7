import Gocoin.State.Mirror
import Gocoin.State.Order

/-!
# State/Intermediate — does asking for a root change anything?

`IntermediateRoot` writes the changed objects to the tries and forgets that they have changed, while
the callback that would announce another change has been dropped.  What changes in such an object
afterwards is not committed, and an empty object may have been written where a commit deletes it.
So a run with calls of `IntermediateRoot` commits to the roots of the run without them exactly when,
at its end, every object whose change has been forgotten is in its trie as the commit would have
written it (`intermediateRoot_harmless_iff`).
-/

namespace Gocoin.State

open Trie Fold
open Sample (address keccak)

/-- A step of a run: an operation, or a call of `IntermediateRoot` that walks its maps in given
orders. -/
inductive RunStep where
  | op (o : Op)
  | intermediateRoot (ord : IterOrder) (deleteEmptyObjects : Bool)

/-- The operation of a step. -/
def RunStep.op? : RunStep → Option Op
  | .op o => some o
  | .intermediateRoot _ _ => none

/-- The operations of a run, without the calls. -/
def operations (steps : List RunStep) : List Op := steps.filterMap RunStep.op?

/-- One step. -/
def RunStep.run (H : HashFn) (get : Nodes) (s : StateDB) :
    RunStep → Option StateDB
  | .op o => o.run H get s
  | .intermediateRoot ord deleteEmptyObjects =>
    (s.intermediateRoot H ord get deleteEmptyObjects).map Prod.snd

/-- The state after the steps of a run. -/
def runSteps (H : HashFn) (get : Nodes) (s : StateDB) (steps : List RunStep) : Option StateDB :=
  steps.foldlM (RunStep.run H get) s

/-! ## A call -/

section Call

variable {H : HashFn} {get : Nodes} {C C' : Contents} {K : ℕ → Prop}
  {s t : StateDB} {ord : IterOrder} {b : Bool}

/-- An object without an encoding makes the call crash. -/
theorem intermediateRoot_eq_none
    (h : s.spaceEntriesFor ord b = none ∨ s.accountEntriesFor ord b = none) :
    s.intermediateRoot H ord get b = none := by
  unfold StateDB.intermediateRoot StateDB.intermediateSpaceRoot
  rw [StateDB.spaceFinalise_for]
  cases hsp : s.spaceEntriesFor ord b with
  | none => rfl
  | some es =>
    have hacc : s.accountEntriesFor ord b = none := h.resolve_left (by rw [hsp]; exact nofun)
    cases ht : es.foldlM (applyEntry H get) s.trieSpace with
    | none => simp [ht]
    | some t =>
      simp only [Option.bind_some, ht, Option.map_some, Option.bind_eq_bind]
      cases StateDB.orPanic (t.hash H) with
      | none => rfl
      | some r =>
        simp only [Option.bind_some, StateDB.intermediateAccountRoot]
        rw [StateDB.accountFinalise_for]
        show Option.bind (Option.bind (Option.bind (s.accountEntriesFor ord b) _) _) _ = none
        rw [hacc]
        rfl

/-- **A call writes the changed objects to the tries** and forgets that they have changed. -/
theorem Good.exists_intermediateRoot (h : Good H get C K s) {es as : List Entry}
    (hes : s.spaceEntriesFor ord b = some es) (has : s.accountEntriesFor ord b = some as) :
    ∃ r s', s.intermediateRoot H ord get b = some (r, s') ∧
      Good H get ⟨writeAll H C.space es, writeAll H C.account as⟩ K s' ∧
      IsRoot H (writeAll H C.space es) r.1 ∧
      IsRoot H (writeAll H C.account as) r.2 ∧
      s'.spaceObjects = s.spaceObjects ∧ s'.accountObjects = s.accountObjects ∧
      s'.spaceObjectsDirty = [] ∧ s'.accountObjectsDirty = [] := by
  obtain ⟨t₁, ht₁, hm₁⟩ := exists_foldlM_applyEntry (StateDB.value_of_spaceEntriesFor hes) h.space
  obtain ⟨root₁, t₁', hh₁, hroot₁, hm₁'⟩ := SecureTrie.exists_hash hm₁
  obtain ⟨t₂, ht₂, hm₂⟩ :=
    exists_foldlM_applyEntry (StateDB.value_of_accountEntriesFor has) h.account
  obtain ⟨root₂, t₂', hh₂, hroot₂, hm₂'⟩ := SecureTrie.exists_hash hm₂
  refine ⟨(root₁, root₂), { s with
      trieSpace := t₁'
      spaceObjectsDirty := []
      trieAccount := t₂'
      accountObjectsDirty := [] }, ?_, ?_, hroot₁, hroot₂, rfl, rfl, rfl, rfl⟩
  · unfold StateDB.intermediateRoot StateDB.intermediateSpaceRoot
    rw [StateDB.spaceFinalise_for, hes]
    simp only [Option.bind_some, ht₁, Option.map_some, Option.bind_eq_bind, hh₁, StateDB.orPanic,
      StateDB.intermediateAccountRoot]
    rw [StateDB.accountFinalise_for]
    show Option.bind (Option.bind (Option.bind (s.accountEntriesFor ord b) _) _) _ = _
    rw [has]
    simp only [Option.bind_some, ht₂, Option.map_some, hh₂]
  · exact { h with
      space := hm₁'
      account := hm₂'
      accountDirty := fun _ hd => absurd hd List.not_mem_nil
      spaceDirty := fun _ hd => absurd hd List.not_mem_nil
      accountNodup := List.nodup_nil
      spaceNodup := List.nodup_nil }

variable {t' : StateDB}

/-- **A call leaves a mirror.** -/
theorem Mirrors.intermediateRoot (h : Mirrors H get C C' K s t) {r : Hash × Hash}
    (ht : t.intermediateRoot H ord get b = some (r, t')) :
    ∃ C'', Mirrors H get C C'' K s t' := by
  cases hes : t.spaceEntriesFor ord b with
  | none =>
    rw [intermediateRoot_eq_none (.inl hes)] at ht
    cases ht
  | some es =>
    cases has : t.accountEntriesFor ord b with
    | none =>
      rw [intermediateRoot_eq_none (.inr has)] at ht
      cases ht
    | some as =>
      obtain ⟨r', t'', ht', hg, -, -, hsp, hacc, hspd, haccd⟩ :=
        h.right.exists_intermediateRoot hes has
      obtain ⟨-, rfl⟩ := Prod.mk.inj (Option.some.inj (ht.symm.trans ht'))
      refine ⟨_, h.left, hg, hacc.trans h.accounts, hsp.trans h.spaces, by simp [haccd],
        by simp [hspd], fun x => ?_, fun x => ?_⟩
      · by_cases hx : ∃ e ∈ as, H e.key = x
        · obtain ⟨e, he, rfl⟩ := hx
          obtain ⟨addr, haddr, hkey⟩ := h.right.mem_dirty_of_accountEntriesFor has he
          exact .inr ⟨addr, h.accountDirty addr haddr, by rw [hkey]⟩
        · show writeAll H C'.account as x = _ ∨ _
          rw [writeAll_of_forall_ne fun e he hk => hx ⟨e, he, hk⟩]
          exact h.account x
      · by_cases hx : ∃ e ∈ es, H e.key = x
        · obtain ⟨e, he, rfl⟩ := hx
          obtain ⟨i, hi, obj, hobj, hkey⟩ := mem_dirty_of_spaceEntriesFor hes he
          rw [h.spaces] at hobj
          exact .inr ⟨i, obj, h.spaceDirty i hi, hobj, by rw [hkey]⟩
        · show writeAll H C'.space es x = _ ∨ _
          rw [writeAll_of_forall_ne fun e he hk => hx ⟨e, he, hk⟩]
          exact h.space x

/-- **A run with calls mirrors the run without them.** -/
theorem Mirrors.runSteps (hK : AllowsStored H C K) (hinj : TellsApart H K)
    {steps : List RunStep} (hids : ∀ op ∈ operations steps, ∀ id, op.id? = some id → K id)
    (h : Mirrors H get C C' K s t) {s' : StateDB}
    (hs : (operations steps).foldlM (Op.run H get) s = some s')
    (ht : State.runSteps H get t steps = some t') :
    ∃ C'', Mirrors H get C C'' K s' t' := by
  induction steps generalizing s t C' with
  | nil =>
    obtain rfl := Option.some.inj hs
    obtain rfl := Option.some.inj ht
    exact ⟨C', h⟩
  | cons step steps ih =>
    rw [State.runSteps, List.foldlM_cons, bind_eq_some] at ht
    obtain ⟨t₁, ht₁, ht⟩ := ht
    cases step with
    | intermediateRoot ord b =>
      obtain ⟨⟨r, t₁⟩, hr, rfl⟩ := Option.map_eq_some_iff.mp ht₁
      obtain ⟨C₁, h₁⟩ := h.intermediateRoot hr
      exact ih hids h₁ hs ht
    | op o =>
      rw [show operations (.op o :: steps) = o :: operations steps from rfl] at hs hids
      rw [List.foldlM_cons, bind_eq_some] at hs
      obtain ⟨s₁, hs₁, hs⟩ := hs
      have hrel := h.run hK hinj (hids o List.mem_cons_self)
      rw [hs₁, show o.run H get t = some t₁ from ht₁] at hrel
      cases hrel with
      | some h₁ => exact ih (fun o' ho' => hids o' (List.mem_cons_of_mem o ho')) h₁ hs ht

end Call

/-! ## What is committed -/

namespace StateDB

/-- The maps the tries of a state show. -/
def contents (get : Nodes) (s : StateDB) : Contents :=
  ⟨s.trieSpace.trie.toMap get, s.trieAccount.trie.toMap get⟩

/-- Every object that has changed in the first state, but not as far as the second one knows, is in
the tries of the second as a commit of the first would write it. -/
structure Settled (H : HashFn) (get : Nodes) (ord : IterOrder)
    (s t : StateDB) : Prop where
  space : ∀ i ∈ s.spaceObjectsDirty, i ∉ t.spaceObjectsDirty →
    ∃ e, s.spaceEntry i = some e ∧ (t.contents get).space (H e.key) = e.value
  account : ∀ addr ∈ s.accountObjectsDirty, addr ∉ t.accountObjectsDirty →
    ∃ e, s.accountEntry ord addr = some e ∧ (t.contents get).account (H e.key) = e.value

/-- What is read of an account in the state opened at the roots of a commit. -/
def Committed.readAccount (H : HashFn) (c : Committed) (addr : Address) :
    Option (Lookup AccountObject) :=
  (execute H c.db.nodes c.rootSpace c.rootAccount []).bind fun s =>
    (s.getAccountObject H c.db.nodes addr).map Prod.fst

/-- What is read of a space there. -/
def Committed.readSpace (H : HashFn) (c : Committed) (id : ℕ) : Option (Lookup SpaceObject) :=
  (execute H c.db.nodes c.rootSpace c.rootAccount []).bind fun s =>
    (s.getSpaceObject H c.db.nodes id).map Prod.fst

/-- Two commits have the same roots, and everything reads the same at them; or both crash. -/
structure SameCommit (H : HashFn) (r r' : Option Committed) : Prop where
  roots : r.map Committed.roots = r'.map Committed.roots
  accounts : ∀ addr, (r.bind fun c => c.readAccount H addr)
    = r'.bind fun c => c.readAccount H addr
  spaces : ∀ id, (r.bind fun c => c.readSpace H id) = r'.bind fun c => c.readSpace H id

end StateDB

open StateDB

section Commit

variable {H : HashFn} {db : Db} {C C' : Contents} {K : ℕ → Prop} {s t : StateDB}
  {ord : IterOrder} {get : Nodes}

theorem Good.contents_eq (h : Good H get C K s) : s.contents get = C := by
  rw [contents, h.space.toMap_eq, h.account.toMap_eq]

variable {as es : List Entry} {D : Set Bytes} {c : Committed}

/-- The two maps of a commit agree at the accounts when those that have been forgotten are
settled. -/
theorem Mirrors.account_written_iff (h : Mirrors H get C C' K s t) (hinj : TellsApart H K)
    {as' : List Entry} (has : s.accountEntries ord = some as)
    (has' : t.accountEntries ord = some as') :
    writeAll H C.account as = writeAll H C'.account as' ↔
      ∀ addr ∈ s.accountObjectsDirty, addr ∉ t.accountObjectsDirty →
        ∃ e, s.accountEntry ord addr = some e ∧ C'.account (H e.key) = e.value := by
  have hsame : t.accountEntry ord = s.accountEntry ord := by
    funext addr
    rw [accountEntry, accountEntry, h.accounts]
  rw [accountEntries, hsame] at has'
  rw [writeAll_mapM_eq_iff has has']
  · simp only [(ord.accounts_perm _).mem_iff]
  · simp only [(ord.accounts_perm _).mem_iff]
    exact h.accountDirty
  · intro addr _ addr' _ e he e' he' hkey
    rw [h.left.key_of_accountEntry he, h.left.key_of_accountEntry he'] at hkey
    exact hinj.account addr addr' hkey
  · intro x
    refine (h.account x).imp_right ?_
    rintro ⟨addr, haddr, rfl⟩
    obtain ⟨e, -, he⟩ := (mem_of_mapM_eq_some has).1 addr ((ord.accounts_perm _).mem_iff.mpr haddr)
    exact ⟨addr, (ord.accounts_perm _).mem_iff.mpr haddr, e, he,
      by rw [h.left.key_of_accountEntry he]⟩

theorem Mirrors.space_written_iff (h : Mirrors H get C C' K s t) (hinj : TellsApart H K)
    {es' : List Entry} (hes : s.spaceEntries ord = some es) (hes' : t.spaceEntries ord = some es') :
    writeAll H C.space es = writeAll H C'.space es' ↔
      ∀ i ∈ s.spaceObjectsDirty, i ∉ t.spaceObjectsDirty →
        ∃ e, s.spaceEntry i = some e ∧ C'.space (H e.key) = e.value := by
  have hsame : t.spaceEntry = s.spaceEntry := by
    funext i
    rw [spaceEntry, spaceEntry, h.spaces]
  rw [spaceEntries, hsame] at hes'
  rw [writeAll_mapM_eq_iff hes hes']
  · simp only [(ord.spaces_perm _).mem_iff]
  · simp only [(ord.spaces_perm _).mem_iff]
    exact h.spaceDirty
  · intro i _ j _ e he e' he' hkey
    obtain ⟨obj, hobj, hk⟩ := key_of_spaceEntry he
    obtain ⟨obj', hobj', hk'⟩ := key_of_spaceEntry he'
    rw [hk, hk'] at hkey
    rw [← h.left.spaceKey i obj hobj, hinj.space obj.id obj'.id (h.left.spaceId i obj hobj)
      (h.left.spaceId j obj' hobj') hkey, h.left.spaceKey j obj' hobj']
  · intro x
    refine (h.space x).imp_right ?_
    rintro ⟨i, obj, hi, hobj, rfl⟩
    obtain ⟨e, -, he⟩ := (mem_of_mapM_eq_some hes).1 i ((ord.spaces_perm _).mem_iff.mpr hi)
    obtain ⟨obj', hobj', hkey⟩ := key_of_spaceEntry he
    obtain rfl := Option.some.inj (hobj.symm.trans hobj')
    exact ⟨i, (ord.spaces_perm _).mem_iff.mpr hi, e, he, by rw [hkey]⟩

/-- A commit of a state whose objects have encodings, and what is read at its roots. -/
theorem Good.exists_commit_read (hD : CollisionFree H D) (hdb : storedNodes H db ⊆ D)
    (hnodes : committedNodes H ord C s ⊆ D) (h : Good H db.nodes C K s)
    (hes : s.spaceEntries ord = some es) (has : s.accountEntries ord = some as) :
    ∃ c, s.commitTo H ord db = some c ∧ IsRoot H (writeAll H C.space es) c.rootSpace ∧
      IsRoot H (writeAll H C.account as) c.rootAccount ∧
      (∀ addr, c.readAccount H addr = some (Contents.storedAccount H
        ⟨writeAll H C.space es, writeAll H C.account as⟩ addr)) ∧
      ∀ id, c.readSpace H id = some (Contents.storedSpace H
        ⟨writeAll H C.space es, writeAll H C.account as⟩ id) := by
  obtain ⟨c, hc, hrs, hra, hsts, hsta, -⟩ := h.exists_commitTo hD hdb hes has
    (fun e he => hnodes (.inl ⟨es, hes, he⟩)) (fun e he => hnodes (.inr ⟨as, has, he⟩))
  let C₁ : Contents := ⟨writeAll H C.space es, writeAll H C.account as⟩
  obtain ⟨s₁, hnew, hg, -, hca, hcs⟩ := exists_new (C := C₁) hsts hsta fun _ => True
  have hopen : execute H c.db.nodes c.rootSpace c.rootAccount [] = some s₁ := by
    rw [execute, hnew]
    rfl
  refine ⟨c, hc, hrs, hra, fun addr => ?_, fun id => ?_⟩
  · obtain ⟨s₂, hs₂, -⟩ := hg.exists_getAccountObject addr
    rw [Committed.readAccount, hopen, Option.bind_some, hs₂, Option.map_some, accountAt, hca]
  · obtain ⟨s₂, hs₂, -⟩ := hg.exists_getSpaceObject id fun _ _ => trivial
    rw [Committed.readSpace, hopen, Option.bind_some, hs₂, Option.map_some, spaceAt, hcs]

/-- **The roots of a call are those a commit would return**, when the call deletes empty objects. -/
theorem Good.intermediateRoot_eq_roots (hD : CollisionFree H D)
    (hdb : storedNodes H db ⊆ D) (hnodes : committedNodes H ord C s ⊆ D)
    (h : Good H db.nodes C K s) :
    (s.intermediateRoot H ord db.nodes true).map Prod.fst
      = (s.commitTo H ord db).map Committed.roots := by
  cases hes : s.spaceEntries ord with
  | none =>
    rw [commitTo_eq_none (.inl hes), intermediateRoot_eq_none (b := true) (.inl hes)]
    rfl
  | some es =>
    cases has : s.accountEntries ord with
    | none =>
      rw [commitTo_eq_none (.inr has), intermediateRoot_eq_none (b := true) (.inr has)]
      rfl
    | some as =>
      obtain ⟨c, hc, hrs, hra, -⟩ := h.exists_commit_read hD hdb hnodes hes has
      obtain ⟨r, s', hr, -, hrs', hra', -⟩ := h.exists_intermediateRoot (b := true) hes has
      rw [hc, hr, Option.map_some, Option.map_some, Committed.roots, root_unique hrs hrs',
        root_unique hra hra']

/-- The sample operations on the empty state. -/
theorem intermediateRoot_eq_roots_sample :
    ∃ s ∈ sampleRun sampleOps,
      (s.intermediateRoot keccak .plain Db.empty.nodes true).map Prod.fst
        = (s.commitTo keccak .plain Db.empty).map Committed.roots := by
  obtain ⟨s, hexec, hg⟩ := exists_sampleRun sampleOps
  obtain ⟨hes, has⟩ := sampleOps_entries s hexec
  exact ⟨s, hexec, hg.intermediateRoot_eq_roots collisionFree_sampleNodes
    (fun _ he => by cases he) fun _ he => .inr (committedNodes_sample hes has he)⟩

/-- A state that can be committed does not end like a crash. -/
theorem not_sameCommit_none : ¬ SameCommit H (some c) none := fun h => by
  cases h.roots

theorem not_none_sameCommit : ¬ SameCommit H none (some c) := fun h => by
  cases h.roots

/-- An object without an encoding that the mirror knows to have changed has changed. -/
theorem Mirrors.unencodable (h : Mirrors H get C C' K s t) (ht : t.Unencodable) :
    s.Unencodable := by
  rcases ht with ⟨i, hi, hnone⟩ | ⟨addr, haddr, hnone⟩
  · rw [spaceEntry, h.spaces] at hnone
    exact .inl ⟨i, h.spaceDirty i hi, hnone⟩
  · rw [accountEntry, h.accounts] at hnone
    exact .inr ⟨addr, h.accountDirty addr haddr, hnone⟩

/-- Settled objects have encodings. -/
theorem Mirrors.encodable_of_settled (h : Mirrors H get C C' K s t) (ht : ¬ t.Unencodable)
    (hset : Settled H get ord s t) :
    ¬ s.Unencodable := by
  rintro (⟨i, hi, hnone⟩ | ⟨addr, haddr, hnone⟩)
  · by_cases hd : i ∈ t.spaceObjectsDirty
    · exact ht (.inl ⟨i, hd, by rw [spaceEntry, h.spaces]; exact hnone⟩)
    · obtain ⟨e, he, -⟩ := hset.space i hi hd
      rw [hnone] at he
      cases he
  · by_cases hd : addr ∈ t.accountObjectsDirty
    · exact ht (.inr ⟨addr, hd, by rw [accountEntry, h.accounts]; exact hnone⟩)
    · obtain ⟨e, he, -⟩ := hset.account addr haddr hd
      rw [(accountEntry_eq_none_iff ord addr).mpr hnone] at he
      cases he

/-- **A mirror commits as the state does exactly when it is settled**, or cannot be committed. -/
theorem Mirrors.sameCommit_iff (h : Mirrors H db.nodes C C' K s t) (hinj : TellsApart H K)
    (hD : CollisionFree H D) (hdb : storedNodes H db ⊆ D)
    (hs : committedNodes H ord C s ⊆ D) (ht : committedNodes H ord C' t ⊆ D) :
    SameCommit H (t.commitTo H ord db) (s.commitTo H ord db) ↔
      t.Unencodable ∨ Settled H db.nodes ord s t := by
  by_cases htu : t.Unencodable
  · rw [htu.commitTo, (h.unencodable htu).commitTo]
    exact ⟨fun _ => .inl htu, fun _ => ⟨rfl, fun _ => rfl, fun _ => rfl⟩⟩
  rw [or_iff_right htu]
  obtain ⟨es', hes'⟩ := exists_spaceEntries_of_encodable htu ord
  obtain ⟨as', has'⟩ := exists_accountEntries_of_encodable htu ord
  obtain ⟨c', hc', hrs', hra', hacc', hsp'⟩ := h.right.exists_commit_read hD hdb ht hes' has'
  by_cases hsu : s.Unencodable
  · rw [hc', hsu.commitTo]
    exact iff_of_false not_sameCommit_none fun hset => h.encodable_of_settled htu hset hsu
  obtain ⟨es, hes⟩ := exists_spaceEntries_of_encodable hsu ord
  obtain ⟨as, has⟩ := exists_accountEntries_of_encodable hsu ord
  obtain ⟨c, hc, hrs, hra, hacc, hsp⟩ := h.left.exists_commit_read hD hdb hs hes has
  have hsettled : Settled H db.nodes ord s t ↔
      writeAll H C.space es = writeAll H C'.space es' ∧
        writeAll H C.account as = writeAll H C'.account as' := by
    rw [h.space_written_iff hinj hes hes', h.account_written_iff hinj has has',
      ← h.right.contents_eq]
    exact ⟨fun hset => ⟨hset.space, hset.account⟩, fun hboth => ⟨hboth.1, hboth.2⟩⟩
  rw [hc, hc', hsettled]
  constructor
  · intro hsame
    have hroots := Prod.mk.inj (Option.some.inj hsame.roots)
    rw [hroots.1] at hrs'
    rw [hroots.2] at hra'
    exact ⟨hD.map_eq (fun e he => hs (.inl ⟨es, hes, he⟩)) (fun e he => ht (.inl ⟨es', hes', he⟩))
        hrs hrs',
      hD.map_eq (fun e he => hs (.inr ⟨as, has, he⟩)) (fun e he => ht (.inr ⟨as', has', he⟩))
        hra hra'⟩
  · rintro ⟨hspace, haccount⟩
    rw [← hspace] at hrs'
    rw [← haccount] at hra'
    refine ⟨?_, fun addr => ?_, fun id => ?_⟩
    · rw [Option.map_some, Option.map_some, Committed.roots, Committed.roots, root_unique hrs hrs',
        root_unique hra hra']
    · rw [Option.bind_some, Option.bind_some, hacc, hacc', hspace, haccount]
    · rw [Option.bind_some, Option.bind_some, hsp, hsp', hspace, haccount]

end Commit

/-- The strings that are hashed by a run with calls and by the run without them: what the database
has under its own hash, the keys of the tries, and the nodes the two commits store. -/
def hashedByRuns (H : HashFn) (ord : IterOrder) (db : Db) (K : ℕ → Prop) (s : StateDB)
    (r : Option StateDB) : Set Bytes :=
  storedNodes H db ∪ Set.range (FixedBytes.bytes (n := 20)) ∪
    {b | ∃ id, K id ∧ b = BigEndian.toBytes id} ∪
      {e | ∃ u, (u = s ∨ u ∈ r) ∧ e ∈ committedNodes H ord (u.contents db.nodes) u}

/-- **Calls of `IntermediateRoot` are harmless exactly when** they crash no run but one that cannot
be committed, and at the end every object whose change they made the state forget is in its trie as
the commit would write it.  The state is any good one and the steps are any operations — on ids that
the hash tells apart — with any calls between them. -/
theorem intermediateRoot_harmless_iff {H : HashFn} {db : Db} {C : Contents}
    {K : ℕ → Prop} {s : StateDB} (h : Good H db.nodes C K s) (hK : AllowsStored H C K)
    {steps : List RunStep} (hids : ∀ op ∈ operations steps, ∀ id ∈ op.id?, K id) (ord : IterOrder)
    (hfree : ∀ s' ∈ (operations steps).foldlM (Op.run H db.nodes) s,
      CollisionFree H
        (hashedByRuns H ord db K s' (runSteps H db.nodes s steps))) :
    ∃ s', (operations steps).foldlM (Op.run H db.nodes) s = some s' ∧
      (SameCommit H
          ((runSteps H db.nodes s steps).bind fun t => t.commitTo H ord db)
          (s'.commitTo H ord db) ↔
        (runSteps H db.nodes s steps = none → s'.Unencodable) ∧
          ∀ t ∈ runSteps H db.nodes s steps, t.Unencodable ∨ Settled H db.nodes ord s' t) := by
  obtain ⟨s', hs', hm, -⟩ := h.exists_runAll hK False.elim hids
  have hg := h.moves hK hm
  have hD := hfree s' hs'
  have hinj : TellsApart H K :=
    ⟨hD.address_inj fun a => .inl (.inl (.inr ⟨a, rfl⟩)), fun m n hm hn =>
      hD.id_inj (.inl (.inr ⟨m, hm, rfl⟩)) (.inl (.inr ⟨n, hn, rfl⟩))⟩
  have hdb : storedNodes H db ⊆ hashedByRuns H ord db K s'
      (runSteps H db.nodes s steps) := fun e he => .inl (.inl (.inl he))
  have hplain : committedNodes H ord C s' ⊆ hashedByRuns H ord db K s'
      (runSteps H db.nodes s steps) := fun e he =>
    .inr ⟨s', .inl rfl, by rwa [hg.contents_eq]⟩
  refine ⟨s', hs', ?_⟩
  cases hrun : runSteps H db.nodes s steps with
  | none =>
    simp only [Option.bind_none, true_imp_iff, Option.not_mem_none, false_imp_iff, implies_true,
      and_true]
    by_cases hun : s'.Unencodable
    · rw [hun.commitTo]
      exact iff_of_true ⟨rfl, fun _ => rfl, fun _ => rfl⟩ hun
    · obtain ⟨es, hes⟩ := exists_spaceEntries_of_encodable hun ord
      obtain ⟨as, has⟩ := exists_accountEntries_of_encodable hun ord
      obtain ⟨c, hc, -⟩ := hg.exists_commit_read hD hdb hplain hes has
      rw [hc]
      exact iff_of_false not_none_sameCommit hun
  | some t =>
    obtain ⟨C', hmir⟩ := (Mirrors.refl h).runSteps hK hinj hids hs' hrun
    rw [hrun] at hD hdb hplain
    simp only [Option.bind_some, reduceCtorEq, false_imp_iff, true_and, Option.mem_some_iff,
      forall_eq']
    exact hmir.sameCommit_iff hinj hD hdb hplain fun e he =>
      .inr ⟨t, .inr rfl, by rwa [hmir.right.contents_eq]⟩

/-! ## Samples -/

/-- A new account is bound to a space, the roots are asked for, and the account is credited. -/
def creditAfterRoot : List RunStep :=
  [.op (.createSpaceAndBindAddr 1 1 (address 1)), .intermediateRoot .plain true,
    .op (.addBalance (address 1) 5)]

/-- **The credit is lost**: with the call the account root is another one, and the account reads
there with balance 0 instead of 5. -/
theorem credit_lost_after_root :
    ∃ s ∈ sampleRun [], ∃ t ∈ runSteps keccak Db.empty.nodes s creditAfterRoot,
        ∃ s' ∈ (operations creditAfterRoot).foldlM (Op.run keccak Db.empty.nodes) s,
          ∃ c ∈ t.commitTo keccak .plain Db.empty,
            ∃ c' ∈ s'.commitTo keccak .plain Db.empty,
              c.rootAccount ≠ c'.rootAccount ∧
                ((c.readAccount keccak (address 1)).map fun r =>
                  (AccountView.of r).balance) = some 0 ∧
                ((c'.readAccount keccak (address 1)).map fun r =>
                  (AccountView.of r).balance) = some 5 := by
  decide +kernel

/-- The sample operations with a call at their end. -/
def rootAtEnd : List RunStep := sampleOps.map .op ++ [.intermediateRoot .plain true]

/-- The sample operations on the empty state, with the call and without it. -/
theorem intermediateRoot_harmless_iff_sample : ∃ s, sampleRun [] = some s ∧
      ∃ s', (operations rootAtEnd).foldlM (Op.run keccak Db.empty.nodes) s = some s' ∧
        (SameCommit keccak
            ((runSteps keccak Db.empty.nodes s rootAtEnd).bind fun t =>
              t.commitTo keccak .plain Db.empty)
            (s'.commitTo keccak .plain Db.empty) ↔
          (runSteps keccak Db.empty.nodes s rootAtEnd = none → s'.Unencodable) ∧
            ∀ t ∈ runSteps keccak Db.empty.nodes s rootAtEnd,
              t.Unencodable ∨ Settled keccak Db.empty.nodes .plain s' t) := by
  obtain ⟨s, hnew, hg, -⟩ := exists_new (C := .nothing) (IsEmptyRoot.storedAt (.inl rfl))
    (IsEmptyRoot.storedAt (.inl rfl)) (· < 2 ^ 64)
  have hK : AllowsStored keccak .nothing (· < 2 ^ 64) := allowsStored_empty _
  have hexec : ∀ ops, sampleRun ops = ops.foldlM (Op.run keccak Db.empty.nodes) s :=
    fun ops => by rw [sampleRun, execute, hnew]
  refine ⟨s, hexec [], intermediateRoot_harmless_iff hg hK (by decide) .plain fun s' hs' => ?_⟩
  have hs'' : sampleOps.foldlM (Op.run keccak Db.empty.nodes) s = some s' := hs'
  obtain ⟨hes, has⟩ := sampleOps_entries s' ((hexec sampleOps).trans hs'')
  obtain ⟨s₁, hs₁, hm, -⟩ := hg.exists_runAll hK False.elim
    (show ∀ op ∈ sampleOps, ∀ id ∈ op.id?, id < 2 ^ 64 by decide)
  obtain rfl := Option.some.inj (hs₁.symm.trans hs'')
  have hg' := hg.moves hK hm
  obtain ⟨r, t, ht, hgt, -, -, -, -, hspd, haccd⟩ :=
    hg'.exists_intermediateRoot (b := true) hes has
  refine collisionFree_sampleNodes.mono ?_
  rintro e (((he | ⟨a, rfl⟩) | ⟨id, hid, rfl⟩) | ⟨u, hu, he⟩)
  · cases he
  · exact .inl (by simp [a.length_eq])
  · exact .inl ((BigEndian.length_toBytes_le (k := 8) (by omega)).trans (by norm_num))
  · refine .inr (committedNodes_sample hes has ?_)
    rcases hu with rfl | hu
    · rwa [hg'.contents_eq] at he
    · have hrun : runSteps keccak Db.empty.nodes s rootAtEnd = some t := by
        rw [runSteps, rootAtEnd, List.foldlM_append, List.foldlM_map]
        show sampleOps.foldlM (Op.run keccak Db.empty.nodes) s >>= _ = some t
        rw [hs'', some_bind, List.foldlM_cons, RunStep.run, ht]
        rfl
      obtain rfl := Option.some.inj (hrun.symm.trans hu)
      rw [hgt.contents_eq] at he
      rcases he with ⟨es, hes', he⟩ | ⟨as, has', he⟩
      · rw [spaceEntries, hspd] at hes'
        obtain rfl := Option.some.inj hes'
        exact .inl ⟨_, hes, he⟩
      · rw [accountEntries, haccd] at has'
        obtain rfl := Option.some.inj has'
        exact .inr ⟨_, has, he⟩

end Gocoin.State
