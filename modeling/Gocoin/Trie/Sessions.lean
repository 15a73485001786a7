import Gocoin.Common.Sample
import Gocoin.Machinery.Fold

/-!
# Trie/Sessions — a trie is a map, through commits and reopenings

A session is one trie after the other over one database: keys of any length are read, updated and
deleted, the root is taken, the trie is committed and opened again at the root of the last commit.
Beside it runs a session of maps (`Maps`), the one in memory and the one last committed.

* `getAfter_eq` — after any calls, `TryGet` finds what the map in memory holds, and no call fails.
* `hashAfter_eq` — the root `Hash` gives depends on the map in memory alone.

The step lemma is `Holds.exists_step`: every call succeeds, and what it writes is all that the
assumption on the hash has to be about.
-/

namespace Gocoin.Trie

open Patricia
open Sample (keccak)

/-! ## Sessions -/

/-- A call of a session; `reopen` is `New` at the root of the last commit. -/
inductive Call where
  | tryGet (key : Bytes)
  | tryUpdate (key value : Bytes)
  | tryDelete (key : Bytes)
  | hash
  | commitTo
  | reopen (cachelimit : UInt16)

/-- The trie of a session, its database, the root of the last commit and all that was written. -/
structure Session where
  trie : Trie
  db : Db
  committed : Hash
  written : List Bytes

namespace Session

variable (H : HashFn)

/-- A session starts with `New`. -/
def start (db : Db) (cachelimit : UInt16) (root : Hash) : Except TrieErr Session := do
  let t ← Trie.new db.nodes cachelimit root
  .ok ⟨t, db, root, []⟩

variable (s : Session)

/-- A call that writes nothing leaves another trie. -/
def withTrie (r : Except TrieErr Trie) : Except TrieErr Session :=
  r.map fun t => { s with trie := t }

/-- One call. -/
def step : Call → Except TrieErr Session
  | .tryGet key => s.withTrie ((s.trie.tryGet s.db.nodes key).map Prod.snd)
  | .tryUpdate key value => s.withTrie (s.trie.tryUpdate s.db.nodes key value)
  | .tryDelete key => s.withTrie (s.trie.tryDelete s.db.nodes key)
  | .hash => s.withTrie ((s.trie.hash H).map Prod.snd)
  | .commitTo => do
    let (root, t, ws) ← s.trie.commitTo H
    .ok ⟨t, s.db.putAll (ws.map fun w => (w.1.bytes, w.2)), root, s.written ++ ws.map (·.2)⟩
  | .reopen cachelimit => s.withTrie (Trie.new s.db.nodes cachelimit s.committed)

/-- The calls one after the other, up to the first that fails. -/
def run (calls : List Call) : Session × Option TrieErr := Fold.foldStop (step H) s calls

/-- What a further call answers, if none has failed. -/
def answer {α : Type} (calls : List Call) (call : Session → Except TrieErr α) : Except TrieErr α :=
  match s.run H calls with
  | (s, none) => call s
  | (_, some e) => .error e

/-- `TryGet` after the calls. -/
def getAfter (calls : List Call) (key : Bytes) : Except TrieErr Bytes :=
  s.answer H calls fun s => (s.trie.tryGet s.db.nodes key).map Prod.fst

/-- `Hash` after the calls. -/
def hashAfter (calls : List Call) : Except TrieErr Hash :=
  s.answer H calls fun s => (s.trie.hash H).map Prod.fst

end Session

/-! ## The maps of a session -/

/-- What a trie holds, under keys of any length. -/
abbrev ByteMap := Bytes → Option Bytes

/-- The contents in memory and the contents of the last commit. -/
structure Maps where
  live : ByteMap
  saved : ByteMap

/-- What a call does to them: the empty value deletes, a commit saves, and opening the trie again
goes back to what is saved. -/
def Maps.step (m : Maps) : Call → Maps
  | .tryGet _ => m
  | .tryUpdate key value =>
    { m with live := Function.update m.live key (if value = [] then none else some value) }
  | .tryDelete key => { m with live := Function.update m.live key none }
  | .hash => m
  | .commitTo => ⟨m.live, m.live⟩
  | .reopen _ => ⟨m.saved, m.saved⟩

/-- The contents in memory after the calls, from a trie that has just been opened. -/
def contents (m : ByteMap) (calls : List Call) : ByteMap := (calls.foldl Maps.step ⟨m, m⟩).live

/-- The lengths an update computes with — twice the length of the key and one, and the length of the
value — are machine integers. -/
def Call.Fits : Call → Prop
  | .tryUpdate key value => 2 * key.length + 1 < 2 ^ 63 ∧ value.length < 2 ^ 63
  | _ => True

instance : DecidablePred Call.Fits
  | .tryUpdate _ _ => inferInstanceAs (Decidable (_ ∧ _))
  | .tryGet _ | .tryDelete _ | .hash | .commitTo | .reopen _ => inferInstanceAs (Decidable True)

/-! ## Trees that carry contents -/

/-- A canonical tree with the contents under the paths of their keys. -/
structure Carries (tree : PTree) (m : ByteMap) : Prop where
  along : Tree.Along Value keybytesToHex tree m
  keysLE : KeysLE tree

namespace Carries

variable {tree tree' : PTree} {m : ByteMap}

theorem nil : Carries .nil fun _ => none := ⟨.nil, fun _ _ h => by cases h⟩

theorem insert (h : Carries tree m) {key value : Bytes} (hkey : 2 * key.length + 1 < 2 ^ 63)
    (hvalue : Value value) :
    Carries (tree.insert value (keybytesToHex key)) (Function.update m key (some value)) where
  along := h.along.insert (fun _ _ => keybytesToHex_injective) (terminated_keybytesToHex key) hvalue
  keysLE key' v hget := by
    rw [Tree.get_insert h.along.canonical (terminated_keybytesToHex key)] at hget
    split at hget
    · next he =>
      rw [he, length_keybytesToHex]
      exact hkey.le
    · exact h.keysLE key' v hget

theorem delete (h : Carries tree m) (key : Bytes) :
    Carries (tree.delete (keybytesToHex key)) (Function.update m key none) where
  along := h.along.delete (fun _ _ => keybytesToHex_injective) (terminated_keybytesToHex key)
  keysLE key' v hget := by
    rw [Tree.get_delete h.along.canonical (terminated_keybytesToHex key)] at hget
    split at hget
    · cases hget
    · exact h.keysLE key' v hget

end Carries

section Defs

variable (H : HashFn)

/-- The contents are stored at a root. -/
def KeptAt (get : Nodes) (root : Hash) (m : ByteMap) : Prop :=
  ∃ tree, Carries tree m ∧ TreeAt H get root tree

/-- A session holds maps: the trie stands for the live one, the saved one is stored at the root of
the last commit, and the database has under their hashes only strings of a set. -/
structure Session.Holds (D : Set Bytes) (s : Session) (m : Maps) : Prop where
  live : ∃ tree, Carries tree m.live ∧ Rep H s.db.nodes true s.trie.root tree
  saved : KeptAt H s.db.nodes s.committed m.saved
  stored : storedNodes H s.db ⊆ D

end Defs

variable {H : HashFn} {D : Set Bytes}

theorem keptAt_empty (get : Nodes) {root : Hash}
    (h : root = emptyRoot ∨ root = FixedBytes.zero 32) : KeptAt H get root fun _ => none :=
  ⟨.nil, .nil, .inl ⟨rfl, h⟩⟩

namespace Session

variable {s s' : Session} {m : Maps} {calls : List Call} {db : Db} {root : Hash}
  {r : Except TrieErr Trie} {c : Call} {cachelimit : UInt16}

theorem withTrie_eq_ok (h : s.withTrie r = .ok s') :
    ∃ t, r = .ok t ∧ s' = { s with trie := t } := by
  cases r with
  | error e => cases h
  | ok t => exact ⟨t, rfl, (Except.ok.inj h).symm⟩

/-- Only a commit writes. -/
theorem written_of_step (h : s.step H c = .ok s') :
    s.written ⊆ s'.written ∧ (c ≠ .commitTo → s'.written = s.written) := by
  have hwith : ∀ {r : Except TrieErr Trie}, s.withTrie r = .ok s' →
      s.written ⊆ s'.written ∧ (c ≠ .commitTo → s'.written = s.written) := by
    intro r h
    obtain ⟨t, -, rfl⟩ := withTrie_eq_ok h
    exact ⟨List.Subset.refl _, fun _ => rfl⟩
  cases c with
  | commitTo =>
    refine ⟨?_, fun hne => absurd rfl hne⟩
    simp only [step, bind, Except.bind] at h
    split at h
    · cases h
    · cases h
      exact List.subset_append_left _ _
  | tryGet key => exact hwith h
  | tryUpdate key value => exact hwith h
  | tryDelete key => exact hwith h
  | hash => exact hwith h
  | reopen cachelimit => exact hwith h

theorem written_run (h : Call.commitTo ∉ calls) : (s.run H calls).1.written = s.written := by
  induction calls generalizing s with
  | nil => rfl
  | cons c calls ih =>
    rw [List.mem_cons, not_or] at h
    cases hs : s.step H c with
    | error e => simp only [run, Fold.foldStop, hs]
    | ok s' =>
      have hrun : s.run H (c :: calls) = s'.run H calls := by
        simp only [run, Fold.foldStop, hs]
      rw [hrun, ih h.2, (written_of_step hs).2 (Ne.symm h.1)]

/-! ## One call -/

/-- A call that writes nothing changes the live map alone. -/
theorem Holds.exists_withTrie (h : s.Holds H D m) {t : Trie} (ht : r = .ok t) {tree : PTree}
    {live : ByteMap} (hcar : Carries tree live) (hr : Rep H s.db.nodes true t.root tree) :
    ∃ s', s.withTrie r = .ok s' ∧ ((∀ e ∈ s'.written, e ∈ D) → s'.Holds H D ⟨live, m.saved⟩) := by
  refine ⟨{ s with trie := t }, ?_, fun _ => ⟨⟨tree, hcar, hr⟩, h.saved, h.stored⟩⟩
  rw [ht]
  rfl

/-- **Committing saves the contents**, as long as the hash has no collision on what is stored and
written. -/
theorem Holds.exists_commitTo (hD : CollisionFree H D) (h : s.Holds H D m) :
    ∃ s', s.step H .commitTo = .ok s' ∧
      ((∀ e ∈ s'.written, e ∈ D) → s'.Holds H D (m.step .commitTo)) := by
  obtain ⟨tree, hcar, hr⟩ := h.live
  obtain ⟨t, ws, hcommit, hws, hkeep⟩ := hr.exists_commitTo hcar.along.canonical
  refine ⟨_, by rw [step, hcommit]; rfl, fun hwritten => ?_⟩
  have hpre : ∀ w ∈ ([] : List (Bytes × Bytes)), w.1.length ≠ 32 := nofun
  obtain ⟨hkeeps, hput, hgrows⟩ := putAll_nodes hD h.stored hpre fun w hw =>
    ⟨(hws w hw).1, hwritten w.2 (List.mem_append_right _ (List.mem_map_of_mem hw))⟩
  have hstored := hgrows.storedNodes h.stored
  obtain ⟨hr', hin, hheld⟩ := hkeep _ hkeeps hput
  have hne : IsNode tree → H (enc H tree) ≠ emptyRoot ∧
      H (enc H tree) ≠ FixedBytes.zero 32 := fun hnode =>
    ⟨hD.ne_empty _ (hstored (hin hnode)) (ne_empty_of_mem_encodings (enc_mem_encodings hnode)),
      hD.ne_zero _ (hstored (hin hnode))⟩
  exact ⟨⟨tree, hcar, hr'⟩,
    ⟨tree, hcar, treeAt_rootHash hcar.along.canonical hin hheld hne⟩, hstored⟩

/-- **Every call succeeds** and does to the maps what it should, as long as the hash has no
collision on what is stored and written. -/
theorem Holds.exists_step (hD : CollisionFree H D) (h : s.Holds H D m) (hc : c.Fits) :
    ∃ s', s.step H c = .ok s' ∧ ((∀ e ∈ s'.written, e ∈ D) → s'.Holds H D (m.step c)) := by
  obtain ⟨tree, hcar, hr⟩ := h.live
  have hcan := hcar.along.canonical
  cases c with
  | tryGet key =>
    obtain ⟨t, ht, hr'⟩ := hr.exists_tryGet hcan hcar.keysLE key
    exact h.exists_withTrie (by rw [ht]; rfl) hcar hr'
  | tryUpdate key value =>
    by_cases hv : value = []
    · subst hv
      obtain ⟨t, ht, hr'⟩ := hr.exists_tryDelete hcan hcar.keysLE key
      exact h.exists_withTrie ht (hcar.delete key) hr'
    · obtain ⟨t, ht, hr'⟩ := hr.exists_tryUpdate hcan hcar.keysLE key ⟨hv, hc.2⟩
      rw [Maps.step, if_neg hv]
      exact h.exists_withTrie ht (hcar.insert hc.1 ⟨hv, hc.2⟩) hr'
  | tryDelete key =>
    obtain ⟨t, ht, hr'⟩ := hr.exists_tryDelete hcan hcar.keysLE key
    exact h.exists_withTrie ht (hcar.delete key) hr'
  | hash =>
    obtain ⟨t, ht, hr'⟩ := hr.exists_hash hcan
    exact h.exists_withTrie (by rw [ht]; rfl) hcar hr'
  | commitTo => exact h.exists_commitTo hD
  | reopen cachelimit =>
    obtain ⟨tree', hcar', hat⟩ := h.saved
    obtain ⟨t, ht, hr'⟩ := hat.exists_new hcar'.keysLE cachelimit
    exact h.exists_withTrie ht hcar' hr'

/-! ## Whole sessions -/

/-- **A session follows its maps** through any calls. -/
theorem Holds.exists_run (hD : CollisionFree H D) (h : s.Holds H D m)
    (hfits : ∀ c ∈ calls, c.Fits) (hwritten : ∀ e ∈ (s.run H calls).1.written, e ∈ D) :
    ∃ s', s.run H calls = (s', none) ∧ s'.Holds H D (calls.foldl Maps.step m) :=
  Fold.foldStop_simulates (fun s => ∀ e ∈ s.written, e ∈ D)
    (fun hs hgood e he => hgood e ((written_of_step hs).1 he))
    (fun hR c hc => hR.exists_step hD (hfits c hc)) h hwritten

/-- A session that starts where contents are stored holds them. -/
theorem exists_start {m : ByteMap} (hm : KeptAt H db.nodes root m) (cachelimit : UInt16) :
    ∃ s, start db cachelimit root = .ok s ∧ ∀ D, storedNodes H s.db ⊆ D → s.Holds H D ⟨m, m⟩ := by
  obtain ⟨tree, hcar, hat⟩ := hm
  obtain ⟨t, ht, hr⟩ := hat.exists_new hcar.keysLE cachelimit
  refine ⟨⟨t, db, root, []⟩, ?_, fun D hD => ⟨⟨tree, hcar, hr⟩, ⟨tree, hcar, hat⟩, hD⟩⟩
  rw [start, ht]
  rfl

variable (H) in
/-- All that is stored under its hash in the course of a session: what was there, and what it
writes. -/
def data (s : Session) (calls : List Call) : Set Bytes :=
  storedNodes H s.db ∪ {e | e ∈ (s.run H calls).1.written}

/-- A session from stored contents ends with the contents its calls make of them. -/
theorem exists_run {m : ByteMap} (hm : KeptAt H db.nodes root m) {s : Session}
    (hs : start db cachelimit root = .ok s) (hfits : ∀ c ∈ calls, c.Fits)
    (hfree : CollisionFree H (s.data H calls)) :
    ∃ s', s.run H calls = (s', none) ∧
      s'.Holds H (s.data H calls) (calls.foldl Maps.step ⟨m, m⟩) := by
  obtain ⟨s₀, hs₀, hholds⟩ := exists_start hm cachelimit
  obtain rfl : s₀ = s := Except.ok.inj (hs₀.symm.trans hs)
  exact (hholds _ Set.subset_union_left).exists_run hfree hfits fun e he => .inr he

theorem answer_eq {α : Type} (h : s.run H calls = (s', none)) (call : Session → Except TrieErr α) :
    s.answer H calls call = call s' := by
  unfold answer
  rw [h]

theorem Holds.tryGet_eq (h : s.Holds H D m) (key : Bytes) :
    (s.trie.tryGet s.db.nodes key).map Prod.fst = .ok ((m.live key).getD []) := by
  obtain ⟨tree, hcar, hr⟩ := h.live
  obtain ⟨t, ht, -⟩ := hr.exists_tryGet hcar.along.canonical hcar.keysLE key
  rw [ht, hcar.along.get_path]
  rfl

/-- The root after a session is that of the one tree that carries its contents. -/
theorem exists_hashAfter {m : ByteMap} (hm : KeptAt H db.nodes root m)
    (hs : start db cachelimit root = .ok s) (hfits : ∀ c ∈ calls, c.Fits)
    (hfree : CollisionFree H (s.data H calls)) :
    ∃ tree, Carries tree (contents m calls) ∧ s.hashAfter H calls = .ok (rootHash H tree) := by
  obtain ⟨s', hrun, hholds⟩ := exists_run hm hs hfits hfree
  obtain ⟨tree, hcar, hr⟩ := hholds.live
  obtain ⟨t, ht, -⟩ := hr.exists_hash hcar.along.canonical
  refine ⟨tree, hcar, ?_⟩
  rw [hashAfter, answer_eq hrun, ht]
  rfl

/-- **The trie is a map.**  Let contents be stored at a root — none at all at the root of the empty
trie.  `New` opens a trie there, and after any sequence of updates, deletions, lookups, `Hash`,
`CommitTo` and reopenings at the last committed root, with any strings for keys and values, `TryGet`
of any key gives the value of its last update, and nothing when that was a deletion or an empty
value; no call fails.  The hash is assumed to have no collision on the stored nodes. -/
theorem getAfter_eq {db : Db} {root : Hash} {m : ByteMap} (hm : KeptAt H db.nodes root m)
    (cachelimit : UInt16) :
    ∃ s, start db cachelimit root = .ok s ∧ ∀ calls : List Call, (∀ c ∈ calls, c.Fits) →
      CollisionFree H (s.data H calls) →
        ∀ key, s.getAfter H calls key = .ok ((contents m calls key).getD []) := by
  obtain ⟨s, hs, -⟩ := exists_start hm cachelimit
  refine ⟨s, hs, fun calls hfits hfree key => ?_⟩
  obtain ⟨s', hrun, hholds⟩ := exists_run hm hs hfits hfree
  rw [getAfter, answer_eq hrun]
  exact hholds.tryGet_eq key

/-- The session over the empty database. -/
def sample : Session := ⟨⟨.nil, 0, 0⟩, .empty, emptyRoot, []⟩

/-- Two keys of which one continues the other, saved and changed; the change to one is lost when the
trie is opened again, and the trie grows by a third key with a value that is stored on its own. -/
def sampleCalls : List Call :=
  [.tryUpdate [1] [2], .tryUpdate [1, 2] [3], .commitTo, .tryUpdate [1] [], .hash, .reopen 0,
    .tryUpdate [1, 3] (List.replicate 40 8), .commitTo, .tryGet [1], .commitTo, .tryDelete [1, 2]]

/-- The sample hash has no collision on what a session over the empty database writes, when it has
none on the long strings among it. -/
theorem collisionFree_sample
    (hlarge : ∀ e ∈ (sample.run keccak calls).1.written.filter fun e => 32 ≤ e.length,
      2 ^ 250 ≤ Sample.weight e ∧ keccak e ≠ emptyRoot)
    (hne : ∀ e ∈ (sample.run keccak calls).1.written.filter fun e => 32 ≤ e.length,
      ∀ e' ∈ (sample.run keccak calls).1.written.filter fun e => 32 ≤ e.length,
        Sample.weight e = Sample.weight e' → e = e') :
    CollisionFree keccak (sample.data keccak calls) := by
  refine (Sample.collisionFree_of_long hlarge hne).mono ?_
  rintro e (he | he)
  · cases he
  · by_cases hlen : 32 ≤ e.length
    · exact .inr (List.mem_filter.mpr ⟨he, decide_eq_true hlen⟩)
    · exact .inl (show e.length ≤ 31 by omega)

theorem collisionFree_sampleCalls : CollisionFree keccak (sample.data keccak sampleCalls) :=
  collisionFree_sample (by decide +kernel) (by decide +kernel)

/-- The sample calls: the change that was not committed is gone, the deletion after the last commit
is not. -/
theorem getAfter_eq_sample :
    sample.getAfter keccak sampleCalls [1] = .ok [2] ∧
      sample.getAfter keccak sampleCalls [1, 2] = .ok [] ∧
      sample.getAfter keccak sampleCalls [1, 3] = .ok (List.replicate 40 8) := by
  have hm : KeptAt keccak Db.empty.nodes emptyRoot fun _ => none :=
    keptAt_empty _ (.inl rfl)
  obtain ⟨s, hs, h⟩ := getAfter_eq hm 0
  obtain rfl : sample = s := Except.ok.inj hs
  have hget := h sampleCalls (by decide) collisionFree_sampleCalls
  exact ⟨hget [1], hget [1, 2], hget [1, 3]⟩

/-- A key that comes and goes leaves the contents as they were. -/
theorem contents_insert_delete {m : ByteMap} {key value : Bytes} (h : contents m calls key = none) :
    contents m (calls ++ [.tryUpdate key value, .tryDelete key]) = contents m calls := by
  rw [contents, List.foldl_append]
  exact (Function.update_idem ..).trans (Function.update_eq_self_iff.mpr h.symm)

theorem data_append {l : List Call} (h : s.run H calls = (s', none)) (hl : Call.commitTo ∉ l) :
    s.data H (calls ++ l) = s.data H calls := by
  have hrun : s.run H (calls ++ l) = s'.run H l := Fold.foldStop_append h l
  rw [data, data, hrun, written_run hl, h]

/-- **The root depends only on the contents.**  Two sessions, over databases of their own and by
calls of their own, that end with the same contents in memory give the same root; in particular, a
key that is inserted and then deleted again leaves the root as it was.  The hash is assumed to have
no collision on the nodes each of the sessions stores. -/
theorem hashAfter_eq {db₁ db₂ : Db} {root₁ root₂ : Hash} {m₁ m₂ : ByteMap}
    (hm₁ : KeptAt H db₁.nodes root₁ m₁) (hm₂ : KeptAt H db₂.nodes root₂ m₂)
    {limit₁ limit₂ : UInt16} {s₁ s₂ : Session} (hs₁ : start db₁ limit₁ root₁ = .ok s₁)
    (hs₂ : start db₂ limit₂ root₂ = .ok s₂) {calls₁ calls₂ : List Call}
    (hfits₁ : ∀ c ∈ calls₁, c.Fits) (hfits₂ : ∀ c ∈ calls₂, c.Fits)
    (hfree₁ : CollisionFree H (s₁.data H calls₁)) (hfree₂ : CollisionFree H (s₂.data H calls₂)) :
    (contents m₁ calls₁ = contents m₂ calls₂ → ∃ root,
      s₁.hashAfter H calls₁ = .ok root ∧ s₂.hashAfter H calls₂ = .ok root) ∧
    ∀ key value, contents m₁ calls₁ key = none → (Call.tryUpdate key value).Fits → ∃ root,
      s₁.hashAfter H calls₁ = .ok root ∧
      s₁.hashAfter H (calls₁ ++ [.tryUpdate key value, .tryDelete key]) = .ok root := by
  obtain ⟨tree, hcar, hroot⟩ := exists_hashAfter hm₁ hs₁ hfits₁ hfree₁
  refine ⟨fun heq => ?_, fun key value hnone hfits => ?_⟩
  · obtain ⟨tree', hcar', hroot'⟩ := exists_hashAfter hm₂ hs₂ hfits₂ hfree₂
    rw [← heq] at hcar'
    obtain rfl := hcar.along.unique hcar'.along
    exact ⟨_, hroot, hroot'⟩
  · have hall : ∀ c ∈ calls₁ ++ [.tryUpdate key value, .tryDelete key], c.Fits := by
      simpa [or_imp, forall_and] using ⟨hfits₁, hfits, trivial⟩
    obtain ⟨s', hrun, -⟩ := exists_run hm₁ hs₁ hfits₁ hfree₁
    rw [← data_append hrun (l := [.tryUpdate key value, .tryDelete key]) (by simp)] at hfree₁
    obtain ⟨tree', hcar', hroot'⟩ := exists_hashAfter hm₁ hs₁ hall hfree₁
    rw [contents_insert_delete hnone] at hcar'
    obtain rfl := hcar.along.unique hcar'.along
    exact ⟨_, hroot, hroot'⟩

/-- The keys that are left by the sample calls, in another order and without a commit. -/
def otherCalls : List Call :=
  [.tryUpdate [1, 3] (List.replicate 40 8), .tryDelete [5], .tryUpdate [1] [2]]

/-- Both ways to the same contents, and a key that comes and goes. -/
theorem hashAfter_eq_sample :
    (∃ root, sample.hashAfter keccak sampleCalls = .ok root ∧
      sample.hashAfter keccak otherCalls = .ok root) ∧
    ∃ root, sample.hashAfter keccak sampleCalls = .ok root ∧
      sample.hashAfter keccak (sampleCalls ++ [.tryUpdate [1, 2] [9], .tryDelete [1, 2]])
        = .ok root := by
  have hm : KeptAt keccak Db.empty.nodes emptyRoot fun _ => none :=
    keptAt_empty _ (.inl rfl)
  have hs : start .empty 0 emptyRoot = .ok sample := rfl
  have hfits : ∀ c ∈ sampleCalls, c.Fits := by decide
  have hfits' : ∀ c ∈ otherCalls, c.Fits := by decide
  have hfree : CollisionFree keccak (sample.data keccak otherCalls) :=
    collisionFree_sample (by decide +kernel) (by decide +kernel)
  obtain ⟨hroot, hback⟩ := hashAfter_eq hm hm hs hs hfits hfits' collisionFree_sampleCalls hfree
  refine ⟨hroot ?_, hback [1, 2] [9] rfl (by decide)⟩
  funext key
  simp only [contents, sampleCalls, otherCalls, List.foldl, Maps.step, Function.update_apply]
  split_ifs <;> simp_all

end Session

end Gocoin.Trie
