import Gocoin.Trie.SecureTrie
import Gocoin.Trie.Trees

/-!
# Trie/Maps — a secure trie is a finite map

A secure trie is a map from hashes of keys to values.  `Models` says which map a trie in memory
stands for over a database; looking up, updating and deleting are those of the map, and committing
gives the root of the map, at which a trie for the same map opens again.  A map has one root
(`root_unique`), and two maps with the same root are equal as long as the hash has no collision on
the encodings (`map_eq_of_root`).
-/

namespace Gocoin

open Patricia
open Function (update)

namespace Trie

/-- The values under hashed keys. -/
abbrev HashMap := Hash → Option Bytes

/-- The path of a hashed key. -/
def path (h : Hash) : Nibbles := keybytesToHex h.bytes

/-- Different hashes have different paths. -/
theorem path_injective : Function.Injective path := fun _ _ h =>
  FixedBytes.ext_bytes (keybytesToHex_injective h)

theorem terminated_path (h : Hash) : Terminated (path h) := terminated_keybytesToHex _

theorem length_path (h : Hash) : (path h).length = 65 := by
  rw [path, length_keybytesToHex, h.length_eq]

/-- A canonical tree that holds a map. -/
structure Shows (t : PTree) (m : HashMap) : Prop where
  canonical : Tree.Canonical Value t
  get_path : ∀ h, t.get (path h) = m h
  only : ∀ key v, t.get key = some v → ∃ h, key = path h

namespace Shows

variable {t t' : PTree} {m : HashMap}

/-- The paths are short. -/
theorem keysLE (h : Shows t m) : KeysLE t := by
  intro key v hget
  obtain ⟨x, rfl⟩ := h.only key v hget
  rw [length_path]
  norm_num

theorem along (h : Shows t m) : Tree.Along Value path t m := ⟨h.canonical, h.get_path, h.only⟩

theorem of_along (h : Tree.Along Value path t m) : Shows t m := ⟨h.canonical, h.get_path, h.only⟩

theorem nil : Shows .nil fun _ => none := of_along .nil

/-- **A map has one canonical tree.** -/
theorem unique (h : Shows t m) (h' : Shows t' m) : t = t' := h.along.unique h'.along

theorem value (h : Shows t m) {x : Hash} {v : Bytes} (hx : m x = some v) : Value v := by
  rw [← h.get_path] at hx
  rcases h.canonical with rfl | hw
  · cases hx
  · exact hw.of_get hx

/-- **Insertion is update of the map**… -/
theorem insert (h : Shows t m) (x : Hash) {v : Bytes} (hv : Value v) :
    Shows (t.insert v (path x)) (update m x (some v)) :=
  of_along (h.along.insert path_injective (terminated_path x) hv)

/-- One entry is one leaf. -/
theorem single (x : Hash) {v : Bytes} (hv : Value v) :
    Shows (.short (path x) (.value v)) (update (fun _ => none) x (some v)) := by
  have h := nil.insert x hv
  rwa [Tree.insert_nil v (terminated_path x).ne_nil] at h

/-- …and deletion erasure. -/
theorem delete (h : Shows t m) (x : Hash) : Shows (t.delete (path x)) (update m x none) :=
  of_along (h.along.delete path_injective (terminated_path x))

end Shows

/-! ## Roots -/

section Roots

variable (H : HashFn)

/-- The root of a map. -/
def IsRoot (m : HashMap) (root : Hash) : Prop := ∃ t, Shows t m ∧ root = rootHash H t

/-- The encodings of the nodes of a map's tree. -/
def nodesOf (m : HashMap) : Set Bytes := {e | ∃ t, Shows t m ∧ e ∈ encodings H t}

variable {H} {m m' : HashMap} {root : Hash}

/-- **A map has one root.** -/
theorem root_unique {root' : Hash} (h : IsRoot H m root) (h' : IsRoot H m root') :
    root = root' := by
  obtain ⟨t, hs, rfl⟩ := h
  obtain ⟨t', hs', rfl⟩ := h'
  rw [hs.unique hs']

/-- The nodes of a tree are those of its map. -/
theorem encodings_subset_nodesOf {t : PTree} (h : Shows t m) :
    encodings H t ⊆ nodesOf H m := fun _ he => ⟨t, h, he⟩

/-- The one node of a map with one entry. -/
theorem nodesOf_single (x : Hash) {v : Bytes} (hv : Value v) :
    nodesOf H (update (fun _ => none) x (some v))
      ⊆ {enc H (.short (path x) (.value v))} := by
  rintro e ⟨t, ht, he⟩
  rw [ht.unique (Shows.single x hv)] at he
  rcases he with rfl | he
  · rfl
  · exact he.elim

/-- **Two maps with one root are equal**, as long as the hash has no collision on their nodes and
no node hashes to the root of the empty trie. -/
theorem map_eq_of_root {D : Set Bytes} (hD : Set.InjOn H D)
    (hempty : ∀ e ∈ nodesOf H m ∪ nodesOf H m', H e ≠ emptyRoot)
    (hsub : nodesOf H m ⊆ D) (hsub' : nodesOf H m' ⊆ D)
    (h : IsRoot H m root) (h' : IsRoot H m' root) : m = m' := by
  obtain ⟨t, hs, ht⟩ := h
  obtain ⟨t', hs', ht'⟩ := h'
  have hsubset : encodings H t ⊆ nodesOf H m := encodings_subset_nodesOf hs
  have hsubset' : encodings H t' ⊆ nodesOf H m' := encodings_subset_nodesOf hs'
  have heq : t = t' := rootHash_injective hD hs.canonical hs'.canonical hs.keysLE hs'.keysLE
    (hsubset.trans hsub) (hsubset'.trans hsub')
    (fun e he => hempty e (he.imp (fun h => hsubset h) fun h => hsubset' h)) (ht.symm.trans ht')
  subst heq
  exact funext fun x => (hs.get_path x).symm.trans (hs'.get_path x)

end Roots

/-! ## Tries in memory -/

section Models

variable (H : HashFn) (get : Nodes)

/-- The trie in memory stands for a map. -/
def Models (t : Trie) (m : HashMap) : Prop := ∃ tree, Shows tree m ∧ Rep H get true t.root tree

/-- The trie of a map is fully stored at a root. -/
def StoredAt (root : Hash) (m : HashMap) : Prop := ∃ tree, Shows tree m ∧ TreeAt H get root tree

variable {H get} {get' : Nodes} {t : Trie} {m : HashMap} {root : Hash}

/-- A trie needs only the nodes of its map. -/
theorem Models.monoOn (hle : KeepsOn H get (nodesOf H m) get')
    (h : Models H get t m) : Models H get' t m := by
  obtain ⟨tree, hs, hr⟩ := h
  exact ⟨tree, hs, hr.monoOn (hle.mono (encodings_subset_nodesOf hs))⟩

theorem Models.mono (hle : Keeps H get get') (h : Models H get t m) :
    Models H get' t m := h.monoOn (hle.on _)

/-- A map stays stored as long as its nodes do. -/
theorem StoredAt.monoOn (hle : KeepsOn H get (nodesOf H m) get')
    (h : StoredAt H get root m) : StoredAt H get' root m := by
  obtain ⟨tree, hs, htree⟩ := h
  exact ⟨tree, hs, htree.monoOn (hle.mono (encodings_subset_nodesOf hs))⟩

theorem StoredAt.mono (hle : Keeps H get get') (h : StoredAt H get root m) :
    StoredAt H get' root m := h.monoOn (hle.on _)

variable (H get) in
/-- A root at which the database has one leaf, under its hash. -/
def LeafAt (root x : Hash) (v : Bytes) : Prop :=
  (v ≠ [] ∧ v.length < 2 ^ 63) ∧ root = H (enc H (.short (path x) (.value v))) ∧
    root ≠ emptyRoot ∧ root ≠ FixedBytes.zero 32 ∧
    get root = some (enc H (.short (path x) (.value v)))

instance {x : Hash} {v : Bytes} : Decidable (LeafAt H get root x v) :=
  inferInstanceAs (Decidable ((_ ∧ _) ∧ _ ∧ _ ∧ _ ∧ _))

/-- A leaf stores a map with one entry. -/
theorem LeafAt.storedAt {x : Hash} {v : Bytes} (h : LeafAt H get root x v) :
    StoredAt H get root (update (fun _ => none) x (some v)) := by
  obtain ⟨hv, rfl, hne, hz, hget⟩ := h
  have hleaf := Shows.single x hv
  exact ⟨_, hleaf, .inr ⟨hleaf.canonical.resolve_left (by simp), rfl, hne, hz, hget,
    fun h => h.elim, trivial⟩⟩

/-- The root at which a map is stored, but for the alias of the empty one, is its own. -/
theorem StoredAt.isRoot (h : StoredAt H get root m) : IsRoot H m (openedRoot root) := by
  obtain ⟨tree, hs, ⟨rfl, rfl | rfl⟩ | ⟨hw, hroot, -, hz, -⟩⟩ := h
  · exact ⟨.nil, hs, show openedRoot emptyRoot = emptyRoot by decide⟩
  · exact ⟨.nil, hs, rfl⟩
  · exact ⟨tree, hs, by rw [openedRoot, if_neg hz, hroot, rootHash_of_wf hw]⟩

/-- The nodes of a stored map can be read. -/
theorem StoredAt.decodeNode_ne_none (h : StoredAt H get root m) {e : Bytes}
    (he : e ∈ nodesOf H m) : decodeNode none e 0 ≠ none := by
  obtain ⟨tree, hs, hroot⟩ := h
  obtain ⟨tree', hs', he⟩ := he
  obtain rfl := hs.unique hs'
  obtain ⟨rfl, -⟩ | ⟨hw, -, -, -, -, hheld⟩ := hroot
  · exact he.elim
  · exact Trie.decodeNode_ne_none hw hs.keysLE hheld he

/-- `New` opens what is stored. -/
theorem StoredAt.exists_new (h : StoredAt H get root m) (cachelimit : UInt16) :
    ∃ t, Trie.new get cachelimit root = .ok t ∧ Models H get t m := by
  obtain ⟨tree, hs, htree⟩ := h
  obtain ⟨t, ht, hr⟩ := htree.exists_new hs.keysLE cachelimit
  exact ⟨t, ht, tree, hs, hr⟩

/-- `TryGet` looks up in the map. -/
theorem Models.exists_tryGet (h : Models H get t m) (x : Hash) :
    ∃ t', t.tryGet get x.bytes = .ok ((m x).getD [], t') ∧ Models H get t' m := by
  obtain ⟨tree, hs, hr⟩ := h
  obtain ⟨t', ht', hr'⟩ := hr.exists_tryGet hs.canonical hs.keysLE x.bytes
  rw [show keybytesToHex x.bytes = path x from rfl, hs.get_path] at ht'
  exact ⟨t', ht', tree, hs, hr'⟩

/-- What is found at the keys of a trie, one by one. -/
def toMap (get : Nodes) (t : Trie) : HashMap := fun x =>
  match t.tryGet get x.bytes with
  | .error _ => none
  | .ok (v, _) => if v = [] then none else some v

section

variable (h : Models H get t m)
include h

/-- **A trie in memory shows the map it stands for.** -/
theorem Models.toMap_eq : t.toMap get = m := by
  funext x
  obtain ⟨t', ht', -⟩ := h.exists_tryGet x
  obtain ⟨tree, hs, -⟩ := h
  simp only [toMap, ht']
  cases hx : m x with
  | none => rfl
  | some v => exact if_neg (hs.value hx).1

/-- `Hash` gives the root of the map. -/
theorem Models.exists_hash :
    ∃ root t', t.hash H = .ok (root, t') ∧ IsRoot H m root ∧ Models H get t' m := by
  obtain ⟨tree, hs, hr⟩ := h
  obtain ⟨t', ht', hr'⟩ := hr.exists_hash hs.canonical
  exact ⟨_, t', ht', ⟨tree, hs, rfl⟩, tree, hs, hr'⟩

/-- `TryDelete` deletes from the map. -/
theorem Models.exists_tryDelete (x : Hash) :
    ∃ t', t.tryDelete get x.bytes = .ok t' ∧ Models H get t' (update m x none) := by
  obtain ⟨tree, hs, hr⟩ := h
  obtain ⟨t', ht', hr'⟩ := hr.exists_tryDelete hs.canonical hs.keysLE x.bytes
  exact ⟨t', ht', _, hs.delete x, hr'⟩

/-- `TryUpdate` updates the map. -/
theorem Models.exists_tryUpdate (x : Hash) {v : Bytes} (hv : Value v) :
    ∃ t', t.tryUpdate get x.bytes v = .ok t' ∧ Models H get t' (update m x (some v)) := by
  obtain ⟨tree, hs, hr⟩ := h
  obtain ⟨t', ht', hr'⟩ := hr.exists_tryUpdate hs.canonical hs.keysLE x.bytes hv
  exact ⟨t', ht', _, hs.insert x hv, hr'⟩

/-- `CommitTo` gives the root of the map; over every database that keeps the old nodes and has the
written ones the trie stands for the same map, and a new trie for it opens at the root. -/
theorem Models.exists_commitTo :
    ∃ root t' ws, t.commitTo H = .ok (root, t', ws) ∧ IsRoot H m root ∧
      (∀ w ∈ ws, w.1 = H w.2 ∧ w.2 ∈ nodesOf H m) ∧
      ∀ get', Keeps H get get' → (∀ w ∈ ws, get' w.1 = some w.2) → Models H get' t' m ∧
        ((∀ e ∈ nodesOf H m, H e ≠ emptyRoot ∧ H e ≠ FixedBytes.zero 32) →
          StoredAt H get' root m) := by
  obtain ⟨tree, hs, hr⟩ := h
  obtain ⟨t', ws, hcommit, hws, hkeep⟩ := hr.exists_commitTo hs.canonical
  refine ⟨_, t', ws, hcommit, ⟨tree, hs, rfl⟩,
    fun w hw => ⟨(hws w hw).1, tree, hs, (hws w hw).2⟩, fun get' hle hdb => ?_⟩
  obtain ⟨hr', hin, hheld⟩ := hkeep get' hle hdb
  exact ⟨⟨tree, hs, hr'⟩, fun hne => ⟨tree, hs, treeAt_rootHash hs.canonical hin hheld
    fun hnode => hne _ (encodings_subset_nodesOf hs (enc_mem_encodings hnode))⟩⟩

end

end Models

/-! ## Databases and collisions -/

/-- The hash has no collision on a set of strings, and on it — the empty string's encoding apart —
misses the two hashes that stand for the empty trie. -/
structure CollisionFree (H : HashFn) (D : Set Bytes) : Prop where
  injOn : Set.InjOn H D
  ne_empty : ∀ e ∈ D, e ≠ [0x80] → H e ≠ emptyRoot
  ne_zero : ∀ e ∈ D, H e ≠ FixedBytes.zero 32

/-- The strings a database has under their own hashes. -/
def storedNodes (H : HashFn) (db : Db) : Set Bytes := {e | db.nodes (H e) = some e}

/-- What a database has beyond another one lies under its own hash, and is among the given
strings. -/
def Grows (H : HashFn) (D : Set Bytes) (db db' : Db) : Prop :=
  ∀ x v, db'.nodes x = some v → db.nodes x = some v ∨ x = H v ∧ v ∈ D

variable {H : HashFn} {D : Set Bytes}

/-- Databases that grow step by step grow. -/
theorem Grows.trans {db₁ db₂ db₃ : Db} (h : Grows H D db₁ db₂) (h' : Grows H D db₂ db₃) :
    Grows H D db₁ db₃ :=
  fun x v hv => (h' x v hv).elim (h x v) .inr

theorem Grows.storedNodes {db db' : Db} (h : Grows H D db db')
    (hdb : storedNodes H db ⊆ D) : Trie.storedNodes H db' ⊆ D :=
  fun e he => (h (H e) e he).elim (fun hold => hdb hold) And.right

/-- Fewer strings have no more collisions. -/
theorem CollisionFree.mono {D' : Set Bytes} (h : CollisionFree H D) (hsub : D' ⊆ D) :
    CollisionFree H D' where
  injOn := h.injOn.mono hsub
  ne_empty := fun e he => h.ne_empty e (hsub he)
  ne_zero := fun e he => h.ne_zero e (hsub he)

/-- Addresses are told apart… -/
theorem CollisionFree.address_inj (h : CollisionFree H D) (hD : ∀ a : Address, a.bytes ∈ D)
    (a b : Address) (hab : H a.bytes = H b.bytes) : a = b :=
  FixedBytes.ext_bytes (h.injOn (hD a) (hD b) hab)

/-- …and so are ids. -/
theorem CollisionFree.id_inj (h : CollisionFree H D) {m n : ℕ} (hm : BigEndian.toBytes m ∈ D)
    (hn : BigEndian.toBytes n ∈ D)
    (hmn : H (BigEndian.toBytes m) = H (BigEndian.toBytes n)) : m = n :=
  BigEndian.toBytes_injective (h.injOn hm hn hmn)

/-- The encoding of a node is that of a list, not that of the empty string. -/
theorem ne_empty_of_mem_encodings {t : PTree} {e : Bytes} (he : e ∈ encodings H t) :
    e ≠ [0x80] := by
  obtain ⟨l, rfl⟩ := exists_list_of_mem_encodings he
  intro h
  have hlen : (Rlp.encode (.list l)).length < 2 ^ 64 := by
    rw [h]
    norm_num
  have heq : Rlp.Item.list l = .str [] := Rlp.encode_injective hlen h
  cases heq

theorem ne_empty_of_mem_nodesOf {m : HashMap} {e : Bytes} (he : e ∈ nodesOf H m) : e ≠ [0x80] := by
  obtain ⟨t, -, he⟩ := he
  exact ne_empty_of_mem_encodings he

/-- **Two maps with one root are equal** when the hash has no collision on their nodes. -/
theorem CollisionFree.map_eq (hD : CollisionFree H D) {m m' : HashMap}
    (hm : nodesOf H m ⊆ D) (hm' : nodesOf H m' ⊆ D) {root : Hash}
    (h : IsRoot H m root) (h' : IsRoot H m' root) : m = m' :=
  map_eq_of_root hD.injOn (fun e he => hD.ne_empty e (Set.union_subset hm hm' he)
    (he.elim ne_empty_of_mem_nodesOf ne_empty_of_mem_nodesOf)) hm hm' h h'

/-- The writes of a commit keep what was stored, and what they write is stored. -/
theorem putAll_nodes (hD : CollisionFree H D) {db : Db} (hdb : storedNodes H db ⊆ D)
    {pre : List (Bytes × Bytes)} (hpre : ∀ w ∈ pre, w.1.length ≠ 32) {ws : List NodeWrite}
    (hws : ∀ w ∈ ws, w.1 = H w.2 ∧ w.2 ∈ D) :
    Keeps H db.nodes (db.putAll (pre ++ ws.map fun w => (w.1.bytes, w.2))).nodes ∧
    (∀ w ∈ ws, (db.putAll (pre ++ ws.map fun w => (w.1.bytes, w.2))).nodes w.1 = some w.2) ∧
    Grows H D db (db.putAll (pre ++ ws.map fun w => (w.1.bytes, w.2))) := by
  have hagree : ∀ e ∈ D, ∀ w ∈ pre ++ ws.map fun w => (w.1.bytes, w.2),
      w.1 = (H e).bytes → w.2 = e := by
    intro e he w hw heq
    rcases List.mem_append.mp hw with hw | hw
    · exact absurd (by rw [heq, (H e).length_eq]) (hpre w hw)
    · obtain ⟨w', hw', rfl⟩ := List.mem_map.mp hw
      obtain ⟨hkey, hmem⟩ := hws w' hw'
      exact hD.injOn hmem he (by rw [← hkey]; exact FixedBytes.ext_bytes heq)
  refine ⟨fun e he => Db.get_putAll_of_agree (hagree e (hdb he)) he, fun w hw => ?_,
    fun x v hv => ?_⟩
  · obtain ⟨hkey, hmem⟩ := hws w hw
    refine Db.get_putAll_of_mem (List.mem_append_right _ (List.mem_map.mpr ⟨w, hw, rfl⟩)) ?_ db
    rw [hkey]
    exact hagree w.2 hmem
  · rcases Db.mem_or_get_of_get_putAll hv with hmem | hget
    · rcases List.mem_append.mp hmem with hw | hw
      · exact absurd x.length_eq (hpre _ hw)
      · obtain ⟨w', hw', heq⟩ := List.mem_map.mp hw
        obtain ⟨hkey, hin⟩ := hws w' hw'
        obtain rfl : w'.2 = v := congrArg Prod.snd heq
        exact .inr ⟨(FixedBytes.ext_bytes (congrArg Prod.fst heq)).symm.trans hkey, hin⟩
    · exact .inl hget

end Trie

/-! ## Secure tries -/

namespace SecureTrie

open Trie

variable {H : HashFn} {get : Nodes} {t : SecureTrie} {m : HashMap}

/-- **A stored map can be opened.** -/
theorem exists_newSecure {root : Hash} (h : StoredAt H get root m) (cachelimit : UInt16) :
    ∃ t, newSecure get root cachelimit = .ok t ∧ t.trie.Models H get m := by
  obtain ⟨t, ht, hm⟩ := h.exists_new cachelimit
  refine ⟨⟨t, ∅⟩, ?_, hm⟩
  unfold newSecure
  rw [ht]
  rfl

section

variable (h : t.trie.Models H get m)
include h

/-- Reading gives what the map has under the hash of the key… -/
theorem exists_tryGet (key : Bytes) :
    ∃ t', t.tryGet H get key = .ok ((m (H key)).getD [], t') ∧ t'.trie.Models H get m := by
  obtain ⟨trie, ht, hm⟩ := h.exists_tryGet (H key)
  refine ⟨{ t with trie }, ?_, hm⟩
  unfold tryGet
  rw [ht]
  rfl

/-- …writing updates it there… -/
theorem exists_tryUpdate (key : Bytes) {v : Bytes} (hv : Value v) :
    ∃ t', t.tryUpdate H get key v = .ok t' ∧ t'.trie.Models H get (update m (H key) (some v)) := by
  obtain ⟨trie, ht, hm⟩ := h.exists_tryUpdate (H key) hv
  refine ⟨⟨trie, t.secKeyCache.insert (H key) key⟩, ?_, hm⟩
  unfold tryUpdate
  rw [ht]
  rfl

/-- …and deleting erases it. -/
theorem exists_tryDelete (key : Bytes) :
    ∃ t', t.tryDelete H get key = (t', .ok ()) ∧ t'.trie.Models H get (update m (H key) none) := by
  obtain ⟨trie, ht, hm⟩ := h.exists_tryDelete (H key)
  refine ⟨⟨trie, t.secKeyCache.erase (H key)⟩, ?_, hm⟩
  unfold tryDelete
  rw [ht]

/-- The hash is the root of the map. -/
theorem exists_hash :
    ∃ root t', t.hash H = .ok (root, t') ∧ IsRoot H m root ∧ t'.trie.Models H get m := by
  obtain ⟨root, trie, ht, hroot, hm⟩ := h.exists_hash
  refine ⟨root, { t with trie }, ?_, hroot, hm⟩
  unfold hash
  rw [ht]
  rfl

end

theorem length_secKey (h : Hash) : (secKey h).length = 43 := by
  rw [secKey, List.length_append, h.length_eq]
  rfl

/-- **Committing a secure trie** stores its map at the map's root, where a trie for it opens. -/
theorem exists_commitTo {D : Set Bytes} (hD : CollisionFree H D) {db : Db}
    (hdb : storedNodes H db ⊆ D) (hm : nodesOf H m ⊆ D) (h : t.trie.Models H db.nodes m) :
    ∃ root t' ws, t.commitTo H = .ok (root, t', ws) ∧ IsRoot H m root ∧
      Keeps H db.nodes (db.putAll ws).nodes ∧ Grows H D db (db.putAll ws) ∧
      t'.trie.Models H (db.putAll ws).nodes m ∧
      StoredAt H (db.putAll ws).nodes root m := by
  obtain ⟨root, trie, ws, hcommit, hroot, hws, hkeep⟩ := h.exists_commitTo
  have hpre : ∀ w ∈ t.secKeyCache.entries.map fun e => (secKey e.1, e.2), w.1.length ≠ 32 := by
    intro w hw
    obtain ⟨e, -, rfl⟩ := List.mem_map.mp hw
    rw [length_secKey]
    decide
  obtain ⟨hkeeps, hwritten, hgrows⟩ :=
    putAll_nodes hD hdb hpre fun w hw => ⟨(hws w hw).1, hm (hws w hw).2⟩
  obtain ⟨hmod, hstored⟩ := hkeep _ hkeeps hwritten
  refine ⟨root, ⟨trie, ∅⟩, _, ?_, hroot, hkeeps, hgrows, hmod, hstored fun e he =>
    ⟨hD.ne_empty e (hm he) (ne_empty_of_mem_nodesOf he), hD.ne_zero e (hm he)⟩⟩
  unfold commitTo
  rw [hcommit]
  rfl

end SecureTrie

end Gocoin
