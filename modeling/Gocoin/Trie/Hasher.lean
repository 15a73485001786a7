import Gocoin.Trie.Trie

/-!
# Trie/Hasher — hashing and storing a trie

`trie/hasher.go`, `Trie.CommitTo` and `trie.New`.  Hashing collapses a node bottom up: a subnode
whose encoding is shorter than a hash stays embedded in its parent, every other one is replaced by
the hash of its encoding and, when the trie is being committed, written to the database under that
hash.  Nodes that are clean and have a cached hash are not walked again.
-/

namespace Gocoin.Trie

/-- A write to the node table. -/
abbrev NodeWrite := Hash × Bytes

/-- What hashing makes of a node: a reference, or the collapsed node itself. -/
inductive Collapsed where
  | hash (h : Hash)
  | node (it : Rlp.Item)

/-- The element of the parent's list. -/
def Collapsed.item : Collapsed → Rlp.Item
  | .hash h => .str h.bytes
  | .node it => it

/-- `hashed.(hashNode)`. -/
def Collapsed.hash? : Collapsed → Option Hash
  | .hash h => some h
  | .node _ => none

/-- The result of hashing a node: its collapsed form, the node to keep, the writes. -/
structure Hashed where
  collapsed : Collapsed
  cached : Node
  writes : List NodeWrite

section Hasher

variable (keccak : HashFn) (cachegen cachelimit : UInt16) (commit : Bool)

/-- The start of `hash`: a node with a cached hash that needs no storing is not walked. -/
def reuse (n : Node) (fl : NodeFlag) : Option Hashed :=
  match fl.hash with
  | none => none
  | some h =>
    if !commit then some ⟨.hash h, n, []⟩
    else if fl.canUnload cachegen cachelimit then some ⟨.hash h, .hash h, []⟩
    else if !fl.dirty then some ⟨.hash h, n, []⟩
    else none

/-- `store`: encodings shorter than a hash stay with the parent unless `force` is set. -/
def store (cached : Option Hash) (it : Rlp.Item) (force : Bool) : Collapsed × List NodeWrite :=
  let enc := Rlp.encode it
  if enc.length < 32 ∧ force = false then (.node it, [])
  else
    let h := cached.getD (keccak enc)
    (.hash h, if commit then [(h, enc)] else [])

/-- The flags `hash` leaves on the kept node. -/
def settle (fl : NodeFlag) (c : Collapsed) : NodeFlag :=
  { fl with hash := c.hash?, dirty := if commit then false else fl.dirty }

/-- The seventeenth child of a full node is a value or nothing. -/
def Node.slotItem : Node → Except TrieErr Rlp.Item
  | .nil => .ok (.str [])
  | .value v => .ok (.str v)
  | _ => .error .panic

/-- `hash`. -/
def Node.hashWith : Node → Bool → Except TrieErr Hashed
  | .nil, _ => .error .panic
  | .hash h, _ => .ok ⟨.hash h, .hash h, []⟩
  | .value v, force =>
    let s := store keccak commit none (.str v) force
    .ok ⟨s.1, .value v, s.2⟩
  | .short k val fl, force =>
    match reuse cachegen cachelimit commit (.short k val fl) fl with
    | some r => .ok r
    | none => do
      let c : Hashed ← match val with
        | .value v => .ok ⟨.node (.str v), .value v, []⟩
        | _ => val.hashWith false
      let s := store keccak commit fl.hash
        (.list [.str (hexToCompact k), c.collapsed.item]) force
      .ok ⟨s.1, .short k c.cached (settle commit fl s.1), c.writes ++ s.2⟩
  | .full children fl, force =>
    match reuse cachegen cachelimit commit (.full children fl) fl with
    | some r => .ok r
    | none => do
      let cs : List Hashed ← (List.finRange 16).mapM fun i =>
        if (children i.castSucc).nonNil then (children i.castSucc).hashWith false
        else .ok ⟨.node (.str []), .nil, []⟩
      let last : Rlp.Item ← (children term).slotItem
      let s := store keccak commit fl.hash
        (.list (cs.map (fun c => c.collapsed.item) ++ [last])) force
      let kept : Fin 17 → Node := fun i => (cs.map (fun c => c.cached)).getD i.val (children i)
      .ok ⟨s.1, .full kept (settle commit fl s.1), cs.flatMap (fun c => c.writes) ++ s.2⟩

end Hasher

/-! ## Hash, commit and open -/

/-- The root of the empty trie, `56e81f17…63b421`. -/
def emptyRoot : Hash where
  bytes := [0x56, 0xe8, 0x1f, 0x17, 0x1b, 0xcc, 0x55, 0xa6, 0xff, 0x83, 0x45, 0xe6, 0x92, 0xc0,
    0xf8, 0x6e, 0x5b, 0x48, 0xe0, 0x1b, 0x99, 0x6c, 0xad, 0xc0, 0x01, 0x62, 0x2f, 0xb5, 0xe3, 0x63,
    0xb4, 0x21]
  length_eq := rfl

/-- `hashRoot`; the root is always replaced by its hash. -/
def hashRoot (keccak : HashFn) (commit : Bool) (t : Trie) :
    Except TrieErr (Hash × Node × List NodeWrite) :=
  match t.root with
  | .nil => .ok (emptyRoot, .nil, [])
  | root => do
    let r ← root.hashWith keccak t.cachegen t.cachelimit commit true
    match r.collapsed with
    | .hash h => .ok (h, r.cached, r.writes)
    | .node _ => .error .panic

/-- `Hash`: the root without storing anything. -/
def hash (keccak : HashFn) (t : Trie) : Except TrieErr (Hash × Trie) := do
  let (h, cached, _) ← hashRoot keccak false t
  .ok (h, { t with root := cached })

/-- `CommitTo`: the root, the trie with its hashes cached, and the nodes to write. -/
def commitTo (keccak : HashFn) (t : Trie) : Except TrieErr (Hash × Trie × List NodeWrite) := do
  let (h, cached, ws) ← hashRoot keccak true t
  .ok (h, { t with root := cached, cachegen := t.cachegen + 1 }, ws)

/-- `New`. -/
def new (get : Nodes) (cachelimit : UInt16) (root : Hash) : Except TrieErr Trie :=
  if root ≠ FixedBytes.zero 32 ∧ root ≠ emptyRoot then do
    let rootnode ← Node.resolveHash get 0 root
    .ok ⟨rootnode, 0, cachelimit⟩
  else .ok ⟨.nil, 0, cachelimit⟩

/-! ## A trie that has just been opened -/

/-- The root a trie opened at a root has: the zero root is an alias of the empty one. -/
def openedRoot (root : Hash) : Hash := if root = FixedBytes.zero 32 then emptyRoot else root

/-- The trie is empty, or its root node is clean and carries its hash. -/
def Clean (t : Trie) (h : Hash) : Prop :=
  (t.root = .nil ∧ h = emptyRoot) ∨
    ∃ gen, (∃ k val, t.root = .short k val ⟨some h, gen, false⟩) ∨
      ∃ c, t.root = .full c ⟨some h, gen, false⟩

variable {get : Nodes} {t : Trie} {v : Bytes}

theorem clean_new {cachelimit : UInt16} {root : Hash} (h : Trie.new get cachelimit root = .ok t) :
    t.Clean (openedRoot root) := by
  unfold Trie.new at h
  split at h
  · next hroot =>
    rw [openedRoot, if_neg hroot.1]
    unfold Node.resolveHash at h
    split at h
    · cases h
    · split at h
      · cases h
      · next n hn =>
        cases h
        exact .inr ⟨0, flags_of_decodeNode hn⟩
  · next hroot =>
    cases h
    refine .inl ⟨rfl, ?_⟩
    unfold openedRoot
    split
    · rfl
    · next hz => exact not_not.mp fun hne => hroot ⟨hz, hne⟩

variable {cachegen : UInt16} {depth : ℕ} {key : Nibbles} {n : Node} {fl : NodeFlag} {r : Bool}
  {h : Hash}

/-- Looking a key up in a short node keeps its flags but for the generation. -/
theorem Node.tryGet_short {k : Nibbles} {val : Node}
    (h : Node.tryGet get cachegen (depth + 1) (.short k val fl) key = .ok (v, n, r)) :
    ∃ val' gen, n = .short k val' { fl with gen } := by
  rw [Node.tryGet] at h
  split at h
  · cases hn : Node.tryGet get cachegen depth val (key.drop k.length) with
    | error e =>
      rw [hn] at h
      cases h
    | ok x =>
      rw [hn] at h
      obtain ⟨w, nn, didResolve⟩ := x
      cases didResolve with
      | false =>
        cases h
        exact ⟨val, fl.gen, rfl⟩
      | true =>
        cases h
        exact ⟨nn, cachegen, rfl⟩
  · cases h
    exact ⟨val, fl.gen, rfl⟩

theorem Node.tryGet_full {c : Fin 17 → Node}
    (h : Node.tryGet get cachegen (depth + 1) (.full c fl) key = .ok (v, n, r)) :
    ∃ c' gen, n = .full c' { fl with gen } := by
  cases key with
  | nil => cases h
  | cons a key =>
    rw [Node.tryGet] at h
    cases hn : Node.tryGet get cachegen depth (c a) key with
    | error e =>
      rw [hn] at h
      cases h
    | ok x =>
      rw [hn] at h
      obtain ⟨w, nn, didResolve⟩ := x
      cases didResolve with
      | false =>
        cases h
        exact ⟨c, fl.gen, rfl⟩
      | true =>
        cases h
        exact ⟨_, cachegen, rfl⟩

/-- Looking a key up keeps the root's hash. -/
theorem Clean.tryGet {t' : Trie} {key : Bytes} (ht : t.Clean h)
    (hget : t.tryGet get key = .ok (v, t')) : t'.Clean h := by
  unfold Trie.tryGet at hget
  cases hn : Node.tryGet get t.cachegen (maxDepth key) t.root (keybytesToHex key) with
  | error e =>
    rw [hn] at hget
    cases hget
  | ok x =>
    obtain ⟨w, n, didResolve⟩ := x
    rw [hn] at hget
    cases hget
    cases didResolve with
    | false => exact ht
    | true =>
      obtain ⟨d, hd⟩ := exists_maxDepth key
      rw [hd] at hn
      rcases ht with ⟨hroot, hempty⟩ | ⟨gen, ⟨k, val, hroot⟩ | ⟨c, hroot⟩⟩
      · rw [hroot] at hn
        cases hn
      · rw [hroot] at hn
        obtain ⟨val', gen', rfl⟩ := Node.tryGet_short hn
        exact .inr ⟨gen', .inl ⟨k, val', rfl⟩⟩
      · rw [hroot] at hn
        obtain ⟨c', gen', rfl⟩ := Node.tryGet_full hn
        exact .inr ⟨gen', .inr ⟨c', rfl⟩⟩

/-- A clean node with a cached hash is committed without a walk. -/
theorem reuse_clean (cachegen cachelimit : UInt16) (n : Node) (h : Hash) (gen : UInt16) :
    ∃ n', reuse cachegen cachelimit true n ⟨some h, gen, false⟩ = some ⟨.hash h, n', []⟩ := by
  unfold reuse
  split
  · next h' => cases h'
  · next h' heq =>
    cases heq
    by_cases hu : NodeFlag.canUnload ⟨some h, gen, false⟩ cachegen cachelimit = true
    · exact ⟨.hash h, by simp [hu]⟩
    · exact ⟨n, by simp [hu]⟩

/-- **Committing a clean trie gives its root back** and writes nothing. -/
theorem Clean.commitTo {keccak : HashFn} (ht : t.Clean h) :
    ∃ t', t.commitTo keccak = .ok (h, t', []) := by
  rcases ht with ⟨hroot, rfl⟩ | ⟨gen, hroot⟩
  · refine ⟨{ t with cachegen := t.cachegen + 1 }, ?_⟩
    simp only [Trie.commitTo, hashRoot, hroot]
    rw [← hroot]
    rfl
  · obtain ⟨n', hn'⟩ := reuse_clean t.cachegen t.cachelimit t.root h gen
    refine ⟨{ t with root := n', cachegen := t.cachegen + 1 }, ?_⟩
    rcases hroot with ⟨k, val, hroot⟩ | ⟨c, hroot⟩
    all_goals
      rw [hroot] at hn'
      simp only [Trie.commitTo, hashRoot, hroot, Node.hashWith, hn']
      rfl

end Gocoin.Trie
