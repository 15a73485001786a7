import Gocoin.Machinery.Rlp
import Gocoin.Trie.Encoding

/-!
# Trie/Node — trie nodes and how they are read back

`trie/node.go`.  A node in memory is a branch of seventeen children, a short node, a value, or a
reference by hash to a node that has not been loaded; the first two carry a cached hash, the
generation in which they were loaded or made, and a dirty mark.  `decodeNode` reads a node from its
stored form: a list of two or seventeen values whose subnodes are references or, when they are
smaller than a hash, the subnodes themselves.
-/

namespace Gocoin.Trie

/-- `nodeFlag`. -/
structure NodeFlag where
  hash : Option Hash
  gen : UInt16
  dirty : Bool

/-- `canUnload`: clean and old enough. -/
def NodeFlag.canUnload (fl : NodeFlag) (cachegen cachelimit : UInt16) : Bool :=
  !fl.dirty && decide (cachelimit ≤ cachegen - fl.gen)

/-- The node interface: `nil`, `fullNode`, `shortNode`, `hashNode` and `valueNode`. -/
inductive Node where
  | nil
  | full (children : Fin 17 → Node) (flags : NodeFlag)
  | short (key : Nibbles) (val : Node) (flags : NodeFlag)
  | hash (h : Hash)
  | value (v : Bytes)

/-- Whether a slot of a full node is taken. -/
def Node.nonNil : Node → Bool
  | .nil => false
  | _ => true

/-! ## Reading a stored node -/

/-- The loop of `rlp.CountValues`: skip one value after the other. -/
def countFrom : ℕ → Bytes → Option ℕ
  | _, [] => some 0
  | 0, _ :: _ => none
  | fuel + 1, b :: bs =>
    match Rlp.readKind (b :: bs) with
    | none => none
    | some (_, tagsize, size) =>
      (countFrom fuel ((b :: bs).drop (tagsize + size))).map (· + 1)

/-- `rlp.CountValues`. -/
def countValues (b : Bytes) : Option ℕ := countFrom b.length b

/-- `decodeRef`: an embedded node (at most as long as a hash), no node, or a hash. -/
def decodeRef (decode : Bytes → Option Node) (buf : Bytes) : Option (Node × Bytes) :=
  match Rlp.split buf with
  | none => none
  | some (.list, _, rest) =>
    if buf.length - rest.length > 32 then none
    else (decode buf).map fun n => (n, rest)
  | some (.string, val, rest) =>
    if val.length = 0 then some (.nil, rest)
    else if h : val.length = 32 then some (.hash ⟨val, h⟩, rest)
    else none
  | some (.byte, _, _) => none

/-- The loop of `decodeFull`: `n` references, one after the other. -/
def decodeRefs (decode : Bytes → Option Node) : ℕ → Bytes → Option (List Node × Bytes)
  | 0, elems => some ([], elems)
  | n + 1, elems =>
    match decodeRef decode elems with
    | none => none
    | some (cld, rest) => (decodeRefs decode n rest).map fun r => (cld :: r.1, r.2)

/-- `decodeShort`: behind a key with terminator a value, else a reference. -/
def decodeShort (decode : Bytes → Option Node) (flag : NodeFlag) (elems : Bytes) : Option Node :=
  match Rlp.splitString elems with
  | none => none
  | some (kbuf, rest) =>
    match compactToHex kbuf with
    | none => none
    | some key =>
      if hasTerm key then (Rlp.splitString rest).map fun r => .short key (.value r.1) flag
      else (decodeRef decode rest).map fun r => .short key r.1 flag

/-- `decodeFull`: sixteen references and a value. -/
def decodeFull (decode : Bytes → Option Node) (flag : NodeFlag) (elems : Bytes) : Option Node :=
  match decodeRefs decode 16 elems with
  | none => none
  | some (clds, rest) =>
    (Rlp.splitString rest).map fun r =>
      let last : Node := if r.1.length > 0 then .value r.1 else .nil
      .full (fun i => (clds ++ [last]).getD i.val .nil) flag

/-- The body of `decodeNode`, with the depth of embedding as fuel. -/
def decodeNodeAux (cachegen : UInt16) : ℕ → Option Hash → Bytes → Option Node
  | 0, _, _ => none
  | fuel + 1, hash, buf =>
    if buf.length = 0 then none
    else
      match Rlp.splitList buf with
      | none => none
      | some (elems, _) =>
        let flag : NodeFlag := ⟨hash, cachegen, false⟩
        match countValues elems with
        | some 2 => decodeShort (decodeNodeAux cachegen fuel none) flag elems
        | some 17 => decodeFull (decodeNodeAux cachegen fuel none) flag elems
        | _ => none

/-- `decodeNode`; a failure is an error or an index out of range, and `mustDecodeNode` panics on
both.  Embedding shortens the string, so its length is fuel enough. -/
def decodeNode (hash : Option Hash) (buf : Bytes) (cachegen : UInt16) : Option Node :=
  decodeNodeAux cachegen (buf.length + 1) hash buf

/-- A node read from the database carries the given hash and is clean. -/
theorem flags_of_decodeNode {hash : Option Hash} {buf : Bytes} {cachegen : UInt16} {n : Node}
    (h : decodeNode hash buf cachegen = some n) :
    (∃ k val, n = .short k val ⟨hash, cachegen, false⟩) ∨
      ∃ c, n = .full c ⟨hash, cachegen, false⟩ := by
  unfold decodeNode decodeNodeAux at h
  split at h
  · cases h
  split at h
  · cases h
  split at h
  · unfold decodeShort at h
    split at h
    · cases h
    split at h
    · cases h
    split at h
    all_goals
      rw [Option.map_eq_some_iff] at h
      obtain ⟨r, -, rfl⟩ := h
      exact .inl ⟨_, _, rfl⟩
  · unfold decodeFull at h
    split at h
    · cases h
    rw [Option.map_eq_some_iff] at h
    obtain ⟨r, -, rfl⟩ := h
    exact .inr ⟨_, rfl⟩
  · cases h

end Gocoin.Trie
