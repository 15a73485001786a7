import Gocoin.Trie.Node

/-!
# Trie/Trie — lookup, insertion and deletion

`trie/trie.go`.  The operations walk the loaded part of the trie, load the nodes they meet behind a
hash (`resolveHash`) and return the changed path.  A missing database entry is an error the callers
see; a stored value that is no node, and an operation on a node of the wrong kind, is a panic.  The
recursion goes down at most two calls for each nibble of the key, one of them to load a node; one
that goes on beyond that (`maxDepth`) follows a cycle in the database until the stack of the
goroutine overflows, which is a panic too.
-/

namespace Gocoin

open Patricia

/-- `Trie`, without its database. -/
structure Trie where
  root : Trie.Node
  cachegen : UInt16
  cachelimit : UInt16

namespace Trie

/-- How a trie operation fails: a node that is not in the database, or a crash. -/
inductive TrieErr where
  | missing (h : Hash)
  | panic
  deriving DecidableEq

/-- A depth of recursion that no walk along the key reaches, except in a cycle. -/
def maxDepth (key : Bytes) : ℕ := 2 ^ 20 + 4 * key.length

theorem exists_maxDepth (key : Bytes) : ∃ d, maxDepth key = d + 1 :=
  Nat.exists_eq_succ_of_ne_zero (Nat.add_pos_left (Nat.two_pow_pos 20) _).ne'

/-- `newFlag`. -/
def newFlag (cachegen : UInt16) : NodeFlag := ⟨none, cachegen, true⟩

namespace Node

variable (get : Nodes) (cachegen : UInt16)

/-- `resolveHash`. -/
def resolveHash (h : Hash) : Except TrieErr Node :=
  match get h with
  | none => .error (.missing h)
  | some enc =>
    match decodeNode (some h) enc cachegen with
    | none => .error .panic
    | some n => .ok n

/-- `resolve`. -/
def resolve : Node → Except TrieErr Node
  | .hash h => resolveHash get cachegen h
  | n => .ok n

/-- `tryGet`: the value, the node with what has been loaded, and whether anything was. -/
def tryGet : ℕ → Node → Nibbles → Except TrieErr (Bytes × Node × Bool)
  | 0, _, _ => .error .panic
  | _ + 1, .nil, _ => .ok ([], .nil, false)
  | _ + 1, .value v, _ => .ok (v, .value v, false)
  | depth + 1, .short k val fl, key =>
    if k <+: key then do
      let (v, nn, didResolve) ← tryGet depth val (key.drop k.length)
      if didResolve then .ok (v, .short k nn { fl with gen := cachegen }, true)
      else .ok (v, .short k val fl, false)
    else .ok ([], .short k val fl, false)
  | _ + 1, .full _ _, [] => .error .panic
  | depth + 1, .full c fl, a :: key => do
    let (v, nn, didResolve) ← tryGet depth (c a) key
    if didResolve then .ok (v, .full (Function.update c a nn) { fl with gen := cachegen }, true)
    else .ok (v, .full c fl, false)
  | depth + 1, .hash h, key => do
    let child ← resolveHash get cachegen h
    let (v, nn, _) ← tryGet depth child key
    .ok (v, nn, true)

/-- `insert` into the empty node: nothing to skip, or a short node. -/
def insertNil (key : Nibbles) (nv : Node) : Node :=
  if key = [] then nv else .short key nv (newFlag cachegen)

/-- `insert` with the key used up: the value replaces whatever is there. -/
def insertHere (n nv : Node) : Except TrieErr (Bool × Node) :=
  match n, nv with
  | .value v, .value w => .ok (decide (v ≠ w), nv)
  | .value _, _ => .error .panic
  | _, _ => .ok (true, nv)

/-- The branch `insert` makes where the key leaves the key of a short node. -/
def insertBranch (k : Nibbles) (val : Node) (key : Nibbles) (nv : Node) (matchlen : ℕ) :
    Except TrieErr (Bool × Node) :=
  match k.drop matchlen, key.drop matchlen with
  | b :: y, a :: x =>
    let children := Function.update
      (Function.update (fun _ => Node.nil) b (insertNil cachegen y val)) a
      (insertNil cachegen x nv)
    let branch : Node := .full children (newFlag cachegen)
    if matchlen = 0 then .ok (true, branch)
    else .ok (true, .short (key.take matchlen) branch (newFlag cachegen))
  | _, _ => .error .panic

/-- `insert`: whether the node changed, and the new node. -/
def insert : ℕ → Node → Nibbles → Node → Except TrieErr (Bool × Node)
  | 0, _, _, _ => .error .panic
  | _ + 1, n, [], nv => insertHere n nv
  | depth + 1, .short k val fl, a :: key, nv =>
    let matchlen := prefixLen (a :: key) k
    if matchlen = k.length then do
      let (dirty, nn) ← insert depth val ((a :: key).drop matchlen) nv
      if dirty then .ok (true, .short k nn (newFlag cachegen)) else .ok (false, .short k val fl)
    else insertBranch cachegen k val (a :: key) nv matchlen
  | depth + 1, .full c fl, a :: key, nv => do
    let (dirty, nn) ← insert depth (c a) key nv
    if dirty then .ok (true, .full (Function.update c a nn) (newFlag cachegen))
    else .ok (false, .full c fl)
  | _ + 1, .nil, a :: key, nv => .ok (true, .short (a :: key) nv (newFlag cachegen))
  | depth + 1, .hash h, a :: key, nv => do
    let rn ← resolveHash get cachegen h
    let (dirty, nn) ← insert depth rn (a :: key) nv
    if dirty then .ok (true, nn) else .ok (false, rn)
  | _ + 1, .value _, _ :: _, _ => .error .panic

/-- The end of `delete` at a full node: with one child left it becomes a short node, which merges
with the child when that is a short node itself. -/
def reduceFull (c : Fin 17 → Node) : Except TrieErr (Bool × Node) :=
  match (List.finRange 17).filter (fun i => (c i).nonNil) with
  | [pos] =>
    if pos = term then .ok (true, .short [pos] (c pos) (newFlag cachegen))
    else do
      let cnode ← resolve get cachegen (c pos)
      match cnode with
      | .short k val _ => .ok (true, .short (pos :: k) val (newFlag cachegen))
      | _ => .ok (true, .short [pos] (c pos) (newFlag cachegen))
  | _ => .ok (true, .full c (newFlag cachegen))

/-- `delete`: whether the node changed, and the new node. -/
def delete : ℕ → Node → Nibbles → Except TrieErr (Bool × Node)
  | 0, _, _ => .error .panic
  | depth + 1, .short k val fl, key =>
    let matchlen := prefixLen key k
    if matchlen < k.length then .ok (false, .short k val fl)
    else if matchlen = key.length then .ok (true, .nil)
    else do
      let (dirty, child) ← delete depth val (key.drop k.length)
      if dirty then
        match child with
        | .short k' val' _ => .ok (true, .short (k ++ k') val' (newFlag cachegen))
        | child => .ok (true, .short k child (newFlag cachegen))
      else .ok (false, .short k val fl)
  | _ + 1, .full _ _, [] => .error .panic
  | depth + 1, .full c fl, a :: key => do
    let (dirty, nn) ← delete depth (c a) key
    if dirty then reduceFull get cachegen (Function.update c a nn) else .ok (false, .full c fl)
  | _ + 1, .value _, _ => .ok (true, .nil)
  | _ + 1, .nil, _ => .ok (false, .nil)
  | depth + 1, .hash h, key => do
    let rn ← resolveHash get cachegen h
    let (dirty, nn) ← delete depth rn key
    if dirty then .ok (true, nn) else .ok (false, rn)

end Node

/-! ## The operations on a trie -/

variable (get : Nodes)

/-- `TryGet`: the value (empty when there is none) and the trie with what has been loaded. -/
def tryGet (t : Trie) (key : Bytes) : Except TrieErr (Bytes × Trie) := do
  let (v, newroot, didResolve) ←
    Node.tryGet get t.cachegen (maxDepth key) t.root (keybytesToHex key)
  .ok (v, if didResolve then { t with root := newroot } else t)

/-- `TryDelete`. -/
def tryDelete (t : Trie) (key : Bytes) : Except TrieErr Trie := do
  let (_, n) ← Node.delete get t.cachegen (maxDepth key) t.root (keybytesToHex key)
  .ok { t with root := n }

/-- `TryUpdate`: the empty value deletes. -/
def tryUpdate (t : Trie) (key value : Bytes) : Except TrieErr Trie :=
  if value.length ≠ 0 then do
    let (_, n) ← Node.insert get t.cachegen (maxDepth key) t.root (keybytesToHex key) (.value value)
    .ok { t with root := n }
  else t.tryDelete get key

end Trie

end Gocoin
