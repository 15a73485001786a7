import Mathlib.Data.List.AList
import Gocoin.Trie.Hasher

/-!
# Trie/SecureTrie — tries with hashed keys

`trie/secure_trie.go`: the keys are hashed before they enter the trie, and the preimages of the
keys that were updated are written, on commit, under `secure-key-` and the hash.
-/

namespace Gocoin

/-- `SecureTrie`; the cache maps the hash of an updated key to the key. -/
structure SecureTrie where
  trie : Trie
  secKeyCache : AList (fun _ : Hash => Bytes)

namespace SecureTrie

open Trie

/-- `secureKeyPrefix`, the bytes of `secure-key-`. -/
def secureKeyPrefix : Bytes := [0x73, 0x65, 0x63, 0x75, 0x72, 0x65, 0x2d, 0x6b, 0x65, 0x79, 0x2d]

/-- `secKey`. -/
def secKey (h : Hash) : Bytes := secureKeyPrefix ++ h.bytes

section

variable (keccak : HashFn) (get : Nodes)

/-- `NewSecure`. -/
def newSecure (root : Hash) (cachelimit : UInt16) : Except TrieErr SecureTrie := do
  let t ← Trie.new get cachelimit root
  .ok ⟨t, ∅⟩

/-- `TryGet`. -/
def tryGet (t : SecureTrie) (key : Bytes) : Except TrieErr (Bytes × SecureTrie) := do
  let (v, trie) ← t.trie.tryGet get (keccak key).bytes
  .ok (v, { t with trie })

/-- `TryUpdate`. -/
def tryUpdate (t : SecureTrie) (key value : Bytes) : Except TrieErr SecureTrie := do
  let trie ← t.trie.tryUpdate get (keccak key).bytes value
  .ok ⟨trie, t.secKeyCache.insert (keccak key) key⟩

/-- `TryDelete`; the preimage is dropped even when the deletion fails. -/
def tryDelete (t : SecureTrie) (key : Bytes) : SecureTrie × Except TrieErr Unit :=
  let cache := t.secKeyCache.erase (keccak key)
  match t.trie.tryDelete get (keccak key).bytes with
  | .ok trie => (⟨trie, cache⟩, .ok ())
  | .error e => ({ t with secKeyCache := cache }, .error e)

/-- `Hash`. -/
def hash (t : SecureTrie) : Except TrieErr (Hash × SecureTrie) := do
  let (h, trie) ← t.trie.hash keccak
  .ok (h, { t with trie })

/-- `CommitTo`: the root, the trie, and the writes — preimages first, then nodes. -/
def commitTo (t : SecureTrie) : Except TrieErr (Hash × SecureTrie × List (Bytes × Bytes)) := do
  let (h, trie, ws) ← t.trie.commitTo keccak
  .ok (h, ⟨trie, ∅⟩,
    t.secKeyCache.entries.map (fun e => (secKey e.1, e.2)) ++ ws.map (fun w => (w.1.bytes, w.2)))

end

end SecureTrie

end Gocoin
