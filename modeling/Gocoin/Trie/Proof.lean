import Gocoin.Trie.Sessions

/-!
# Trie/Proof — checking a proof of what a trie holds

`VerifyProof` of `trie/proof.go`.  Whoever checks a proof keeps its strings under their own hashes
(`proofDb`) and follows the hashes from the root; a node for which there is no string ends the check
with an error.  As long as the hash has no collision, what lies under the hash of a node is its
encoding, whoever has sent it.  So from any strings at all the check finds what the trie holds, or
misses a node of the trie (`verifyProof_right`).  There is no proof for the empty trie, whose root
is the hash of no node.
-/

namespace Gocoin.Trie

open Patricia Rlp

/-- `get`: on to the next hash, or to the end.  An index out of range is `none`. -/
def Node.getIn : Node → Nibbles → Option (Nibbles × Node)
  | .short k val _, key => if k <+: key then val.getIn (key.drop k.length) else some ([], .nil)
  | .full _ _, [] => none
  | .full c _, a :: key => (c a).getIn key
  | .hash h, key => some (key, .hash h)
  | .nil, key => some (key, .nil)
  | .value v, _ => some ([], .value v)

/-- What `VerifyProof` says. -/
inductive ProofResult where
  | found (v : Bytes) (nodes : ℕ)
  | absent (nodes : ℕ)
  | missing (i : ℕ) (h : Hash)
  | bad (i : ℕ)
  | panic

/-- The value it returns, `none` when there is no such key. -/
def ProofResult.value : ProofResult → Option (Option Bytes)
  | .found v _ => some (some v)
  | .absent _ => some none
  | _ => none

/-- The switch over what `get` returns, which is no short and no full node. -/
def proofAnswer (next : Hash → Nibbles → Option ProofResult) (i : ℕ) :
    Option (Nibbles × Node) → Option ProofResult
  | some (_, .nil) => some (.absent i)
  | some (keyrest, .hash h) => next h keyrest
  | some (_, .value v) => some (.found v (i + 1))
  | some _ => none
  | none => some .panic

/-- The loop of `VerifyProof`; without fuel it is still running. -/
def verifyFrom (proofDb : Nodes) : ℕ → ℕ → Hash → Nibbles → Option ProofResult
  | 0, _, _, _ => none
  | fuel + 1, i, wantHash, key =>
    match proofDb wantHash with
    | none => some (.missing i wantHash)
    | some buf =>
      match decodeNode (some wantHash) buf 0 with
      | none => some (.bad i)
      | some n => proofAnswer (verifyFrom proofDb fuel (i + 1)) i (n.getIn key)

/-- `VerifyProof`. -/
def verifyProof (proofDb : Nodes) (fuel : ℕ) (rootHash : Hash) (key : Bytes) :
    Option ProofResult := verifyFrom proofDb fuel 0 rootHash (keybytesToHex key)

section

variable (keccak : HashFn)

/-- The strings of a proof, each under its own hash. -/
def proofDb (es : List Bytes) (h : Hash) : Option Bytes := es.find? fun e => keccak e = h

/-- From a node on, `VerifyProof` comes to what its tree holds, or there is no string for a node of
the database. -/
def Node.Verifies (get : Nodes) (es : List Bytes) (t : PTree) (key : Nibbles)
    (depth : ℕ) (_ : Bool) (n : Node) : Prop :=
  ∀ fuel i j, depth ≤ fuel →
    ∃ x, proofAnswer (verifyFrom (proofDb keccak es) fuel j) i (n.getIn key) = some x ∧
      (x.value = some (t.get key) ∨ ∃ i e, x = .missing i (keccak e) ∧
        get (keccak e) = some e ∧ ∀ e' ∈ es, keccak e' ≠ keccak e)

end

variable {keccak : HashFn} {get : Nodes} {es : List Bytes}

/-- A node that is read under a hash stands for a tree whose encoding the database has there. -/
theorem exists_resolved {x : Hash} {n : Node} {t : PTree} {top : Bool}
    (hn : Node.resolveHash get 0 x = .ok n) (hr : Rep keccak get top n t) :
    ∃ e, x = keccak e ∧ get (keccak e) = some e ∧ decodeNode (some x) e 0 = some n := by
  cases hget : get x with
  | none => simp [Node.resolveHash, hget] at hn
  | some e =>
    cases hdec : decodeNode (some x) e 0 with
    | none => simp [Node.resolveHash, hget, hdec] at hn
    | some n' =>
      obtain rfl : n' = n := by simpa [Node.resolveHash, hget, hdec] using hn
      obtain ⟨hx, hin⟩ : x = keccak (enc keccak t) ∧ InDb keccak get t := by
        obtain ⟨k, val, rfl⟩ | ⟨c, rfl⟩ := flags_of_decodeNode hdec
        all_goals cases hr; exact ⟨FlagOk.hash ‹_› x rfl, (FlagOk.clean ‹_› x rfl rfl).1⟩
      obtain rfl : e = enc keccak t := Option.some.inj (hget.symm.trans (hx ▸ hin))
      exact ⟨_, hx, hin, hdec⟩

/-- **The way of `VerifyProof`** to a key. -/
theorem Node.descends_verify
    (hfree : Set.InjOn keccak ({e | e ∈ es} ∪ {e | get (keccak e) = some e})) :
    Descends keccak get 0 (Verifies keccak get es) where
  hash {t key depth top x n} _ hn hr h := fun fuel i j hfuel => by
    obtain ⟨fuel, rfl⟩ : ∃ f, fuel = f + 1 := ⟨fuel - 1, by omega⟩
    obtain ⟨e, rfl, hget, hdec⟩ := exists_resolved hn hr
    show ∃ x, verifyFrom (proofDb keccak es) (fuel + 1) j (keccak e) key = some x ∧ _
    rw [verifyFrom]
    cases hfind : proofDb keccak es (keccak e) with
    | none => exact ⟨_, rfl, .inr ⟨j, e, rfl, hget, by simpa [proofDb] using hfind⟩⟩
    | some buf =>
      obtain rfl : buf = e := hfree (.inl (List.mem_of_find?_eq_some hfind)) (.inr hget)
        (by simpa using List.find?_some hfind)
      simp only [hdec]
      exact h fuel j (j + 1) (by omega)
  here _ _ _ := fun _ _ _ _ => ⟨_, rfl, .inl rfl⟩
  absent _ _ _ := fun _ _ _ _ => ⟨_, rfl, .inl rfl⟩
  leaf {k _ _ _} _ _ _ := fun _ _ _ _ => by
    rw [getIn, if_pos (List.prefix_refl k), List.drop_length, Tree.get_short_self]
    exact ⟨_, rfl, .inl rfl⟩
  ext {k _ key _ _ _ _} _ _ _ _ _ h := fun fuel i j hfuel => by
    rw [getIn, if_pos (List.prefix_append k key), List.drop_left, Tree.get_short_append]
    exact h fuel i j (by omega)
  branch _ hab _ _ := fun _ _ _ _ => by
    rw [getIn, if_neg (not_prefix_of_ne hab), Tree.get_short_of_forall_ne (not_prefix_of_ne hab)]
    exact ⟨_, rfl, .inl rfl⟩
  full _ _ _ _ _ h := fun fuel i j hfuel => h fuel i j (by omega)

/-- **A proof that verifies is right.**  Let contents be stored at a root.  From whatever strings,
`VerifyProof` tells what the contents have under the key, or misses a stored node; from all stored
nodes, the former.  The hash is assumed to have no collision on the strings and the stored nodes. -/
theorem verifyProof_right {db : Db} {root : Hash} {m : ByteMap}
    (hm : KeptAt keccak db.nodes root m) (hne : m ≠ fun _ => none) (es : List Bytes)
    (hfree : Set.InjOn keccak ({e | e ∈ es} ∪ storedNodes keccak db)) (key : Bytes) {fuel : ℕ}
    (hfuel : maxDepth key ≤ fuel) :
    ∃ x, verifyProof (proofDb keccak es) fuel root key = some x ∧
      (x.value = some (m key) ∨ ∃ i, ∃ e ∈ storedNodes keccak db, x = .missing i (keccak e) ∧
        ∀ e' ∈ es, keccak e' ≠ keccak e) ∧
      ((∀ e ∈ storedNodes keccak db, e ∈ es) → x.value = some (m key)) := by
  obtain ⟨tree, hcar, ⟨rfl, -⟩ | ⟨hw, hroot, -, -, hdb, hheld⟩⟩ := hm
  · exact absurd (funext fun k => (hcar.along.get_path k).symm) hne
  have hr : Rep keccak db.nodes true (Trie.mk (.hash (keccak (enc keccak tree))) 0 0).root tree :=
    .hash (isNode_of_wf hw) (fun h => Bool.noConfusion h) hdb hheld
  obtain ⟨x, hx, hor⟩ :=
    hr.descend (.inr hw) hcar.keysLE (Node.descends_verify hfree) key fuel 0 0 hfuel
  rw [hcar.along.get_path] at hor
  rw [hroot]
  refine ⟨x, hx, hor.imp_right fun ⟨i, e, hx, he, hno⟩ => ⟨i, e, he, hx, hno⟩, fun hall => ?_⟩
  refine hor.resolve_right ?_
  rintro ⟨i, e, -, he, hno⟩
  exact hno e (hall e he) rfl

/-- The strings that the sample calls have written prove the long value. -/
theorem verifyProof_right_sample : ∃ s x,
    Session.sample.run Sample.keccak Session.sampleCalls = (s, none) ∧
      verifyProof (proofDb Sample.keccak s.written) (maxDepth [1, 3]) s.committed [1, 3] = some x ∧
      x.value = some (some (List.replicate 40 8)) := by
  obtain ⟨s, hrun, hholds⟩ := Session.exists_run
    (keptAt_empty Db.empty.nodes (.inl rfl))
    (show Session.start _ 0 _ = .ok Session.sample from rfl)
    (by decide) Session.collisionFree_sampleCalls
  have hwritten : {e | e ∈ s.written} ⊆
      Session.sample.data Sample.keccak Session.sampleCalls := fun e he =>
    .inr (by rw [hrun]; exact he)
  have hstored : ∀ e ∈ storedNodes Sample.keccak s.db, e ∈ s.written := fun e he => by
    obtain hnone | hmem := hholds.stored he
    · cases hnone
    · rwa [Set.mem_ofPred_eq, hrun] at hmem
  obtain ⟨x, hx, -, hall⟩ := verifyProof_right hholds.saved
    (fun h => absurd (congrFun h [1, 3]) (by decide)) s.written
    (Session.collisionFree_sampleCalls.injOn.mono (Set.union_subset hwritten hholds.stored)) [1, 3]
    le_rfl
  exact ⟨s, x, hrun, hx, hall hstored⟩

end Gocoin.Trie
