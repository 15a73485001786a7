import Gocoin.Space.Genesis
import Gocoin.Space.Frame

/-!
# Space/Overwrite — trie nodes under a group's key

Trie nodes and the members of the consensus group lie under raw hashes in one database.  Processing
an epoch block writes the threshold members, sorted by time, under the hash that the block's header
names and under the hash of the list (`groupWrites`); everything else it writes or deletes is under
keys of another length.  A stored trie survives exactly when neither of the two hashes is one of its
nodes (`process_keeps_trie_iff`), and the header may name any hash.
-/

namespace Gocoin

open State Trie ValidateGroup

/-! ## The nodes of a stored trie -/

namespace Trie

/-- The hashes that a decoded node refers to. -/
inductive Node.Refers : Node → Hash → Prop
  | hash (h : Hash) : Refers (.hash h) h
  | short {k : Nibbles} {n : Node} {fl : NodeFlag} {h : Hash} (hn : Refers n h) :
      Refers (.short k n fl) h
  | full {c : Fin 17 → Node} {fl : NodeFlag} {h : Hash} (i : Fin 17) (hc : Refers (c i) h) :
      Refers (.full c fl) h

/-- The nodes of the trie at a root, by their hashes: the root, unless it stands for the empty trie,
and whatever a stored node refers to. -/
inductive NodeOf (get : Nodes) (root : Hash) : Hash → Prop
  | root (hzero : root ≠ FixedBytes.zero 32) (hempty : root ≠ emptyRoot) : NodeOf get root root
  | child {h h' : Hash} {buf : Bytes} {n : Node} (hh : NodeOf get root h) (hbuf : get h = some buf)
      (hn : decodeNode (some h) buf 0 = some n) (hr : n.Refers h') : NodeOf get root h'

/-- Every node of the trie at the root is stored. -/
def FullyStored (get : Nodes) (root : Hash) : Prop :=
  ∀ h, NodeOf get root h → ∃ buf n, get h = some buf ∧ decodeNode (some h) buf 0 = some n

end Trie

namespace Space

/-! ## What an epoch writes under raw hashes -/

/-- The nodes of the second store are those of the first with the entries written over them. -/
structure Overwrites (ws : List (Hash × Bytes)) (db db' : Db) : Prop where
  mem : ∀ w ∈ ws, db'.nodes w.1 = some w.2
  off : ∀ h, (∀ w ∈ ws, w.1 ≠ h) → db'.nodes h = db.nodes h

variable {db db' : Db} {ws : List (Hash × Bytes)} {env env' : Surroundings}
  {evs : List CreatethresholdEvent}

theorem overwrites_nil (h : db'.nodes = db.nodes) : Overwrites [] db db' :=
  ⟨nofun, fun x _ => by rw [h]⟩

theorem Overwrites.congr {db₁ db₂ db₃ db₄ : Db} (h : Overwrites ws db₂ db₃)
    (h₁ : db₂.nodes = db₁.nodes) (h₂ : db₄.nodes = db₃.nodes) :
    Overwrites ws db₁ db₄ :=
  ⟨fun w hw => by rw [h₂, h.mem w hw], fun x hx => by rw [h₂, h.off x hx, h₁]⟩

theorem Overwrites.of_subset {ws' : List (Hash × Bytes)} (h : Overwrites ws db db')
    (hsub : ws' ⊆ ws) (hsub' : ws ⊆ ws') : Overwrites ws' db db' :=
  ⟨fun w hw => h.mem w (hsub hw), fun x hx => h.off x fun w hw => hx w (hsub' hw)⟩

theorem nodes_eq_of_sameOff {T : Set Bytes} (h : db.SameOff T db')
    (hT : T ⊆ groupKeys ∪ reportKeys) :
    db'.nodes = db.nodes :=
  funext fun x => h x.bytes fun hx => notMem_of_hash x (hT hx)

/-- The raw writes of a list of members. -/
def membersWrites (hashes : List Hash) (ms : List GroupMember) : List (Hash × Bytes) :=
  match membersItem ms with
  | none => []
  | some it => hashes.map fun h => (h, Rlp.encode it)

theorem overwrites_writeGroupConst (db : Db) (hash : Hash) (ms : List GroupMember) :
    Overwrites (membersWrites [hash] ms) db (writeGroupConst db hash ms) := by
  unfold membersWrites writeGroupConst writeMembers
  cases membersItem ms with
  | none => exact overwrites_nil rfl
  | some it =>
    refine ⟨fun w hw => ?_, fun h hh => ?_⟩
    · rw [List.mem_singleton.mp hw]
      exact Db.get_put_self ..
    · have hne : hash ≠ h := hh (hash, Rlp.encode it) (by simp)
      exact Db.get_put_of_ne db (fun he => hne (FixedBytes.ext_bytes he).symm) _

/-- Two raw writes of the same list. -/
theorem Overwrites.cons {hashes : List Hash} {ms : List GroupMember} (hash : Hash)
    (h : Overwrites (membersWrites hashes ms) db db') :
    Overwrites (membersWrites (hash :: hashes) ms) db (writeGroupConst db' hash ms) := by
  have hw := overwrites_writeGroupConst db' hash ms
  unfold membersWrites at h hw ⊢
  cases hit : membersItem ms with
  | none =>
    rw [hit] at h hw
    exact ⟨nofun, fun x hx => (hw.off x nofun).trans (h.off x nofun)⟩
  | some it =>
    rw [hit] at h hw
    simp only [List.map_cons, List.map_nil] at h hw ⊢
    refine ⟨fun w hmem => ?_, fun x hx => ?_⟩
    · by_cases he : w.1 = hash
      · have hval : w.2 = Rlp.encode it := by
          rcases List.mem_cons.mp hmem with rfl | hmem
          · rfl
          · obtain ⟨_, -, rfl⟩ := List.mem_map.mp hmem
            rfl
        rw [he, hval]
        exact hw.mem _ (List.mem_singleton_self _)
      · rcases List.mem_cons.mp hmem with rfl | hmem
        · exact absurd rfl he
        · rw [hw.off w.1 fun w' hw' => by rw [List.mem_singleton.mp hw']; exact Ne.symm he]
          exact h.mem w hmem
    · rw [hw.off x fun w' hw' =>
        hx w' (by rw [List.mem_singleton.mp hw']; exact List.mem_cons_self),
        h.off x fun w' hw' => hx w' (List.mem_cons_of_mem _ hw')]

variable (P : Prims)

/-- **What processing a block writes under raw hashes**: at an epoch, when the consensus group has
three threshold members, these sorted by time, under the hash the header names and under the hash of
the list. -/
def groupWrites (bc : BlockChain) (b : Block) : List (Hash × Bytes) :=
  if b.numberU64 % BlockChain.epoch = 0 ∧ b.numberU64 ≠ 0 then
    match bc.validateGroup with
    | none => []
    | some vg =>
      let members := P.sortByTime vg.space.thresholdgroupmembers
      if 3 ≤ vg.space.thresholdgroupmembers.length then
        membersWrites [rlpHash P.keccak (membersItem members), b.header.consensusGroupHash] members
      else []
  else []

theorem overwrites_reset (vg : ValidateGroup) (db : Db) (hash : Hash) :
    Overwrites
      (if 3 ≤ vg.space.thresholdgroupmembers.length then
        membersWrites [rlpHash P.keccak
            (membersItem (P.sortByTime vg.space.thresholdgroupmembers)), hash]
          (P.sortByTime vg.space.thresholdgroupmembers)
      else []) db (vg.reset P db hash).2 := by
  have hoff := MemberGroup.reset_sameOff thresholdMembersKey groupMembersKey (T := groupKeys)
    (by simp [groupKeys]) (by simp [groupKeys]) P.sortByTime vg.space db
  have hnodes := nodes_eq_of_sameOff hoff Set.subset_union_left
  unfold ValidateGroup.reset
  simp only [MemberGroup.groupmembers_reset, MemberGroup.updateValidate_reset, decide_eq_true_eq]
  split
  · next hlen =>
    have hone := (overwrites_writeGroupConst
      (vg.space.reset P.sortByTime db thresholdMembersKey groupMembersKey).2.2 hash
      (P.sortByTime vg.space.thresholdgroupmembers)).congr hnodes rfl
    split
    · next htmp =>
      rw [htmp]
      refine hone.of_subset ?_ ?_ <;> unfold membersWrites <;> split <;> simp
    · exact hone.cons _
  · exact overwrites_nil hnodes

/-- The consensus group without its applicants. -/
def standing (vg : ValidateGroup) : MemberGroup :=
  { vg.space with newgroupmembers := [], membersAddress := [] }

/-- Executing transactions leaves the group alone, its applicants apart. -/
theorem standing_sideEffect (env : Surroundings) (tx : Tx) :
    (sideEffect P env tx).validateGroup.map standing = env.validateGroup.map standing := by
  have henter : ∀ f : ValidateGroup → Db → GroupMember → ValidateGroup × Db,
      (∀ vg db m, standing (f vg db m).1 = standing vg) →
      (env.enter P tx f).validateGroup.map standing = env.validateGroup.map standing := by
    intro f hf
    unfold Surroundings.enter
    split
    · rfl
    · next vg hvg => rw [hvg, Option.map_some, Option.map_some, hf]
  unfold sideEffect
  split
  · exact henter _ fun _ _ _ => rfl
  · exact henter _ fun _ _ _ => rfl
  · exact henter _ fun _ _ _ => rfl
  · exact henter _ fun _ _ _ => rfl
  · split <;> rfl
  · rfl

theorem standing_applyAll {acc acc' : Totals} {txs : List Tx}
    (h : applyAll P env acc txs = some (env', acc')) :
    env'.validateGroup.map standing = env.validateGroup.map standing :=
  applyAll_keeps P h (I := fun e => e.validateGroup.map standing = env.validateGroup.map standing)
    (fun e tx he => (standing_sideEffect P e tx).trans he) rfl

theorem overwrites_resetGroups {hash : Hash} {number : UInt64} {vg : ValidateGroup}
    (hvg : env.validateGroup = some vg)
    (h : BlockChain.resetGroups P env hash number = some (env', evs)) :
    Overwrites
      (if 3 ≤ vg.space.thresholdgroupmembers.length then
        membersWrites [rlpHash P.keccak
            (membersItem (P.sortByTime vg.space.thresholdgroupmembers)), hash]
          (P.sortByTime vg.space.thresholdgroupmembers)
      else []) env.db env'.db := by
  simp only [BlockChain.resetGroups, hvg, bind_eq_some, Option.some.injEq, Prod.mk.injEq] at h
  obtain ⟨_, -, _, -, _, -, rfl, -⟩ := h
  refine (overwrites_reset P vg env.db hash).congr rfl ?_
  exact (nodes_eq_of_sameOff (resetTxGroup_sameOff P _ _) Set.subset_union_left).trans
    (nodes_eq_of_sameOff (resetCoinGroup_sameOff P _ _) Set.subset_union_left)

/-- **Processing a block writes exactly these entries under raw hashes.** -/
theorem overwrites_process {bc : BlockChain} {b : Block} {s s' : StateDB}
    (h : BlockChain.process P bc b s = some (env, s', evs)) :
    Overwrites (groupWrites P bc b) bc.db env.db := by
  obtain ⟨env₁, acc, happly, -, h⟩ := process_cases P h
  have hnodes : env₁.db.nodes = bc.db.nodes :=
    nodes_eq_of_sameOff (applyAll_sameOff P happly) subset_rfl
  have hstanding : env₁.validateGroup.map standing = bc.validateGroup.map standing :=
    standing_applyAll P happly
  unfold groupWrites
  obtain ⟨hepoch, rfl, -⟩ | ⟨hepoch, hreset⟩ := h
  · rw [if_neg hepoch]
    exact overwrites_nil hnodes
  · rw [if_pos hepoch]
    cases hvg : env₁.validateGroup with
    | none =>
      rw [hvg, Option.map_none, eq_comm, Option.map_eq_none_iff] at hstanding
      simp only [BlockChain.resetGroups, hvg, Option.some.injEq, Prod.mk.injEq] at hreset
      rw [hstanding, ← hreset.1]
      exact overwrites_nil hnodes
    | some vg₁ =>
      rw [hvg, Option.map_some, eq_comm, Option.map_eq_some_iff] at hstanding
      obtain ⟨vg, hvg₀, hms⟩ := hstanding
      replace hms := congrArg MemberGroup.thresholdgroupmembers hms
      simp only [standing] at hms
      rw [hvg₀]
      simp only [hms]
      exact (overwrites_resetGroups P hvg hreset).congr hnodes rfl

/-- **A stored trie survives the processing of a block** — every node of it is still stored with the
same bytes — exactly when no group entry is written over one of its nodes with other bytes. -/
theorem process_keeps_trie_iff {bc : BlockChain} {b : Block} {s s' : StateDB} {env : Surroundings}
    {evs : List CreatethresholdEvent} (h : BlockChain.process P bc b s = some (env, s', evs))
    (root : Hash) :
    (∀ x, NodeOf bc.db.nodes root x → env.db.nodes x = bc.db.nodes x) ↔
      ∀ w ∈ groupWrites P bc b, NodeOf bc.db.nodes root w.1 → bc.db.nodes w.1 = some w.2 := by
  have hw := overwrites_process P h
  constructor
  · intro hkeeps w hmem hnode
    rw [← hkeeps w.1 hnode, hw.mem w hmem]
  · intro hsame x hnode
    by_cases hx : ∃ w ∈ groupWrites P bc b, w.1 = x
    · obtain ⟨w, hmem, rfl⟩ := hx
      rw [hw.mem w hmem, hsame w hmem hnode]
    · exact hw.off x fun w hmem he => hx ⟨w, hmem, he⟩

/-! ## An epoch that destroys the state -/

end Space

namespace Trie

/-- A leaf refers to nothing. -/
def Node.isLeaf : Node → Bool
  | .short _ (.value _) _ => true
  | _ => false

theorem Node.not_refers_of_isLeaf {n : Node} (h : n.isLeaf = true) (x : Hash) : ¬ n.Refers x := by
  unfold Node.isLeaf at h
  split at h
  · rintro (_ | ⟨⟨⟩⟩)
  · cases h

/-- A trie whose root is a stored leaf is stored. -/
theorem fullyStored_of_isLeaf {get : Nodes} {root : Hash}
    (h : ∃ buf ∈ get root, ∃ n ∈ decodeNode (some root) buf 0, n.isLeaf = true) :
    FullyStored get root := by
  obtain ⟨buf, hbuf, n, hn, hleaf⟩ := h
  intro x hx
  have hroot : x = root := by
    induction hx with
    | root => rfl
    | child _ hbuf' hn' hr ih =>
      subst ih
      rw [hbuf, Option.some.injEq] at hbuf'
      subst hbuf'
      rw [hn, Option.some.injEq] at hn'
      subst hn'
      exact absurd hr (Node.not_refers_of_isLeaf hleaf _)
  rw [hroot]
  exact ⟨buf, n, hbuf, hn⟩

end Trie

namespace Sample

/-- An application for the consensus group, each of another sender at another time. -/
def application (i : UInt8) : Tx := ⟨0, none, 0, i.toUInt64, [8], 27, 1, i.toNat⟩

/-- An epoch block with three applications. -/
def epochBlock (head : Block) : Block :=
  let b := child head 1 [application 1, application 2, application 3]
  { b with header := { b.header with number := 3 } }

/-- The next epoch block; its header names the head's root as the hash of the group. -/
def nextEpochBlock (head : Block) : Block :=
  let b := child head 1 []
  { b with header := { b.header with number := 6, consensusGroupHash := head.header.spaceRoot } }

end Sample

namespace Space

open Sample (prims epochBlock nextEpochBlock)

/-- The law applies to the first epoch block. -/
theorem process_keeps_trie_iff_epochBlock :
    ∃ bc ∈ Sample.chain,
    ∃ s ∈ (stateAt bc.db bc.currentBlock).toOption,
    ∃ r ∈ BlockChain.process prims bc (epochBlock bc.currentBlock) s,
      (∀ x, NodeOf bc.db.nodes bc.currentBlock.header.spaceRoot x →
          r.1.db.nodes x = bc.db.nodes x) ↔
        ∀ w ∈ groupWrites prims bc (epochBlock bc.currentBlock),
          NodeOf bc.db.nodes bc.currentBlock.header.spaceRoot w.1 → bc.db.nodes w.1 = some w.2 := by
  have hrun : ∃ bc ∈ Sample.chain, ∃ s ∈ (stateAt bc.db bc.currentBlock).toOption,
      (BlockChain.process prims bc (epochBlock bc.currentBlock) s).isSome := by
    decide +kernel
  obtain ⟨bc, hbc, s, hs, hsome⟩ := hrun
  obtain ⟨⟨env, s', evs⟩, hr⟩ := Option.isSome_iff_exists.mp hsome
  exact ⟨bc, hbc, s, hs, _, hr, process_keeps_trie_iff prims hr _⟩

/-- Two epochs after genesis the members of the group lie where the root of the spaces was. -/
theorem epoch_overwrites_root :
    ∃ bc₀ ∈ Sample.chain,
    ∃ r ∈ BlockChain.insert prims .plain bc₀ (epochBlock bc₀.currentBlock),
    ∃ s ∈ (stateAt r.1.db r.1.currentBlock).toOption,
    ∃ r' ∈ BlockChain.process prims r.1 (nextEpochBlock r.1.currentBlock) s,
      FullyStored r.1.db.nodes r.1.currentBlock.header.spaceRoot ∧
      NodeOf r.1.db.nodes r.1.currentBlock.header.spaceRoot r.1.currentBlock.header.spaceRoot ∧
      r'.1.db.nodes r.1.currentBlock.header.spaceRoot
        ≠ r.1.db.nodes r.1.currentBlock.header.spaceRoot := by
  have hrun : ∃ bc₀ ∈ Sample.chain,
      ∃ r ∈ BlockChain.insert prims .plain bc₀ (epochBlock bc₀.currentBlock),
      ∃ s ∈ (stateAt r.1.db r.1.currentBlock).toOption,
      ∃ r' ∈ BlockChain.process prims r.1 (nextEpochBlock r.1.currentBlock) s,
        (∃ buf ∈ r.1.db.nodes r.1.currentBlock.header.spaceRoot,
          ∃ n ∈ decodeNode (some r.1.currentBlock.header.spaceRoot) buf 0, n.isLeaf = true) ∧
        r.1.currentBlock.header.spaceRoot ≠ FixedBytes.zero 32 ∧
        r.1.currentBlock.header.spaceRoot ≠ emptyRoot ∧
        r'.1.db.nodes r.1.currentBlock.header.spaceRoot
          ≠ r.1.db.nodes r.1.currentBlock.header.spaceRoot := by
    decide +kernel
  obtain ⟨bc₀, hbc₀, r, hr, s, hs, r', hr', hleaf, hzero, hempty, hne⟩ := hrun
  exact ⟨bc₀, hbc₀, r, hr, s, hs, r', hr', fullyStored_of_isLeaf hleaf, .root hzero hempty, hne⟩

end Space

end Gocoin
