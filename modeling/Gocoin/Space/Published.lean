import Gocoin.Space.Authority
import Gocoin.Space.Ballots

/-!
# Space/Published — the blocks a worker publishes

When enough shares have come together the worker puts the group's signature on a block and
publishes it.  What was signed is the hash the shares name, which is the block's `HashNoSig` if the
block arrived and its full `Hash` if the worker built it (`Keyed`); what `BlockSigerVerifier` looks
at is the block's `HashNoSig` and the key in its header.  So a published block verifies when it was
voted on by its `HashNoSig` and its proposer has put the group's key into the header
(`published_block_verifies`).

No step compares the key in a proposal with the group's key, so a member publishes blocks that
nobody accepts (`published_block_refused`).
-/

namespace Gocoin

open State

namespace Space

variable {κ : Type} {P : Prims} {V : Lottery κ} {group : List Address} {w w' : Member κ}

/-! ## Under which hash a block is kept -/

variable (P) in
/-- A block is kept under its `HashNoSig`, or under the `Hash` of a block that was built here. -/
def Keyed (built : List Block) (w : Member κ) : Prop :=
  ∀ x b, w.sigBlocks.lookup x = some b →
    x = b.header.hashNoSig P.keccak ∨ ∃ b' ∈ built, x = b'.hash P.keccak

variable {built : List Block} {p p' : Publisher κ}

theorem Keyed.congr (h : Keyed P built w) (hw : w'.sigBlocks = w.sigBlocks) : Keyed P built w' :=
  fun x b hb => h x b (hw ▸ hb)

theorem Keyed.mono {built' : List Block} (h : Keyed P built w) (hsub : built ⊆ built') :
    Keyed P built' w :=
  fun x b hb => (h x b hb).imp_right fun ⟨b', hb', hx⟩ => ⟨b', hsub hb', hx⟩

theorem Keyed.insert (h : Keyed P built w) {x : Hash} {b : Block}
    (hx : x = b.header.hashNoSig P.keccak ∨ ∃ b' ∈ built, x = b'.hash P.keccak)
    (hw : w'.sigBlocks = w.sigBlocks.insert x b) : Keyed P built w' := by
  intro y b' hb'
  rw [hw] at hb'
  by_cases hy : y = x
  · subst hy
    rw [AList.lookup_insert, Option.some.injEq] at hb'
    exact hb' ▸ hx
  · rw [AList.lookup_insert_ne hy] at hb'
    exact h y b' hb'

/-! ## What a signature publishes -/

/-- **What the loop publishes**: blocks the worker knows by one of the hashes, with the group's
signature of the hash. -/
theorem mem_commits_foldl {size : Hash → ℕ} {hashes : List Hash}
    {r r' : Member κ × List BlsSign × List Block}
    (hfold : hashes.foldl (countTurn V group size) r = r')
    (hknown : ∀ x b, r.1.sigBlocks.lookup x = some b → w.sigBlocks.lookup x = some b) :
    (∀ x b, r'.1.sigBlocks.lookup x = some b → w.sigBlocks.lookup x = some b) ∧
      ∀ b' ∈ r'.2.2, b' ∈ r.2.2 ∨
        ∃ x ∈ hashes, ∃ b, w.sigBlocks.lookup x = some b ∧ b' = b.setSigner (V.signature x) := by
  induction hashes generalizing r with
  | nil => exact hfold ▸ ⟨hknown, fun b' hb' => .inl hb'⟩
  | cons x hashes ih =>
    have hturn : (∀ y b, (countTurn V group size r x).1.sigBlocks.lookup y = some b →
          w.sigBlocks.lookup y = some b) ∧
        ∀ b' ∈ (countTurn V group size r x).2.2, b' ∈ r.2.2 ∨
          ∃ b, w.sigBlocks.lookup x = some b ∧ b' = b.setSigner (V.signature x) := by
      obtain ⟨w₀, signs, commits⟩ := r
      unfold countTurn
      dsimp only
      split_ifs with hsize hver
      · refine ⟨fun y b hb => by simp at hb, fun b' hb' => ?_⟩
        cases hlookup : w₀.sigBlocks.lookup x with
        | none =>
          rw [hlookup] at hb'
          exact .inl hb'
        | some b =>
          rw [hlookup] at hb'
          rcases List.mem_append.mp hb' with hb' | hb'
          · exact .inl hb'
          · exact .inr ⟨b, hknown x b hlookup, List.mem_singleton.mp hb'⟩
      · exact ⟨hknown, fun b' hb' => .inl hb'⟩
      · exact ⟨hknown, fun b' hb' => .inl hb'⟩
    obtain ⟨hblocks, hcommits⟩ := ih hfold hturn.1
    refine ⟨hblocks, fun b' hb' => ?_⟩
    rcases hcommits b' hb' with hb' | ⟨y, hy, b, hb⟩
    · rcases hturn.2 b' hb' with hb' | ⟨b, hb⟩
      · exact .inl hb'
      · exact .inr ⟨x, List.mem_cons_self, b, hb⟩
    · exact .inr ⟨y, List.mem_cons_of_mem x hy, b, hb⟩

/-- **What a signature publishes**: blocks the worker knows, by hashes that signatures it holds
name. -/
theorem Member.mem_blocks_of_sigInfo {walk : Walk} {sig : BlockSigInfo} {blocks : List Block}
    (h : w.sigInfo P V group walk sig = some (w', blocks)) :
    (∀ x b, w'.sigBlocks.lookup x = some b → w.sigBlocks.lookup x = some b) ∧
      ∀ b' ∈ blocks, ∃ e ∈ (recordSig V w.sigInfos sig).entries, ∃ b,
        w.sigBlocks.lookup e.2.blockHash = some b ∧
          b' = b.setSigner (V.signature e.2.blockHash) := by
  obtain ⟨rfl, -, -, -, hblocks, -⟩ | ⟨-, w₁, -, -, hblocks, hinfos,
    ⟨-, rfl, rfl⟩ | ⟨signs, hfold⟩⟩ :=
    Member.sigInfo_cases h
  · exact ⟨fun x b hb => hblocks ▸ hb, nofun⟩
  · exact ⟨fun x b hb => hblocks ▸ hb, nofun⟩
  · obtain ⟨hknown, hcommits⟩ := mem_commits_foldl (w := w) hfold fun x b hb => hblocks ▸ hb
    refine ⟨hknown, fun b' hb' => ?_⟩
    obtain ⟨x, hx, b, hb⟩ := (hcommits b' hb').resolve_left List.not_mem_nil
    rw [(walk.perm _).mem_iff, List.mem_dedup] at hx
    obtain ⟨e, he, rfl⟩ := List.mem_map.mp hx
    exact ⟨e, hinfos ▸ he, b, hb⟩

/-! ## Runs -/

/-- The key of what is kept, turn by turn. -/
theorem Keyed.turn {t : WorkerTurn} (h : Keyed P p.built p.worker)
    (ht : p.turn P V group t = some p') : Keyed P p'.built p'.worker := by
  cases t with
  | lastBlock ord hash b =>
    simp only [Publisher.turn, bind_eq_some, Prod.exists, Option.some.injEq] at ht
    obtain ⟨w, sig, hstep, rfl⟩ := ht
    obtain ⟨-, ⟨-, -, hblocks, -⟩ | ⟨s, -, -, hhash, -, hblocks, -⟩⟩ :=
      Member.lastBlock_cases hstep
    · exact h.congr hblocks
    · exact h.insert (.inl hhash) hblocks
  | sigInfo walk sig =>
    simp only [Publisher.turn, bind_eq_some, Prod.exists, Option.some.injEq] at ht
    obtain ⟨w, blocks, hstep, rfl⟩ := ht
    exact fun x b hb => h x b ((Member.mem_blocks_of_sigInfo hstep).1 x b hb)
  | buildBlock ord who txs =>
    simp only [Publisher.turn, bind_eq_some, Prod.exists, Option.some.injEq] at ht
    obtain ⟨w, block, hstep, rfl⟩ := ht
    have hmore := h.mono (List.subset_append_left p.built block.toList)
    obtain ⟨-, -, -, hblocks | ⟨b, rfl, hblocks⟩⟩ := Member.buildBlock_cases hstep
    · exact hmore.congr hblocks
    · exact hmore.insert (.inr ⟨b, by simp, rfl⟩) hblocks
  | chain bc =>
    simp only [Publisher.turn, Option.some.injEq] at ht
    subst ht
    exact h.congr rfl

/-- **A published block verifies** — after every run, with any signatures — when its header names
the group's key and nothing was voted on by the full hash of a block built here. -/
theorem published_block_verifies {pubkey : Bytes} (hpub : pubkey ≠ [])
    (hkey : ∀ x : Hash, V.signature x ≠ [] ∧ P.blsVerify (V.signature x) x.bytes pubkey = true)
    {sender : Address} {chain : BlockChain} {ts : List WorkerTurn} {p : Publisher κ}
    (hrun : (Publisher.start V sender chain).turns P V group ts = some p)
    {walk : Walk} {sig : BlockSigInfo} {blocks : List Block}
    (hstep : p.worker.sigInfo P V group walk sig = some (w', blocks))
    (hnames : ∀ e ∈ (recordSig V p.worker.sigInfos sig).entries, ∀ b ∈ p.built,
      e.2.blockHash ≠ b.hash P.keccak)
    {b : Block} (hb : b ∈ blocks) (hpk : b.header.pk = 2 :: pubkey) :
    BlockChain.blockSigerVerifier P b = some true := by
  have hkeyed : Keyed P p.built p.worker :=
    Fold.foldlM_keeps (I := fun p => Keyed P p.built p.worker) Keyed.turn hrun
      (by intro x b hb; cases hb)
  obtain ⟨e, he, b₀, hlookup, rfl⟩ := (Member.mem_blocks_of_sigInfo hstep).2 b hb
  have hhash : e.2.blockHash = b₀.header.hashNoSig P.keccak :=
    (hkeyed _ _ hlookup).resolve_right fun ⟨b', hb', hx⟩ => hnames e he b' hb' hx
  obtain ⟨hne, hverify⟩ := hkey e.2.blockHash
  have hsign : (b₀.setSigner (V.signature e.2.blockHash)).header.sign
      = V.signature e.2.blockHash := by
    rw [Block.setSigner, if_pos (List.length_pos_of_ne_nil hne)]
  rw [BlockChain.blockSigerVerifier_eq_true_iff]
  refine ⟨fun hnil => hne (hsign.symm.trans hnil), .inr ⟨pubkey, hpub, hpk, ?_⟩⟩
  rw [hsign, Block.hashNoSig_setSigner, ← hhash]
  exact hverify

end Space

/-! ## Two proposals -/

namespace Sample

open Space

/-- A lottery for a group with the key `[7]`. -/
def keyLottery : Lottery ℕ := { lottery with signature := fun x => 7 :: x.bytes }

/-- The proposal of a member, with a key. -/
def proposedWith (key : Bytes) (addrs : List Address) (head : Block) (who : Address) : Block :=
  let b := proposed addrs head who
  { b with header := { b.header with pk := 2 :: key } }

/-- What a member publishes when its own proposal has reached it and then the signature of another
one arrives. -/
def publishes (key : Bytes) (addrs : List Address) (bc : BlockChain) (a b : Address) :
    Option (Publisher ℕ × Member ℕ × List Block) := do
  let first := proposedWith key addrs bc.currentBlock a
  let p ← (Publisher.start keyLottery a bc).turns prims keyLottery addrs
    [.lastBlock .plain (first.hash keccak) first]
  let r ← p.worker.sigInfo prims keyLottery addrs .plain (vote b first).2
  some (p, r)

end Sample

namespace Space

open Sample (prims keyLottery electorate publishes proposedWith vote)

/-- The law applies to a proposal with the group's key. -/
theorem published_block_verifies_sample :
    ∃ e ∈ electorate, ∃ a ∈ e.1, ∃ b ∈ e.1, a ≠ b ∧
      ∃ r ∈ publishes [7] e.1 e.2 a b, ∃ c ∈ r.2.2,
        BlockChain.blockSigerVerifier prims c = some true := by
  have hrun : ∃ e ∈ electorate, ∃ a ∈ e.1, ∃ b ∈ e.1, a ≠ b ∧
      ∃ r ∈ publishes [7] e.1 e.2 a b, r.1.built = [] ∧ ∃ c ∈ r.2.2, c.header.pk = [2, 7] := by
    decide +kernel
  obtain ⟨e, he, a, ha, b, hb, hne, r, hr, hbuilt, c, hc, hpk⟩ := hrun
  refine ⟨e, he, a, ha, b, hb, hne, r, hr, c, hc, ?_⟩
  simp only [publishes, Option.bind_eq_bind, Option.mem_def, Option.bind_eq_some_iff,
    Option.some.injEq] at hr
  obtain ⟨p, hp, ⟨w', blocks⟩, hstep, rfl⟩ := hr
  refine published_block_verifies (List.cons_ne_nil _ _)
    (fun x => ⟨List.cons_ne_nil _ _, decide_eq_true rfl⟩) hp hstep ?_ hc hpk
  intro e _ b hb
  rw [show p.built = [] from hbuilt] at hb
  cases hb

/-- **A published block may be refused**: a proposal with another key is signed, completed and
published like any other, and its signature does not verify. -/
theorem published_block_refused :
    ∃ e ∈ electorate, ∃ a ∈ e.1, ∃ b ∈ e.1, a ≠ b ∧
      ∃ r ∈ publishes [8] e.1 e.2 a b, r.1.built = [] ∧ ∃ c ∈ r.2.2,
        c.header.sign = keyLottery.signature (c.header.hashNoSig prims.keccak) ∧
          BlockChain.blockSigerVerifier prims c = some false := by
  decide +kernel

end Space

end Gocoin
