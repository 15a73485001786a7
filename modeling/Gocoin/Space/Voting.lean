import Mathlib.Data.List.AList
import Gocoin.Space.Worker
import Gocoin.Vrf.Vrf

/-!
# Space/Voting — members that vote on blocks

The loop `update` of `space/worker.go`.  A member that is sent a valid block with a larger
coefficient than any before signs it and tells the others; a member that holds enough signatures of
one block recovers the signature of the group from them and commits the block.

Messages reach members in any order, late and more than once.  A system has all members, the
signatures that were sent and the blocks that were committed; its actions are the two cases of the
loop at one member, and whatever moves the chain of a member.
-/

namespace Gocoin.Space

open State

/-! ## Members -/

/-- What the members compare proposals with: the numbers that percents are read as, and whether one
is within `0.00001` of `1 / 2 ^ k`; and the signature of the group. -/
structure Lottery (κ : Type) where
  byteToFloat32 : Bytes → κ
  zero : κ
  less : κ → κ → Bool
  less_trans : ∀ {x y z}, less x y = true → less y z = true → less x z = true
  near : κ → ℕ → Bool
  signature : Hash → Bytes

/-- `BlsSign`, as a share of an ideal scheme: whose it is and what it signs. -/
structure BlsSign where
  id : Address
  msg : Hash
  deriving DecidableEq

/-- `BlockSigInfo`. -/
structure BlockSigInfo where
  blockHash : Hash
  sender : Address
  percent : Bytes
  preknownSig : BlsSign
  deriving DecidableEq

/-- The threshold of a group, as `blsgroup` sets it. -/
def threshold (group : List Address) : ℕ := group.length / 2 + 1

/-- `Verigy`, for an ideal scheme: all shares are interpolated together, so each must be the share
of another member over the message, and there must be enough of them. -/
def verigy (group : List Address) (signs : List BlsSign) (msg : Hash) : Bool :=
  decide (threshold group ≤ signs.length ∧ (signs.map BlsSign.id).Nodup ∧
    ∀ s ∈ signs, s.id ∈ group ∧ s.msg = msg)

/-- An order in which a map of hashes is walked. -/
structure Walk where
  walk : List Hash → List Hash
  perm : ∀ l, (walk l).Perm l

/-- The order of the list. -/
def Walk.plain : Walk := ⟨id, fun _ => .refl _⟩

/-- What `update` uses of a `Worker`. -/
structure Member (κ : Type) where
  sender : Address
  chain : BlockChain
  sigBlocks : AList fun _ : Hash => Block
  sigInfos : AList fun _ : Address => BlockSigInfo
  coefficientMax : κ
  blockHashs : List Hash
  working : Bool

section

variable {κ : Type} (P : Prims) (V : Lottery κ) (group : List Address)

/-- `NewWorker`, started. -/
def newWorker (sender : Address) (chain : BlockChain) : Member κ :=
  ⟨sender, chain, ∅, ∅, V.zero, [], true⟩

/-- Whether a member takes part: the group has more than one address, and its own. -/
def sendsign (addrs : List Address) (sender : Address) : Bool :=
  decide (1 < addrs.length) && decide (sender ∈ addrs)

/-- `SelectConsensus` on the group of a member. -/
def Member.selectConsensus (w : Member κ) (number : UInt64) : Option (List Address × Member κ) := do
  let vg ← w.chain.validateGroup
  let (addrs, vg) ← vg.selectConsensus P number
  some (addrs, { w with chain := { w.chain with validateGroup := some vg } })

/-- The signing of a block: what is kept, and what is sent. -/
def Member.sign (w : Member κ) (b : Block) : Member κ × BlockSigInfo :=
  let hash := b.header.hashNoSig P.keccak
  let siginfo : BlockSigInfo := ⟨hash, w.sender, b.header.percent, ⟨w.sender, hash⟩⟩
  ({ w with
      coefficientMax := V.byteToFloat32 b.header.percent
      sigBlocks := w.sigBlocks.insert hash b
      sigInfos := w.sigInfos.insert w.sender siginfo }, siginfo)

/-- The first case of `update`, behind `SetLastBlockCh`: a block, with the hash it is said to
have. -/
def Member.lastBlock (ord : IterOrder) (w : Member κ) (hash : Hash) (b : Block) :
    Option (Member κ × Option BlockSigInfo) :=
  if hash ∈ w.blockHashs then some (w, none)
  else
    let w := { w with blockHashs := hash :: w.blockHashs }
    if hash = b.hash P.keccak then
      match P.signSender (b.header.hashNoSig P.keccak) b.header.sign with
      | none => some ({ w with working := false }, none)
      | some addre => do
        let (addrs, w) ← w.selectConsensus P b.numberU64
        let head := w.chain.currentBlock
        if sendsign addrs w.sender then do
          let blockVrf ← Vrf.newVrf P 0 w.sender addrs
          let (_, place) ← blockVrf.validateBlock P head.numberU64 (head.hash P.keccak) addre
          if V.near (V.byteToFloat32 b.header.percent) place then do
            let (ok, db) ← validateBlock P ord w.chain.db head b
            let w := { w with chain := { w.chain with db } }
            if ok && V.less w.coefficientMax (V.byteToFloat32 b.header.percent) then
              let (w, siginfo) := w.sign P V b
              some (w, some siginfo)
            else some (w, none)
          else some (w, none)
        else some (w, none)
    else some (w, none)

/-- A signature that arrives; of two of one sender the one with the larger percent stays. -/
def recordSig (infos : AList fun _ : Address => BlockSigInfo) (sig : BlockSigInfo) :
    AList fun _ : Address => BlockSigInfo :=
  match infos.lookup sig.sender with
  | some old =>
    if V.less (V.byteToFloat32 old.percent) (V.byteToFloat32 sig.percent) then
      infos.insert sig.sender sig
    else infos
  | none => infos.insert sig.sender sig

/-- The signatures of a block. -/
def sigsOf (infos : AList fun _ : Address => BlockSigInfo) (hash : Hash) : List BlockSigInfo :=
  (infos.entries.map Sigma.snd).filter fun info => info.blockHash = hash

/-- One turn of the loop over the blocks that have signatures: the member, the collected shares, and
the committed blocks.  The shares of a block stay when the next one is looked at. -/
def countTurn (size : Hash → ℕ) (r : Member κ × List BlsSign × List Block) (hash : Hash) :
    Member κ × List BlsSign × List Block :=
  let (w, signs, commits) := r
  if threshold group ≤ size hash then
    let signs := signs ++ (sigsOf w.sigInfos hash).map BlockSigInfo.preknownSig
    let w := { w with sigInfos := ∅ }
    if verigy group signs hash then
      let commits := match w.sigBlocks.lookup hash with
        | some b => commits ++ [b.setSigner (V.signature hash)]
        | none => commits
      ({ w with coefficientMax := V.zero, sigBlocks := ∅ }, signs, commits)
    else (w, signs, commits)
  else (w, signs, commits)

/-- The second case of `update`: a signature, and the blocks that are committed. -/
def Member.sigInfo (walk : Walk) (w : Member κ) (sig : BlockSigInfo) :
    Option (Member κ × List Block) :=
  match w.sigBlocks.lookup sig.blockHash with
  | none => some (w, [])
  | some currBlock => do
    let (addrs, w) ← w.selectConsensus P currBlock.numberU64
    if sendsign addrs w.sender then
      let infos := recordSig V w.sigInfos sig
      let w := { w with sigInfos := infos }
      if threshold group ≤ infos.keys.length then
        let hashes := walk.walk (infos.entries.map fun e => e.2.blockHash).dedup
        let (w, _, commits) :=
          hashes.foldl (countTurn V group fun hash => (sigsOf infos hash).length) (w, [], [])
        some (w, commits)
      else some (w, [])
    else some (w, [])

/-! ## The system -/

/-- The members, the signatures that have been sent — each beside its block — and what has been
committed by whom. -/
structure System (κ : Type) where
  member : Address → Member κ
  votes : List (Block × BlockSigInfo)
  commits : List (Address × Block)

/-- What can happen: a block reaches a member, a signature that was sent reaches a member — at any
time, any number of times —, or the chain of a member moves on. -/
inductive Action where
  | lastBlock (i : Address) (ord : IterOrder) (hash : Hash) (b : Block)
  | sigInfo (i : Address) (walk : Walk) (vote : Block × BlockSigInfo)
  | chain (i : Address) (bc : BlockChain)

/-- The members with their chains, before anything happens. -/
def System.start (chain : Address → BlockChain) : System κ :=
  ⟨fun i => newWorker V i (chain i), [], []⟩

/-- One action. -/
def System.act (σ : System κ) : Action → Option (System κ)
  | .lastBlock i ord hash b =>
    if i ∈ group ∧ (σ.member i).working then do
      let (w, sig) ← (σ.member i).lastBlock P V ord hash b
      some { σ with
        member := Function.update σ.member i w
        votes := σ.votes ++ sig.toList.map fun s => (b, s) }
    else none
  | .sigInfo i walk vote =>
    if i ∈ group ∧ (σ.member i).working ∧ vote ∈ σ.votes then do
      let (w, blocks) ← (σ.member i).sigInfo P V group walk vote.2
      some { σ with
        member := Function.update σ.member i w
        commits := σ.commits ++ blocks.map fun b => (i, b) }
    else none
  | .chain i bc =>
    some { σ with member := Function.update σ.member i { σ.member i with chain := bc } }

/-- The member has signed no other block with the same parent. -/
def VotesOnce (σ : System κ) (i : Address) (b : Block) : Prop :=
  ∀ v ∈ σ.votes, v.2.sender = i → v.1.header.uncleHash = b.header.uncleHash →
    v.2.blockHash = b.header.hashNoSig P.keccak

instance (σ : System κ) (i : Address) (b : Block) : Decidable (VotesOnce P σ i b) :=
  inferInstanceAs (Decidable (∀ v ∈ σ.votes, _ → _ → _))

/-- A member that is about to sign a block has signed no other with the same parent. -/
def Faithful (σ : System κ) : Action → Prop
  | .lastBlock i ord hash b =>
    ∀ r ∈ (σ.member i).lastBlock P V ord hash b, r.2.isSome → VotesOnce P σ i b
  | _ => True

instance (σ : System κ) : DecidablePred (Faithful P V σ)
  | .lastBlock i ord hash b =>
    inferInstanceAs (Decidable (∀ r ∈ (σ.member i).lastBlock P V ord hash b, _ → _))
  | .sigInfo .. | .chain .. => .isTrue trivial

/-- The runs whose actions meet a condition. -/
def System.Run (C : System κ → Action → Prop) : System κ → System κ → Prop :=
  Relation.ReflTransGen fun σ σ' => ∃ a, C σ a ∧ System.act P V group σ a = some σ'

/-! ## One worker -/

/-- `buildBlock` at a worker.  A group of three or more votes on its blocks, so the block is kept,
under its full hash. -/
def Member.buildBlock (ord : IterOrder) (w : Member κ) (who : Proposer) (txs : List Tx) :
    Option (Member κ × Option Block) := do
  let (block, chain) ← Space.buildBlock P ord w.chain who txs
  let w := { w with chain }
  match block with
  | none => some (w, none)
  | some b =>
    if b.header.pk.head? = some 2 then
      some ({ w with sigBlocks := w.sigBlocks.insert (b.hash P.keccak) b }, some b)
    else some (w, some b)

/-- What happens at a worker: a block arrives, a signature arrives — whatever it says —, the worker
builds a block, or its chain moves on. -/
inductive WorkerTurn where
  | lastBlock (ord : IterOrder) (hash : Hash) (b : Block)
  | sigInfo (walk : Walk) (sig : BlockSigInfo)
  | buildBlock (ord : IterOrder) (who : Proposer) (txs : List Tx)
  | chain (bc : BlockChain)

/-- The worker, the blocks it has built, and the blocks it has published. -/
structure Publisher (κ : Type) where
  worker : Member κ
  built : List Block
  published : List Block

/-- One turn. -/
def Publisher.turn (p : Publisher κ) : WorkerTurn → Option (Publisher κ)
  | .lastBlock ord hash b => do
    let (w, _) ← p.worker.lastBlock P V ord hash b
    some { p with worker := w }
  | .sigInfo walk sig => do
    let (w, blocks) ← p.worker.sigInfo P V group walk sig
    some { p with worker := w, published := p.published ++ blocks }
  | .buildBlock ord who txs => do
    let (w, b) ← p.worker.buildBlock P ord who txs
    some { p with worker := w, built := p.built ++ b.toList }
  | .chain bc => some { p with worker := { p.worker with chain := bc } }

/-- Turn after turn. -/
def Publisher.turns (p : Publisher κ) (ts : List WorkerTurn) : Option (Publisher κ) :=
  ts.foldlM (Publisher.turn P V group) p

/-- A worker before its first turn. -/
def Publisher.start (sender : Address) (chain : BlockChain) : Publisher κ :=
  ⟨newWorker V sender chain, [], []⟩

end

/-! ## What the two cases do -/

variable {κ : Type} {P : Prims} {V : Lottery κ} {group : List Address} {w w' : Member κ}

theorem Member.selectConsensus_eq {number : UInt64} {addrs : List Address}
    (h : w.selectConsensus P number = some (addrs, w')) :
    ∃ vg, w' = { w with chain := { w.chain with validateGroup := vg } } := by
  simp only [Member.selectConsensus, bind_eq_some] at h
  obtain ⟨vg, -, ⟨addrs', vg'⟩, -, h⟩ := h
  exact ⟨some vg', (congrArg Prod.snd (Option.some.inj h)).symm⟩

/-- **What a block does to a member**: nothing to its signatures, or it is signed, being of a larger
coefficient than those before. -/
theorem Member.lastBlock_cases {ord : IterOrder} {hash : Hash} {b : Block}
    {sig : Option BlockSigInfo} (h : w.lastBlock P V ord hash b = some (w', sig)) :
    w'.sender = w.sender ∧
      ((sig = none ∧ w'.coefficientMax = w.coefficientMax ∧ w'.sigBlocks = w.sigBlocks ∧
          w'.sigInfos = w.sigInfos) ∨
        ∃ s : BlockSigInfo, sig = some s ∧ s.sender = w.sender ∧
          s.blockHash = b.header.hashNoSig P.keccak ∧ s.preknownSig = ⟨s.sender, s.blockHash⟩ ∧
          w'.sigBlocks = w.sigBlocks.insert s.blockHash b ∧
          w'.sigInfos = w.sigInfos.insert s.sender s ∧ s.percent = b.header.percent ∧
          V.less w.coefficientMax (V.byteToFloat32 s.percent) = true ∧
          w'.coefficientMax = V.byteToFloat32 s.percent) := by
  unfold Member.lastBlock at h
  split at h
  · cases h
    exact ⟨rfl, .inl ⟨rfl, rfl, rfl, rfl⟩⟩
  simp only at h
  split at h
  swap
  · cases h
    exact ⟨rfl, .inl ⟨rfl, rfl, rfl, rfl⟩⟩
  split at h
  · cases h
    exact ⟨rfl, .inl ⟨rfl, rfl, rfl, rfl⟩⟩
  simp only [Option.bind_eq_bind, Option.bind_eq_some_iff] at h
  obtain ⟨⟨addrs, w₁⟩, hselect, h⟩ := h
  obtain ⟨vg, rfl⟩ := Member.selectConsensus_eq hselect
  split at h
  swap
  · cases h
    exact ⟨rfl, .inl ⟨rfl, rfl, rfl, rfl⟩⟩
  simp only [Option.bind_eq_some_iff] at h
  obtain ⟨blockVrf, -, ⟨_, place⟩, -, h⟩ := h
  split at h
  swap
  · cases h
    exact ⟨rfl, .inl ⟨rfl, rfl, rfl, rfl⟩⟩
  simp only [Option.bind_eq_some_iff] at h
  obtain ⟨⟨ok, db⟩, -, h⟩ := h
  split at h
  · next hless =>
    cases h
    exact ⟨rfl, .inr ⟨_, rfl, rfl, rfl, rfl, rfl, rfl, rfl, (Bool.and_eq_true_iff.mp hless).2, rfl⟩⟩
  · cases h
    exact ⟨rfl, .inl ⟨rfl, rfl, rfl, rfl⟩⟩

/-- **What building a block does to a member**: the block may be kept, under its full hash. -/
theorem Member.buildBlock_cases {ord : IterOrder} {who : Proposer} {txs : List Tx}
    {built : Option Block} (h : w.buildBlock P ord who txs = some (w', built)) :
    w'.sender = w.sender ∧ w'.coefficientMax = w.coefficientMax ∧ w'.sigInfos = w.sigInfos ∧
      (w'.sigBlocks = w.sigBlocks ∨ ∃ b, built = some b ∧
        w'.sigBlocks = w.sigBlocks.insert (b.hash P.keccak) b) := by
  simp only [Member.buildBlock, bind_eq_some] at h
  obtain ⟨⟨block, chain⟩, -, h⟩ := h
  cases block with
  | none =>
    cases h
    exact ⟨rfl, rfl, rfl, .inl rfl⟩
  | some b =>
    dsimp only at h
    split at h
    · cases h
      exact ⟨rfl, rfl, rfl, .inr ⟨b, rfl, rfl⟩⟩
    · cases h
      exact ⟨rfl, rfl, rfl, .inl rfl⟩

/-- A signature is looked at: the loop is running, it names a block that the member knows, and the
member takes part. -/
def Member.takesPart (P : Prims) (w : Member κ) (sig : BlockSigInfo) : Bool :=
  w.working && (w.sigBlocks.lookup sig.blockHash).any fun b =>
    (w.selectConsensus P b.numberU64).any fun r => sendsign r.1 r.2.sender

/-- **What a signature does to a member**: nothing, when it is not looked at; otherwise it is
recorded, and when there are enough of them the blocks are counted. -/
theorem Member.sigInfo_cases {walk : Walk} {sig : BlockSigInfo} {blocks : List Block}
    (h : w.sigInfo P V group walk sig = some (w', blocks)) :
    (blocks = [] ∧ w.takesPart P sig = false ∧ w'.sender = w.sender ∧
        w'.coefficientMax = w.coefficientMax ∧ w'.sigBlocks = w.sigBlocks ∧
        w'.sigInfos = w.sigInfos) ∨
      sig.blockHash ∈ w.sigBlocks ∧ ∃ w₁ : Member κ, w₁.sender = w.sender ∧
        w₁.coefficientMax = w.coefficientMax ∧ w₁.sigBlocks = w.sigBlocks ∧
        w₁.sigInfos = recordSig V w.sigInfos sig ∧
        (w₁.sigInfos.keys.length < threshold group ∧ w' = w₁ ∧ blocks = [] ∨
          ∃ signs, (walk.walk (w₁.sigInfos.entries.map fun e => e.2.blockHash).dedup).foldl
            (countTurn V group fun x => (sigsOf w₁.sigInfos x).length) (w₁, [], [])
              = (w', signs, blocks)) := by
  unfold Member.sigInfo at h
  cases hb : w.sigBlocks.lookup sig.blockHash with
  | none =>
    rw [hb] at h
    cases h
    exact .inl ⟨rfl, by simp [Member.takesPart, hb], rfl, rfl, rfl, rfl⟩
  | some currBlock =>
    simp only [hb, bind_eq_some] at h
    obtain ⟨⟨addrs, w₁⟩, hselect, h⟩ := h
    obtain ⟨vg, rfl⟩ := Member.selectConsensus_eq hselect
    split at h
    swap
    · next hpart =>
      cases h
      exact .inl ⟨rfl, by simp [Member.takesPart, hb, hselect, hpart], rfl, rfl, rfl, rfl⟩
    refine .inr ⟨AList.lookup_isSome.mp (by rw [hb]; rfl), { w with
      chain := { w.chain with validateGroup := vg }
      sigInfos := recordSig V w.sigInfos sig }, rfl, rfl, rfl, rfl, ?_⟩
    split at h
    · cases h
      exact .inr ⟨_, rfl⟩
    · next hfew =>
      cases h
      exact .inl ⟨Nat.not_le.mp hfew, rfl, rfl⟩

end Gocoin.Space
