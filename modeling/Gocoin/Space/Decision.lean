import Gocoin.Machinery.Quorum
import Gocoin.Space.Overwrite
import Gocoin.Space.Voting

/-!
# Space/Decision — which blocks are committed

Every share that a member collects belongs to a vote that was sent, so a block that is committed has
the votes of a majority (`Backed.sigInfo`).  Two majorities share a member: as long as no member
signs two blocks with the same parent, two blocks that are committed on the same parent are the same
block (`commits_agree`).

Members do sign two blocks — the second one with the larger coefficient — and their signatures of
both stay in the network, so that two blocks can be decided (`two_blocks_committed`).
-/

namespace Gocoin

open State

namespace Block

/-- The block without its signature. -/
def unsigned (b : Block) : Block := { b with header := { b.header with sign := [] } }

theorem unsigned_setSigner (b : Block) (sig : Bytes) : (b.setSigner sig).unsigned = b.unsigned := by
  unfold setSigner
  split <;> rfl

theorem uncleHash_of_unsigned {b b' : Block} (h : b.unsigned = b'.unsigned) :
    b.header.uncleHash = b'.header.uncleHash := by
  have hparent := congrArg (fun b : Block => b.header.uncleHash) h
  exact hparent

end Block

namespace Space

variable {κ : Type} {P : Prims} {V : Lottery κ} {group : List Address} {w w' : Member κ}

/-! ## Shares come from votes -/

/-- Who has voted for which hash. -/
def ballots (votes : List (Block × BlockSigInfo)) : Set (Address × Hash) :=
  {p | ∃ v ∈ votes, v.2.sender = p.1 ∧ v.2.blockHash = p.2}

variable (P group) in
/-- A vote of a member for a block. -/
structure Cast (v : Block × BlockSigInfo) : Prop where
  sender : v.2.sender ∈ group
  blockHash : v.2.blockHash = v.1.header.hashNoSig P.keccak
  share : v.2.preknownSig = ⟨v.2.sender, v.2.blockHash⟩

/-- What a member holds has been sent. -/
structure Backed (votes : List (Block × BlockSigInfo)) (w : Member κ) : Prop where
  blocks : ∀ x b, w.sigBlocks.lookup x = some b → ∃ v ∈ votes, v.1 = b ∧ v.2.blockHash = x
  infos : ∀ e ∈ w.sigInfos.entries, ∃ v ∈ votes, v.2 = e.2

variable (P group) in
/-- A block has been decided: it is one that was voted on, up to its signature, and it has a
majority. -/
structure Decided (votes : List (Block × BlockSigInfo)) (b : Block) : Prop where
  voted : ∃ v ∈ votes, v.1.unsigned = b.unsigned ∧ v.2.blockHash = b.header.hashNoSig P.keccak
  majority : Quorum.Majority group.toFinset (ballots votes) (b.header.hashNoSig P.keccak)

variable {votes votes' : List (Block × BlockSigInfo)}

theorem Backed.mono (h : Backed votes w) (hsub : votes ⊆ votes') : Backed votes' w where
  blocks x b hb := by
    obtain ⟨v, hv, h⟩ := h.blocks x b hb
    exact ⟨v, hsub hv, h⟩
  infos e he := by
    obtain ⟨v, hv, h⟩ := h.infos e he
    exact ⟨v, hsub hv, h⟩

theorem Backed.congr (h : Backed votes w) (hblocks : w'.sigBlocks = w.sigBlocks)
    (hinfos : w'.sigInfos = w.sigInfos) : Backed votes w' :=
  ⟨hblocks ▸ h.blocks, hinfos ▸ h.infos⟩

variable {b : Block} {sig : BlockSigInfo} {σ σ' : System κ}

theorem Decided.mono (h : Decided P group votes b) (hsub : votes ⊆ votes') :
    Decided P group votes' b := by
  obtain ⟨v, hv, heq⟩ := h.voted
  exact ⟨⟨v, hsub hv, heq⟩, h.majority.mono fun p ⟨v, hv, hp⟩ => ⟨v, hsub hv, hp⟩⟩

theorem mem_entries_insert {α : Type} {infos : AList fun _ : Address => α} {a : Address} {x : α}
    {e : Σ _ : Address, α} (h : e ∈ (infos.insert a x).entries) :
    e = ⟨a, x⟩ ∨ e ∈ infos.entries := by
  rw [AList.entries_insert, List.mem_cons] at h
  obtain rfl | h := h
  · exact .inl rfl
  · exact .inr ((List.kerase_sublist a _).subset h)

theorem mem_entries_recordSig {infos : AList fun _ : Address => BlockSigInfo}
    {e : Σ _ : Address, BlockSigInfo} (h : e ∈ (recordSig V infos sig).entries) :
    e = ⟨sig.sender, sig⟩ ∨ e ∈ infos.entries := by
  unfold recordSig at h
  split at h
  · split at h
    · exact mem_entries_insert h
    · exact .inr h
  · exact mem_entries_insert h

variable {s : BlockSigInfo} {r : Member κ × List BlsSign × List Block} {i : Address} {a : Action}

/-- A member that signs a block holds what it has sent. -/
theorem Backed.sign (h : Backed votes w) (hblocks : w'.sigBlocks = w.sigBlocks.insert s.blockHash b)
    (hinfos : w'.sigInfos = w.sigInfos.insert s.sender s) : Backed (votes ++ [(b, s)]) w' := by
  have hnew : (b, s) ∈ votes ++ [(b, s)] := List.mem_append_right _ (List.mem_singleton_self _)
  refine ⟨fun x b' hb' => ?_, fun e he => ?_⟩
  · rw [hblocks] at hb'
    by_cases hx : x = s.blockHash
    · rw [hx, AList.lookup_insert, Option.some.injEq] at hb'
      exact ⟨(b, s), hnew, hb', hx.symm⟩
    · rw [AList.lookup_insert_ne hx] at hb'
      exact (h.mono (List.subset_append_left ..)).blocks x b' hb'
  · rw [hinfos] at he
    obtain heq | he := mem_entries_insert he
    · exact ⟨(b, s), hnew, by rw [heq]⟩
    · exact (h.mono (List.subset_append_left ..)).infos e he

theorem Backed.record (h : Backed votes w) (hsig : ∃ v ∈ votes, v.2 = sig)
    (hblocks : w'.sigBlocks = w.sigBlocks) (hinfos : w'.sigInfos = recordSig V w.sigInfos sig) :
    Backed votes w' := by
  refine ⟨hblocks ▸ h.blocks, fun e he => ?_⟩
  rw [hinfos] at he
  obtain heq | he := mem_entries_recordSig he
  · rw [heq]
    exact hsig
  · exact h.infos e he

/-- **What `Verigy` accepts has a majority**: the shares of different members are votes. -/
theorem majority_of_verigy (hcast : ∀ v ∈ votes, Cast P group v) {signs : List BlsSign}
    (hsigns : ∀ s ∈ signs, ∃ v ∈ votes, v.2.preknownSig = s) {msg : Hash}
    (h : verigy group signs msg = true) :
    Quorum.Majority group.toFinset (ballots votes) msg := by
  obtain ⟨hlen, hnodup, hall⟩ := of_decide_eq_true h
  have hvoter : ∀ a ∈ signs.map BlsSign.id, a ∈ group ∧ (a, msg) ∈ ballots votes := by
    intro a ha
    obtain ⟨s, hs, rfl⟩ := List.mem_map.mp ha
    obtain ⟨hmem, hmsg⟩ := hall s hs
    obtain ⟨v, hv, rfl⟩ := hsigns s hs
    rw [(hcast v hv).share] at hmem hmsg ⊢
    exact ⟨hmem, v, hv, rfl, hmsg⟩
  refine .of_list (fun a ha => List.mem_toFinset.mpr (hvoter a ha).1)
    (fun a ha => (hvoter a ha).2) ?_
  rw [hnodup.dedup, List.length_map]
  have hcard := List.toFinset_card_le group
  unfold threshold at hlen
  omega

/-! ## Counting -/

variable (P group votes) in
/-- What holds in the loop: the member holds what was sent, so does the loop, and what it commits
has been decided. -/
structure Counted (r : Member κ × List BlsSign × List Block) : Prop where
  backed : Backed votes r.1
  signs : ∀ s ∈ r.2.1, ∃ v ∈ votes, v.2.preknownSig = s
  commits : ∀ b ∈ r.2.2, Decided P group votes b

section

variable (hcast : ∀ v ∈ votes, Cast P group v)
include hcast

theorem Counted.turn (h : Counted P group votes r) (size : Hash → ℕ) (hash : Hash) :
    Counted P group votes (countTurn V group size r hash) ∧
      (countTurn V group size r hash).1.sender = r.1.sender := by
  obtain ⟨w, signs, commits⟩ := r
  obtain ⟨hbacked, hsigns, hcommits⟩ := h
  simp only at hbacked hsigns hcommits
  unfold countTurn
  simp only
  by_cases hsize : threshold group ≤ size hash
  swap
  · rw [if_neg hsize]
    exact ⟨⟨hbacked, hsigns, hcommits⟩, rfl⟩
  rw [if_pos hsize]
  have hsigns' : ∀ s ∈ signs ++ (sigsOf w.sigInfos hash).map BlockSigInfo.preknownSig,
      ∃ v ∈ votes, v.2.preknownSig = s := by
    intro s hs
    obtain hs | hs := List.mem_append.mp hs
    · exact hsigns s hs
    · obtain ⟨info, hinfo, rfl⟩ := List.mem_map.mp hs
      obtain ⟨e, he, rfl⟩ := List.mem_map.mp (List.mem_filter.mp hinfo).1
      obtain ⟨v, hv, heq⟩ := hbacked.infos e he
      exact ⟨v, hv, by rw [heq]⟩
  have hnone : ∀ e ∈ (∅ : AList fun _ : Address => BlockSigInfo).entries, ∃ v ∈ votes, v.2 = e.2 :=
    nofun
  by_cases hver : verigy group
      (signs ++ (sigsOf w.sigInfos hash).map BlockSigInfo.preknownSig) hash = true
  swap
  · rw [if_neg hver]
    exact ⟨⟨⟨hbacked.blocks, hnone⟩, hsigns', hcommits⟩, rfl⟩
  rw [if_pos hver]
  refine ⟨⟨⟨nofun, hnone⟩, hsigns', ?_⟩, rfl⟩
  simp only
  cases hlookup : w.sigBlocks.lookup hash with
  | none => exact hcommits
  | some b =>
    intro b' hb'
    obtain hb' | hb' := List.mem_append.mp hb'
    · exact hcommits b' hb'
    rw [List.mem_singleton.mp hb']
    obtain ⟨v, hv, rfl, hx⟩ := hbacked.blocks hash b hlookup
    have hhash : (v.1.setSigner (V.signature hash)).header.hashNoSig P.keccak = hash := by
      rw [Block.hashNoSig_setSigner, ← (hcast v hv).blockHash, hx]
    refine ⟨⟨v, hv, (Block.unsigned_setSigner ..).symm, hx.trans hhash.symm⟩, ?_⟩
    rw [hhash]
    exact majority_of_verigy hcast hsigns' hver

theorem Counted.foldl {size : Hash → ℕ} {hashes : List Hash}
    {r' : Member κ × List BlsSign × List Block} (h : Counted P group votes r)
    (hfold : hashes.foldl (countTurn V group size) r = r') :
    Counted P group votes r' ∧ r'.1.sender = r.1.sender := by
  induction hashes generalizing r with
  | nil => exact hfold ▸ ⟨h, rfl⟩
  | cons hash hashes ih =>
    obtain ⟨hturn, hsender⟩ := h.turn (V := V) hcast size hash
    obtain ⟨hrest, hsender'⟩ := ih hturn hfold
    exact ⟨hrest, hsender'.trans hsender⟩

/-- **What a signature lets a member commit has been decided.** -/
theorem Backed.sigInfo (h : Backed votes w) {walk : Walk}
    (hsig : ∃ v ∈ votes, v.2 = sig) {blocks : List Block}
    (hstep : w.sigInfo P V group walk sig = some (w', blocks)) :
    w'.sender = w.sender ∧ Backed votes w' ∧ ∀ b ∈ blocks, Decided P group votes b := by
  obtain ⟨rfl, -, hsender, -, hblocks, hinfos⟩ | ⟨-, w₁, hsender, -, hblocks, hinfos, hrest⟩ :=
    Member.sigInfo_cases hstep
  · exact ⟨hsender, h.congr hblocks hinfos, nofun⟩
  have hrecord := h.record hsig hblocks hinfos
  obtain ⟨-, rfl, rfl⟩ | ⟨signs, hfold⟩ := hrest
  · exact ⟨hsender, hrecord, nofun⟩
  · have hstart : Counted P group votes (w₁, [], []) := ⟨hrecord, nofun, nofun⟩
    obtain ⟨hcounted, hsender'⟩ := hstart.foldl hcast hfold
    exact ⟨hsender'.trans hsender, hcounted.backed, hcounted.commits⟩

end

/-! ## Runs -/

variable (P group) in
/-- What holds in every run: votes are cast by members for blocks, members hold what was sent, and
what was committed has been decided. -/
structure Sound (σ : System κ) : Prop where
  cast : ∀ v ∈ σ.votes, Cast P group v
  sender : ∀ i, (σ.member i).sender = i
  backed : ∀ i, Backed σ.votes (σ.member i)
  decided : ∀ c ∈ σ.commits, Decided P group σ.votes c.2

/-- No member has signed two blocks with the same parent. -/
def Single (σ : System κ) : Prop :=
  ∀ v ∈ σ.votes, ∀ v' ∈ σ.votes, v.2.sender = v'.2.sender →
    v.1.header.uncleHash = v'.1.header.uncleHash → v.2.blockHash = v'.2.blockHash

/-- A vote that is cast by a member. -/
theorem Sound.vote (h : Sound P group σ) (hi : i ∈ group) (hsender : w'.sender = i)
    (hs : s.sender = i) (hhash : s.blockHash = b.header.hashNoSig P.keccak)
    (hshare : s.preknownSig = ⟨s.sender, s.blockHash⟩)
    (hblocks : w'.sigBlocks = (σ.member i).sigBlocks.insert s.blockHash b)
    (hinfos : w'.sigInfos = (σ.member i).sigInfos.insert s.sender s) :
    Sound P group
      { σ with member := Function.update σ.member i w', votes := σ.votes ++ [(b, s)] } := by
  refine ⟨fun v hv => ?_, ?_, ?_, fun c hc =>
    (h.decided c hc).mono (List.subset_append_left ..)⟩
  · obtain hv | hv := List.mem_append.mp hv
    · exact h.cast v hv
    · rw [List.mem_singleton.mp hv]
      exact ⟨hs ▸ hi, hhash, hshare⟩
  · exact (Function.forall_update_iff σ.member fun j w => w.sender = j).mpr
      ⟨hsender, fun j _ => h.sender j⟩
  · exact (Function.forall_update_iff σ.member fun _ w => Backed (σ.votes ++ [(b, s)]) w).mpr
      ⟨(h.backed i).sign hblocks hinfos, fun j _ => (h.backed j).mono (List.subset_append_left ..)⟩

/-- A member that changes without a vote. -/
theorem Sound.move (h : Sound P group σ) (blocks : List Block) (hsender : w'.sender = i)
    (hbacked : Backed σ.votes w') (hblocks : ∀ b ∈ blocks, Decided P group σ.votes b) :
    Sound P group { σ with
      member := Function.update σ.member i w'
      commits := σ.commits ++ blocks.map fun b => (i, b) } := by
  refine ⟨h.cast, ?_, ?_, fun c hc => ?_⟩
  · exact (Function.forall_update_iff σ.member fun j w => w.sender = j).mpr
      ⟨hsender, fun j _ => h.sender j⟩
  · exact (Function.forall_update_iff σ.member fun _ w => Backed σ.votes w).mpr
      ⟨hbacked, fun j _ => h.backed j⟩
  · obtain hc | hc := List.mem_append.mp hc
    · exact h.decided c hc
    · obtain ⟨b, hb, rfl⟩ := List.mem_map.mp hc
      exact hblocks b hb

/-- **An action keeps the system sound.** -/
theorem Sound.act (h : Sound P group σ) (hact : System.act P V group σ a = some σ') :
    Sound P group σ' := by
  cases a with
  | lastBlock i ord hash b =>
    simp only [System.act] at hact
    split at hact
    · next hi =>
      simp only [bind_eq_some] at hact
      obtain ⟨⟨w, sig⟩, hstep, hact⟩ := hact
      cases hact
      obtain ⟨hsender, ⟨rfl, -, hblocks, hinfos⟩ |
        ⟨s, rfl, hs, hhash, hshare, hblocks, hinfos, -⟩⟩ := Member.lastBlock_cases hstep
      · have hmove := h.move [] (hsender.trans (h.sender i))
          ((h.backed i).congr hblocks hinfos) nofun
        simpa using hmove
      · exact h.vote hi.1 (hsender.trans (h.sender i)) (hs.trans (h.sender i)) hhash hshare hblocks
          hinfos
    · cases hact
  | sigInfo i walk vote =>
    simp only [System.act] at hact
    split at hact
    · next hi =>
      simp only [bind_eq_some] at hact
      obtain ⟨⟨w, blocks⟩, hstep, hact⟩ := hact
      cases hact
      obtain ⟨hsender, hbacked, hdecided⟩ :=
        (h.backed i).sigInfo h.cast ⟨vote, hi.2.2, rfl⟩ hstep
      exact h.move blocks (hsender.trans (h.sender i)) hbacked hdecided
    · cases hact
  | chain i bc =>
    cases hact
    have hmove := h.move [] (show Member.sender { σ.member i with chain := bc } = i from h.sender i)
      ((h.backed i).congr rfl rfl) nofun
    simpa using hmove

/-- **An action of faithful members casts no second vote.** -/
theorem Single.act (hsound : Sound P group σ) (h : Single σ) (hC : Faithful P V σ a)
    (hact : System.act P V group σ a = some σ') : Single σ' := by
  cases a with
  | lastBlock i ord hash b =>
    simp only [System.act] at hact
    split at hact
    swap
    · cases hact
    simp only [bind_eq_some] at hact
    obtain ⟨⟨w, sig⟩, hstep, hact⟩ := hact
    cases hact
    obtain ⟨-, ⟨rfl, -⟩ | ⟨s, rfl, hs, hhash, -⟩⟩ := Member.lastBlock_cases hstep
    · simpa [Single] using h
    have honce : VotesOnce P σ i b := hC _ hstep rfl
    have hsi : s.sender = i := hs.trans (hsound.sender i)
    have hnew : ∀ v ∈ σ.votes, v.2.sender = s.sender → v.1.header.uncleHash = b.header.uncleHash →
        v.2.blockHash = s.blockHash := fun v hv hsender hparent =>
      (honce v hv (hsender.trans hsi) hparent).trans hhash.symm
    intro v hv v' hv' hsender hparent
    obtain hv | hv := List.mem_append.mp hv <;> obtain hv' | hv' := List.mem_append.mp hv'
    · exact h v hv v' hv' hsender hparent
    · obtain rfl := List.mem_singleton.mp hv'
      exact hnew v hv hsender hparent
    · obtain rfl := List.mem_singleton.mp hv
      exact (hnew v' hv' hsender.symm hparent.symm).symm
    · rw [List.mem_singleton.mp hv, List.mem_singleton.mp hv']
  | sigInfo i walk vote =>
    simp only [System.act] at hact
    split at hact
    · simp only [bind_eq_some] at hact
      obtain ⟨_, -, hact⟩ := hact
      cases hact
      exact h
    · cases hact
  | chain i bc =>
    cases hact
    exact h

theorem sound_start (chain : Address → BlockChain) : Sound P group (System.start V chain) :=
  ⟨nofun, fun _ => rfl, fun _ => ⟨nofun, nofun⟩, nofun⟩

/-- Both hold in every run of faithful members. -/
theorem run_sound {chain : Address → BlockChain}
    (hr : System.Run P V group (Faithful P V) (System.start V chain) σ) :
    Sound P group σ ∧ Single σ := by
  induction hr with
  | refl => exact ⟨sound_start chain, nofun⟩
  | tail _ hstep ih =>
    obtain ⟨a, hC, hact⟩ := hstep
    exact ⟨ih.1.act hact, ih.2.act ih.1 hC hact⟩

/-- **Agreement**: in every run in which no member signs two blocks with the same parent, any two
blocks that members commit on the same parent are the same block, up to the signature. -/
theorem commits_agree {chain : Address → BlockChain} {σ : System κ}
    (hr : System.Run P V group (Faithful P V) (System.start V chain) σ)
    (hfree : ∀ v ∈ σ.votes, ∀ v' ∈ σ.votes,
      v.1.header.hashNoSig P.keccak = v'.1.header.hashNoSig P.keccak → v.1.unsigned = v'.1.unsigned)
    {i j : Address} {b b' : Block} (hb : (i, b) ∈ σ.commits) (hb' : (j, b') ∈ σ.commits)
    (hparent : b.header.uncleHash = b'.header.uncleHash) : b.unsigned = b'.unsigned := by
  obtain ⟨hsound, hsingle⟩ := run_sound hr
  have hd := hsound.decided _ hb
  have hd' := hsound.decided _ hb'
  obtain ⟨u, hu, hub, hux⟩ := hd.voted
  obtain ⟨u', hu', hub', hux'⟩ := hd'.voted
  obtain ⟨a, -, ⟨v, hv, hva, hvx⟩, ⟨v', hv', hva', hvx'⟩⟩ := hd.majority.exists_common hd'.majority
  have hparentOf : ∀ {v u : Block × BlockSigInfo} {c : Block}, v ∈ σ.votes → u ∈ σ.votes →
      v.2.blockHash = u.2.blockHash → u.1.unsigned = c.unsigned →
      v.1.header.uncleHash = c.header.uncleHash := fun {v u c} hv hu hx hc =>
    Block.uncleHash_of_unsigned ((hfree v hv u hu (by
      rw [← (hsound.cast v hv).blockHash, hx, (hsound.cast u hu).blockHash])).trans hc)
  have hx : v.2.blockHash = v'.2.blockHash := hsingle v hv v' hv' (hva.trans hva'.symm)
    ((hparentOf hv hu (hvx.trans hux.symm) hub).trans
      (hparent.trans (hparentOf hv' hu' (hvx'.trans hux'.symm) hub').symm))
  have huu : u.1.unsigned = u'.1.unsigned := by
    refine hfree u hu u' hu' ?_
    rw [← (hsound.cast u hu).blockHash, ← (hsound.cast u' hu').blockHash, hux, hux']
    exact hvx.symm.trans (hx.trans hvx')
  exact hub.symm.trans (huu.trans hub')

/-! ## An election -/

section

variable (P V group)

/-- Actions one after the other. -/
def System.acts (σ : System κ) (as : List Action) : Option (System κ) :=
  as.foldlM (System.act P V group) σ

end

/-- Actions that meet the condition are a run. -/
theorem System.run_of_acts {C : System κ → Action → Prop} {as : List Action}
    (hC : Fold.MeetsAlong (System.act P V group) C σ as)
    (h : System.acts P V group σ as = some σ') : System.Run P V group C σ σ' :=
  hC.foldlM (I := System.Run P V group C σ) (fun hrun hC hact => hrun.tail ⟨_, hC, hact⟩) h .refl

end Space

namespace Sample

open Space

/-- Percents are thousands, so to say: a coefficient of `1 / 2 ^ k` is read as `1024 / 2 ^ k`. -/
def lottery : Lottery ℕ where
  byteToFloat32 := BigEndian.ofBytes
  zero := 0
  less := fun x y => decide (x < y)
  less_trans := fun h h' => decide_eq_true ((of_decide_eq_true h).trans (of_decide_eq_true h'))
  near := fun x k => decide (x = 1024 / 2 ^ k)
  signature := fun h => h.bytes

/-- The second epoch block; three members have applied in the first. -/
def secondEpochBlock (head : Block) : Block :=
  let b := child head 1 []
  { b with header := { b.header with number := 6 } }

/-- A chain whose group has three members, and the members. -/
def electorate : Option (List Address × BlockChain) := do
  let bc ← chain
  let (bc, _) ← BlockChain.insert prims .plain bc (epochBlock bc.currentBlock)
  let (bc, _) ← BlockChain.insert prims .plain bc (secondEpochBlock bc.currentBlock)
  let vg ← bc.validateGroup
  let (addrs, _) ← vg.selectConsensus prims 7
  some (addrs, bc)

/-- What a member proposes on the head: a child that it has signed, with its own percent. -/
def proposed (addrs : List Address) (head : Block) (who : Address) : Block :=
  let k := ((Vrf.newVrf prims 0 who addrs).bind fun f =>
    f.validateBlock prims head.numberU64 (head.hash keccak) who).elim 0 Prod.snd
  let b := child head 1 []
  { b with header :=
    { b.header with percent := BigEndian.toBytes (1024 / 2 ^ k), sign := who.bytes } }

/-- The vote of a member for a block. -/
def vote (who : Address) (b : Block) : Block × BlockSigInfo :=
  let hash := b.header.hashNoSig keccak
  (b, ⟨hash, who, b.header.percent, ⟨who, hash⟩⟩)

/-- A block reaches a member. -/
def reaches (who : Address) (b : Block) : Action := .lastBlock who .plain (b.hash keccak) b

/-- The proposal of the first member reaches the first two, which sign it; each is sent the
signature of the other. -/
def oneBallot (a b _c : Address) (first _second : Block) : List Action :=
  [reaches a first, reaches b first, .sigInfo a .plain (vote b first),
    .sigInfo b .plain (vote a first)]

/-- The same, but the second member is reached by the proposal of the third one before the signature
of the first; the third member is sent the second one's signature of it. -/
def twoBallots (a b c : Address) (first second : Block) : List Action :=
  [reaches a first, reaches b first, .sigInfo a .plain (vote b first), reaches b second,
    reaches c second, .sigInfo c .plain (vote b second)]

/-- The members, the chain they share, what happens, and the system after it. -/
structure Election where
  group : List Address
  chain : BlockChain
  actions : List Action
  outcome : System ℕ

/-- The three members, and the proposals of the first and of the third one. -/
def elect (ballots : Address → Address → Address → Block → Block → List Action) :
    Option Election := do
  let (addrs, bc) ← electorate
  match addrs with
  | [a, b, c] => do
    let as := ballots a b c (proposed addrs bc.currentBlock a) (proposed addrs bc.currentBlock c)
    let σ ← System.acts prims lottery addrs (System.start lottery fun _ => bc) as
    some ⟨addrs, bc, as, σ⟩
  | _ => none

theorem acts_of_elect {ballots : Address → Address → Address → Block → Block → List Action}
    {e : Election} (h : elect ballots = some e) :
    System.acts prims lottery e.group (System.start lottery fun _ => e.chain) e.actions
      = some e.outcome := by
  simp only [elect, Option.bind_eq_bind, Option.bind_eq_some_iff] at h
  obtain ⟨⟨addrs, bc⟩, -, h⟩ := h
  simp only at h
  split at h
  · simp only [Option.bind_eq_some_iff] at h
    obtain ⟨σ, hacts, h⟩ := h
    cases h
    exact hacts
  · cases h

end Sample

namespace Space

open Sample (prims lottery elect oneBallot twoBallots acts_of_elect)

/-- The law applies to a ballot on one proposal, which two members commit. -/
theorem commits_agree_oneBallot :
    ∃ e ∈ elect oneBallot, ∃ c ∈ e.outcome.commits, ∃ c' ∈ e.outcome.commits,
      c.1 ≠ c'.1 ∧ c.2.unsigned = c'.2.unsigned := by
  have hrun : ∃ e ∈ elect oneBallot,
      Fold.MeetsAlong (System.act prims lottery e.group) (Faithful prims lottery)
        (System.start lottery fun _ => e.chain) e.actions ∧
      (∀ v ∈ e.outcome.votes, ∀ v' ∈ e.outcome.votes,
        v.1.header.hashNoSig prims.keccak = v'.1.header.hashNoSig prims.keccak →
          v.1.unsigned = v'.1.unsigned) ∧
      ∃ c ∈ e.outcome.commits, ∃ c' ∈ e.outcome.commits,
        c.1 ≠ c'.1 ∧ c.2.header.uncleHash = c'.2.header.uncleHash := by
    decide +kernel
  obtain ⟨e, he, halong, hfree, c, hc, c', hc', hne, hparent⟩ := hrun
  exact ⟨e, he, c, hc, c', hc', hne, commits_agree
    (System.run_of_acts halong (acts_of_elect he)) hfree hc hc' hparent⟩

/-- Three members with the same head, and a group that needs two shares: the first and the third
member commit different blocks on it, because the second one signs both. -/
theorem two_blocks_committed :
    ∃ e ∈ elect twoBallots,
      System.Run prims lottery e.group (fun _ _ => True)
        (System.start lottery fun _ => e.chain) e.outcome ∧
      e.group.length = 3 ∧ threshold e.group = 2 ∧
      ∃ c ∈ e.outcome.commits, ∃ c' ∈ e.outcome.commits, c.1 ∈ e.group ∧ c'.1 ∈ e.group ∧
        c.2.header.uncleHash = e.chain.currentBlock.hash prims.keccak ∧
        c'.2.header.uncleHash = e.chain.currentBlock.hash prims.keccak ∧
        c.2.numberU64 = c'.2.numberU64 ∧ c.2.unsigned ≠ c'.2.unsigned := by
  have hrun : ∃ e ∈ elect twoBallots, e.group.length = 3 ∧
      Fold.MeetsAlong (System.act prims lottery e.group) (fun _ _ => True)
        (System.start lottery fun _ => e.chain) e.actions ∧
      ∃ c ∈ e.outcome.commits, ∃ c' ∈ e.outcome.commits, c.1 ∈ e.group ∧ c'.1 ∈ e.group ∧
        c.2.header.uncleHash = e.chain.currentBlock.hash prims.keccak ∧
        c'.2.header.uncleHash = e.chain.currentBlock.hash prims.keccak ∧
        c.2.numberU64 = c'.2.numberU64 ∧ c.2.unsigned ≠ c'.2.unsigned := by
    decide +kernel
  obtain ⟨e, he, hthree, halong, hcommits⟩ := hrun
  refine ⟨e, he, System.run_of_acts halong (acts_of_elect he), hthree, ?_, hcommits⟩
  rw [threshold, hthree]

end Space

end Gocoin
