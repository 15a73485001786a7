import Gocoin.BlsGroup.Generation
import Gocoin.Space.Decision

/-!
# Space/Ballots — how a member keeps votes

A member keeps one signature for each sender and, when enough of them name one block, forgets all of
them before it verifies the shares.  If every signature it is sent is the share of its sender, this
does no harm: a count that reaches the threshold is a block that is committed, and until then a vote
stays unless its sender replaces it.  So the shares of a majority for one block lead to its commit,
whatever other members vote for (`valid_votes_decide`).

Nothing checks a share when it arrives.  A single bad one — under any name — can complete a count
that then fails, and the votes it was counted with are gone (`bad_share_loses_votes`).
-/

namespace Gocoin

open State

namespace Space

variable {κ : Type} {P : Prims} {V : Lottery κ} {group : List Address} {w w' : Member κ}

/-! ## Valid signatures -/

/-- A signature that carries its sender's share, a member's, of the block it names. -/
def BlockSigInfo.Valid (group : List Address) (info : BlockSigInfo) : Prop :=
  info.sender ∈ group ∧ info.preknownSig = ⟨info.sender, info.blockHash⟩

instance (info : BlockSigInfo) : Decidable (info.Valid group) :=
  inferInstanceAs (Decidable (_ ∧ _))

/-- What a member holds when it is sent nothing else: valid signatures, under their senders, of
blocks that it knows. -/
def Member.Holds (group : List Address) (w : Member κ) : Prop :=
  ∀ e ∈ w.sigInfos.entries, e.2.sender = e.1 ∧ e.2.Valid group ∧ e.2.blockHash ∈ w.sigBlocks

instance (w : Member κ) : Decidable (w.Holds group) :=
  inferInstanceAs (Decidable (∀ e ∈ w.sigInfos.entries, _))

variable {sig : BlockSigInfo} {x : Hash} {size : Hash → ℕ} {b : Block} {blocks : List Block}
  {voters : List Address}

theorem Member.Holds.record (h : w.Holds group) (hsig : sig.Valid group)
    (hmem : sig.blockHash ∈ w.sigBlocks) (hblocks : w'.sigBlocks = w.sigBlocks)
    (hinfos : w'.sigInfos = recordSig V w.sigInfos sig) : w'.Holds group := by
  intro e he
  rw [hinfos] at he
  rw [hblocks]
  obtain rfl | he := mem_entries_recordSig he
  · exact ⟨rfl, hsig, hmem⟩
  · exact h e he

theorem lookup_recordSig_self (V : Lottery κ) (infos : AList fun _ : Address => BlockSigInfo)
    (sig : BlockSigInfo) :
    (recordSig V infos sig).lookup sig.sender = some sig ∧
        (∀ old, infos.lookup sig.sender = some old →
          V.less (V.byteToFloat32 old.percent) (V.byteToFloat32 sig.percent) = true) ∨
      ∃ old, infos.lookup sig.sender = some old ∧
        (recordSig V infos sig).lookup sig.sender = some old := by
  unfold recordSig
  cases hold : infos.lookup sig.sender with
  | none => exact .inl ⟨AList.lookup_insert _, nofun⟩
  | some old =>
    by_cases hless : V.less (V.byteToFloat32 old.percent) (V.byteToFloat32 sig.percent) = true
    · simp only [if_pos hless]
      refine .inl ⟨AList.lookup_insert _, fun old' h => ?_⟩
      rwa [← Option.some.inj h]
    · simp only [if_neg hless]
      exact .inr ⟨old, rfl, hold⟩

theorem lookup_recordSig_of_ne (V : Lottery κ) (infos : AList fun _ : Address => BlockSigInfo)
    {a : Address} (ha : a ≠ sig.sender) :
    (recordSig V infos sig).lookup a = infos.lookup a := by
  unfold recordSig
  cases infos.lookup sig.sender with
  | none => exact AList.lookup_insert_ne ha
  | some old =>
    dsimp only
    split
    · exact AList.lookup_insert_ne ha
    · rfl

/-! ## Counting valid signatures -/

variable {infos : AList fun _ : Address => BlockSigInfo} {y : Hash} {hashes : List Hash}
  {walk : Walk}

theorem mem_sigsOf {info : BlockSigInfo} :
    info ∈ sigsOf infos x ↔ (∃ e ∈ infos.entries, e.2 = info) ∧ info.blockHash = x := by
  simp [sigsOf, List.mem_filter]

/-- The senders of the signatures of a block are different. -/
theorem Member.Holds.nodup_senders (h : w.Holds group) (x : Hash) :
    ((sigsOf w.sigInfos x).map BlockSigInfo.sender).Nodup := by
  have hkeys : (w.sigInfos.entries.map Sigma.snd).map BlockSigInfo.sender = w.sigInfos.keys := by
    rw [List.map_map]
    exact List.map_congr_left fun e he => (h e he).1
  have hsub := (List.filter_sublist (p := fun info : BlockSigInfo => info.blockHash = x)
    (l := w.sigInfos.entries.map Sigma.snd)).map BlockSigInfo.sender
  rw [hkeys] at hsub
  exact hsub.nodup w.sigInfos.keys_nodup

theorem Member.Holds.length_sigsOf_le (h : w.Holds group) (voters : List Address)
    (hvoters : ∀ info ∈ sigsOf w.sigInfos x, info.sender ∈ voters) :
    (sigsOf w.sigInfos x).length ≤ voters.length := by
  have hsub : (sigsOf w.sigInfos x).map BlockSigInfo.sender ⊆ voters := by
    intro a ha
    obtain ⟨info, hinfo, rfl⟩ := List.mem_map.mp ha
    exact hvoters info hinfo
  have hle := ((h.nodup_senders x).subperm hsub).length_le
  rwa [List.length_map] at hle

theorem Member.Holds.length_entries_le (h : w.Holds group) :
    w.sigInfos.entries.length ≤ group.length := by
  have hsub : w.sigInfos.keys ⊆ group := by
    intro a ha
    obtain ⟨e, he, rfl⟩ := List.mem_map.mp ha
    obtain ⟨hsender, hvalid, -⟩ := h e he
    exact hsender ▸ hvalid.1
  have hle := (w.sigInfos.keys_nodup.subperm hsub).length_le
  rwa [show w.sigInfos.keys.length = w.sigInfos.entries.length from List.length_map ..] at hle

theorem length_sigsOf_le_entries (infos : AList fun _ : Address => BlockSigInfo) (x : Hash) :
    (sigsOf infos x).length ≤ infos.entries.length :=
  (List.length_filter_le _ _).trans_eq (List.length_map _)

/-- **At most one block has a majority.** -/
theorem Member.Holds.lt_threshold (h : w.Holds group) (hne : y ≠ x)
    (hx : threshold group ≤ (sigsOf w.sigInfos x).length) :
    (sigsOf w.sigInfos y).length < threshold group := by
  have hsplit := List.length_eq_length_filter_add (l := w.sigInfos.entries.map Sigma.snd)
    fun info : BlockSigInfo => decide (info.blockHash = x)
  have hrest : (sigsOf w.sigInfos y).length ≤ ((w.sigInfos.entries.map Sigma.snd).filter
      fun info => !decide (info.blockHash = x)).length := by
    refine (List.monotone_filter_right _ fun info hinfo => ?_).length_le
    have hy : info.blockHash = y := of_decide_eq_true hinfo
    simp [hy, hne]
  have hle := h.length_entries_le
  rw [List.length_map] at hsplit
  have hx' : threshold group ≤ ((w.sigInfos.entries.map Sigma.snd).filter
      fun info => decide (info.blockHash = x)).length := hx
  unfold threshold at hx' ⊢
  omega

theorem countTurn_of_lt (h : size x < threshold group) (r : Member κ × List BlsSign × List Block) :
    countTurn V group size r x = r :=
  if_neg (Nat.not_le.mpr h)

theorem foldl_countTurn_of_lt (h : ∀ x ∈ hashes, size x < threshold group)
    (r : Member κ × List BlsSign × List Block) :
    hashes.foldl (countTurn V group size) r = r := by
  induction hashes with
  | nil => rfl
  | cons x hashes ih =>
    rw [List.foldl_cons, countTurn_of_lt (h x List.mem_cons_self)]
    exact ih fun y hy => h y (List.mem_cons_of_mem x hy)

/-- A loop in which one block has enough signatures counts that block alone. -/
theorem foldl_countTurn_of_one (hx : x ∈ hashes) (hnodup : hashes.Nodup)
    (hothers : ∀ y, y ≠ x → size y < threshold group) (r : Member κ × List BlsSign × List Block) :
    hashes.foldl (countTurn V group size) r = countTurn V group size r x := by
  induction hashes with
  | nil => cases hx
  | cons y hashes ih =>
    obtain ⟨hy, hnodup⟩ := List.nodup_cons.mp hnodup
    rw [List.foldl_cons]
    by_cases hyx : y = x
    · subst hyx
      exact foldl_countTurn_of_lt (fun z hz => hothers z fun he => hy (he ▸ hz)) _
    · rw [countTurn_of_lt (hothers y hyx)]
      exact ih (List.mem_of_ne_of_mem (Ne.symm hyx) hx) hnodup

/-- Valid signatures verify. -/
theorem Member.Holds.verigy (h : w.Holds group)
    (hsize : threshold group ≤ (sigsOf w.sigInfos x).length) :
    Space.verigy group ((sigsOf w.sigInfos x).map BlockSigInfo.preknownSig) x = true := by
  have hshare : ∀ info ∈ sigsOf w.sigInfos x,
      info.sender ∈ group ∧ info.preknownSig = ⟨info.sender, x⟩ := by
    intro info hinfo
    obtain ⟨⟨e, he, rfl⟩, rfl⟩ := mem_sigsOf.mp hinfo
    exact (h e he).2.1
  have hids : ((sigsOf w.sigInfos x).map BlockSigInfo.preknownSig).map BlsSign.id
      = (sigsOf w.sigInfos x).map BlockSigInfo.sender := by
    rw [List.map_map]
    exact List.map_congr_left fun info hinfo => congrArg BlsSign.id (hshare info hinfo).2
  refine decide_eq_true ⟨by rwa [List.length_map], hids ▸ h.nodup_senders x, fun s hs => ?_⟩
  obtain ⟨info, hinfo, rfl⟩ := List.mem_map.mp hs
  obtain ⟨hmem, hsign⟩ := hshare info hinfo
  rw [hsign]
  exact ⟨hmem, rfl⟩

/-- **A count that reaches the threshold is a commit.** -/
theorem Member.Holds.countTurn (h : w.Holds group) (hb : w.sigBlocks.lookup x = some b)
    (hsize : size x = (sigsOf w.sigInfos x).length)
    (hx : threshold group ≤ (sigsOf w.sigInfos x).length) :
    countTurn V group size (w, [], []) x
      = ({ w with sigInfos := ∅, coefficientMax := V.zero, sigBlocks := ∅ },
        (sigsOf w.sigInfos x).map BlockSigInfo.preknownSig, [b.setSigner (V.signature x)]) := by
  unfold Space.countTurn
  simp only [hsize, if_pos hx, List.nil_append, if_pos (h.verigy hx), hb]

/-- **What the ideal check stands for**: where the members' keys are shares of one polynomial of a
degree below the threshold, as key generation leaves them, `Verigy` of every member accepts what the
ideal check accepts, and recovers the group's signature. -/
theorem verigy_realised {F G₁ G₂ : Type} [Field F] [DecidableEq F] [AddCommGroup G₁] [Module F G₁]
    [AddCommGroup G₂] [Module F G₂] {lib : Bls.Library F G₁ G₂} {p : Polynomial F}
    {bls : Address → Bls.BlsGroup F G₂} (hn : 2 ≤ group.length)
    (hids : (group.map lib.setLittleEndian).Nodup) (hzero : 0 ∉ group.map lib.setLittleEndian)
    (hdegree : p.degree < threshold group)
    (hkeys : ∀ a ∈ group, (bls a).selfID = lib.setLittleEndian a ∧
      (bls a).key = (p.eval (lib.setLittleEndian a), p.eval 0 • lib.base))
    {signs : List BlsSign} {msg : Hash} (h : verigy group signs msg = true) {a : Address}
    (ha : a ∈ group) :
    (bls a).verigy lib (signs.map fun s => (bls s.id).sign lib s.msg.bytes) msg.bytes
      = some (true, p.eval 0 • lib.hashTo msg.bytes) := by
  obtain ⟨hlen, hnodup, hall⟩ := of_decide_eq_true h
  have hsub : signs.map BlsSign.id ⊆ group := fun i hi => by
    obtain ⟨s, hs, rfl⟩ := List.mem_map.mp hi
    exact (hall s hs).1
  have hshares : signs.map (fun s => (bls s.id).sign lib s.msg.bytes)
      = (signs.map BlsSign.id).map fun i => (bls i).sign lib msg.bytes := by
    rw [List.map_map]
    exact List.map_congr_left fun s hs => by rw [(hall s hs).2]; rfl
  have htwo : 2 ≤ threshold group := by
    unfold threshold
    omega
  rw [hshares]
  refine Bls.BlsGroup.verigy_quorum hids hzero hkeys hnodup hsub ?_ ?_ ha
  · rw [List.length_map]
    omega
  · rw [List.length_map]
    exact hdegree.trans_le (by exact_mod_cast hlen)

/-! ## One signature -/

/-- **What a valid signature does**: nothing, when it is not looked at; otherwise it is recorded,
and either no block has a majority or the one that has is committed. -/
theorem Member.Holds.sigInfo_cases (h : w.Holds group) (hsig : sig.Valid group)
    (hstep : w.sigInfo P V group walk sig = some (w', blocks)) :
    w'.sender = w.sender ∧
      ((blocks = [] ∧ w.takesPart P sig = false ∧ w'.coefficientMax = w.coefficientMax ∧
          w'.sigBlocks = w.sigBlocks ∧ w'.sigInfos = w.sigInfos) ∨
        (blocks = [] ∧ sig.blockHash ∈ w.sigBlocks ∧ w'.coefficientMax = w.coefficientMax ∧
          w'.sigBlocks = w.sigBlocks ∧ w'.sigInfos = recordSig V w.sigInfos sig ∧
          w'.Holds group ∧ ∀ x, (sigsOf w'.sigInfos x).length < threshold group) ∨
        ∃ (w₁ : Member κ) (x : Hash) (b : Block), w₁.Holds group ∧
          w₁.sigInfos = recordSig V w.sigInfos sig ∧
          threshold group ≤ (sigsOf w₁.sigInfos x).length ∧ w.sigBlocks.lookup x = some b ∧
          blocks = [b.setSigner (V.signature x)] ∧ w'.sigInfos = ∅) := by
  obtain ⟨rfl, hpart, hsender, hmax, hblocks, hinfos⟩ |
    ⟨hmem, w₁, hsender, hmax, hblocks, hinfos, hrest⟩ := Member.sigInfo_cases hstep
  · exact ⟨hsender, .inl ⟨rfl, hpart, hmax, hblocks, hinfos⟩⟩
  have hholds : w₁.Holds group := h.record hsig hmem hblocks hinfos
  obtain ⟨hfew, rfl, rfl⟩ | ⟨signs, hfold⟩ := hrest
  · refine ⟨hsender, .inr (.inl ⟨rfl, hmem, hmax, hblocks, hinfos, hholds, fun x => ?_⟩)⟩
    exact (length_sigsOf_le_entries _ x).trans_lt (List.length_map _ ▸ hfew)
  have hperm := walk.perm (w₁.sigInfos.entries.map fun e => e.2.blockHash).dedup
  by_cases hmajority : ∃ x, threshold group ≤ (sigsOf w₁.sigInfos x).length
  · obtain ⟨x, hx⟩ := hmajority
    obtain ⟨info, hinfo⟩ := List.exists_mem_of_length_pos
      (lt_of_lt_of_le (Nat.succ_pos _) hx : 0 < (sigsOf w₁.sigInfos x).length)
    obtain ⟨⟨e, he, rfl⟩, hhash⟩ := mem_sigsOf.mp hinfo
    have hknown : x ∈ w₁.sigBlocks := hhash ▸ (hholds e he).2.2
    obtain ⟨b, hlookup⟩ := Option.isSome_iff_exists.mp (AList.lookup_isSome.mpr hknown)
    have hxmem : x ∈ walk.walk (w₁.sigInfos.entries.map fun e => e.2.blockHash).dedup := by
      rw [hperm.mem_iff, List.mem_dedup]
      exact List.mem_map.mpr ⟨e, he, hhash⟩
    rw [foldl_countTurn_of_one hxmem (hperm.nodup_iff.mpr (List.nodup_dedup _))
      (fun y hy => hholds.lt_threshold hy hx), hholds.countTurn hlookup rfl hx] at hfold
    cases hfold
    exact ⟨hsender, .inr (.inr ⟨w₁, x, b, hholds, hinfos, hx, hblocks ▸ hlookup, rfl, rfl⟩)⟩
  · push Not at hmajority
    rw [foldl_countTurn_of_lt fun x _ => hmajority x] at hfold
    cases hfold
    exact ⟨hsender, .inr (.inl ⟨rfl, hmem, hmax, hblocks, hinfos, hholds, hmajority⟩)⟩

theorem Member.Holds.length_le_sigsOf (h : w.Holds group) (hnodup : voters.Nodup)
    (hstored : ∀ a ∈ voters, ∃ info, w.sigInfos.lookup a = some info ∧ info.blockHash = x) :
    voters.length ≤ (sigsOf w.sigInfos x).length := by
  have hsub : voters ⊆ (sigsOf w.sigInfos x).map BlockSigInfo.sender := by
    intro a ha
    obtain ⟨info, hlookup, hhash⟩ := hstored a ha
    have he := AList.mem_lookup_iff.mp hlookup
    exact List.mem_map.mpr ⟨info, mem_sigsOf.mpr ⟨⟨_, he, rfl⟩, hhash⟩, (h _ he).1⟩
  have hle := (hnodup.subperm hsub).length_le
  rwa [List.length_map] at hle

/-- Where a majority is stored for one block or not at all, no other block has one. -/
theorem Member.Holds.eq_of_majority (h : w.Holds group) (hnodup : voters.Nodup)
    (hsub : voters ⊆ group) (hlen : threshold group ≤ voters.length)
    (hstored : ∀ a ∈ voters, ∀ info, w.sigInfos.lookup a = some info → info.blockHash = x)
    (hy : threshold group ≤ (sigsOf w.sigInfos y).length) : y = x := by
  by_contra hne
  have hle := h.length_sigsOf_le (x := y) (group.filter fun a => a ∉ voters) (by
    intro info hinfo
    obtain ⟨⟨e, he, rfl⟩, rfl⟩ := mem_sigsOf.mp hinfo
    obtain ⟨hsender, hvalid, -⟩ := h e he
    refine List.mem_filter.mpr ⟨hvalid.1, decide_eq_true fun hv => hne ?_⟩
    exact hstored _ hv e.2 (AList.mem_lookup_iff.mpr (hsender ▸ he)))
  have hin := (hnodup.subperm fun a ha =>
    List.mem_filter.mpr ⟨hsub ha, decide_eq_true ha⟩ :
      voters.Subperm (group.filter fun a => a ∈ voters)).length_le
  have hsplit := List.length_eq_length_filter_add (l := group) fun a => decide (a ∈ voters)
  simp only [decide_not] at hle
  unfold threshold at hlen hy
  omega

/-- What members are stored for stays when one of them sends a signature of the same block. -/
theorem blockHash_of_recordSig
    (hstored : ∀ a ∈ voters, ∀ info, infos.lookup a = some info → info.blockHash = x)
    (hsig : sig.sender ∈ voters → sig.blockHash = x) :
    ∀ a ∈ voters, ∀ info, (recordSig V infos sig).lookup a = some info → info.blockHash = x := by
  intro a ha info hinfo
  by_cases hsender : a = sig.sender
  · subst hsender
    rcases lookup_recordSig_self V infos sig with ⟨hnew, -⟩ | ⟨old, hold, hkept⟩
    · rw [hnew, Option.some.injEq] at hinfo
      exact hinfo ▸ hsig ha
    · rw [hkept, Option.some.injEq] at hinfo
      exact hinfo ▸ hstored _ ha old hold
  · rw [lookup_recordSig_of_ne V infos hsender] at hinfo
    exact hstored a ha info hinfo

/-! ## One turn

A run is one of a worker's turns: blocks arrive, signatures arrive, the worker builds blocks, and
its chain moves on. -/

section

variable (V) in
/-- A coefficient is not above another one. -/
def Lottery.AtMost (x y : κ) : Prop := x = y ∨ V.less x y = true

instance [DecidableEq κ] (x y : κ) : Decidable (V.AtMost x y) :=
  inferInstanceAs (Decidable (_ ∨ _))

theorem Lottery.AtMost.less {x y z : κ} (h : V.AtMost x y) (h' : V.less y z = true) :
    V.less x z = true := by
  obtain rfl | h := h
  · exact h'
  · exact V.less_trans h h'

variable (V group) in
/-- What is asked of a signature that reaches a worker: it is its sender's share, with the percent
of the block it names, and under the worker's own name it is not above what the worker has signed —
as those that the worker itself sends.  Nothing is asked of other turns. -/
def WorkerTurn.Valid (w : Member κ) : WorkerTurn → Prop
  | .sigInfo _ sig => sig.Valid group ∧
      (∀ b ∈ w.sigBlocks.lookup sig.blockHash, sig.percent = b.header.percent) ∧
      (sig.sender = w.sender → V.AtMost (V.byteToFloat32 sig.percent) w.coefficientMax)
  | _ => True

instance [DecidableEq κ] (w : Member κ) : DecidablePred (WorkerTurn.Valid V group w)
  | .sigInfo .. => inferInstanceAs (Decidable (_ ∧ _ ∧ _))
  | .lastBlock .. | .buildBlock .. | .chain .. => .isTrue trivial

variable (V) in
/-- The turn is a vote of a member for a block with a larger coefficient than an older vote of it
has: the worker's own, for a block that arrives, or one that arrives. -/
def WorkerTurn.Outbids (w : Member κ) (a : Address) (info : BlockSigInfo) : WorkerTurn → Prop
  | .lastBlock _ _ b => w.sender = a ∧
      V.less (V.byteToFloat32 info.percent) (V.byteToFloat32 b.header.percent) = true
  | .sigInfo _ sig => sig.sender = a ∧ ∃ b ∈ w.sigBlocks.lookup sig.blockHash,
      V.less (V.byteToFloat32 info.percent) (V.byteToFloat32 b.header.percent) = true
  | _ => False

variable (V group) in
/-- What holds of a worker that valid signatures reach: it holds valid votes, and its own is not
above what it has signed. -/
structure Member.Kept (w : Member κ) : Prop where
  self : w.sender ∈ group
  holds : w.Holds group
  own : ∀ info, w.sigInfos.lookup w.sender = some info →
    V.AtMost (V.byteToFloat32 info.percent) w.coefficientMax

variable {p p' : Publisher κ} {t : WorkerTurn} {ts : List WorkerTurn}

/-- What does not touch the votes keeps them. -/
theorem Member.Kept.congr (h : w.Kept V group) (hsender : w'.sender = w.sender)
    (hmax : w'.coefficientMax = w.coefficientMax) (hinfos : w'.sigInfos = w.sigInfos)
    (hblocks : ∀ x ∈ w.sigBlocks, x ∈ w'.sigBlocks) : w'.Kept V group := by
  refine ⟨hsender ▸ h.self, fun e he => ?_, ?_⟩
  · obtain ⟨hkey, hvalid, hmem⟩ := h.holds e (hinfos ▸ he)
    exact ⟨hkey, hvalid, hblocks _ hmem⟩
  · rw [hsender, hmax, hinfos]
    exact h.own

/-- A worker that signs a block holds its own vote, and loses no other; its older vote was for a
block with a smaller coefficient. -/
theorem Member.Kept.lastBlock (h : w.Kept V group) {ord : IterOrder} {hash : Hash}
    {sig : Option BlockSigInfo} (hstep : w.lastBlock P V ord hash b = some (w', sig)) :
    w'.Kept V group ∧ ∀ a info, w.sigInfos.lookup a = some info →
      w'.sigInfos.lookup a = some info ∨ w.sender = a ∧
        V.less (V.byteToFloat32 info.percent) (V.byteToFloat32 b.header.percent) = true := by
  obtain ⟨hsender, ⟨-, hmax, hblocks, hinfos⟩ |
    ⟨s, -, hs, -, hshare, hblocks, hinfos, hpercent, hless, hmax⟩⟩ := Member.lastBlock_cases hstep
  · refine ⟨h.congr hsender hmax hinfos fun x hx => hblocks ▸ hx, fun a info hinfo => .inl ?_⟩
    rwa [hinfos]
  refine ⟨⟨hsender ▸ h.self, fun e he => ?_, fun info hinfo => ?_⟩, fun a info hinfo => ?_⟩
  · rw [hinfos] at he
    rw [hblocks, AList.mem_insert]
    obtain rfl | he := mem_entries_insert he
    · exact ⟨rfl, ⟨hs ▸ h.self, hshare⟩, .inl rfl⟩
    · obtain ⟨hkey, hvalid, hmem⟩ := h.holds e he
      exact ⟨hkey, hvalid, .inr hmem⟩
  · rw [hinfos, hsender, ← hs, AList.lookup_insert, Option.some.injEq] at hinfo
    exact .inl (hinfo ▸ hmax.symm)
  · rw [hinfos]
    by_cases ha : a = s.sender
    · have hown := h.own info (by rw [← hs, ← ha, hinfo])
      exact .inr ⟨(ha.trans hs).symm, hpercent ▸ hown.less hless⟩
    · exact .inl ((AList.lookup_insert_ne ha).trans hinfo)

/-- **A valid signature loses no vote**, unless a block is committed or the voter itself sends one
of a block with a larger coefficient. -/
theorem Member.Kept.sigInfo (h : w.Kept V group)
    (ht : (WorkerTurn.sigInfo walk sig).Valid V group w)
    (hstep : w.sigInfo P V group walk sig = some (w', blocks)) :
    w'.Kept V group ∧ ∀ a info, w.sigInfos.lookup a = some info →
      w'.sigInfos.lookup a = some info ∨ blocks ≠ [] ∨
        (WorkerTurn.sigInfo walk sig).Outbids V w a info := by
  obtain ⟨hsig, hpercent, hown⟩ := ht
  obtain ⟨hsender, ⟨rfl, -, hmax, hblocks, hinfos⟩ |
    ⟨rfl, hmem, hmax, hblocks, hinfos, hholds, -⟩ | ⟨-, x, b, -, -, -, -, rfl, hinfos⟩⟩ :=
    h.holds.sigInfo_cases hsig hstep
  · refine ⟨h.congr hsender hmax hinfos fun x hx => hblocks ▸ hx, fun a info hinfo => .inl ?_⟩
    rwa [hinfos]
  · refine ⟨⟨hsender ▸ h.self, hholds, fun info hinfo => ?_⟩, fun a info hinfo => ?_⟩
    · rw [hinfos, hsender] at hinfo
      rw [hmax]
      by_cases hself : w.sender = sig.sender
      · rw [hself] at hinfo
        rcases lookup_recordSig_self V w.sigInfos sig with ⟨hnew, -⟩ | ⟨old, hold, hkept⟩
        · rw [hnew, Option.some.injEq] at hinfo
          exact hinfo ▸ hown hself.symm
        · exact h.own info (by rw [hself, hold, ← hkept, hinfo])
      · rw [lookup_recordSig_of_ne V _ hself] at hinfo
        exact h.own info hinfo
    · rw [hinfos]
      by_cases ha : a = sig.sender
      · subst ha
        rcases lookup_recordSig_self V w.sigInfos sig with ⟨-, hless⟩ | ⟨old, hold, hkept⟩
        · obtain ⟨b, hb⟩ := Option.isSome_iff_exists.mp (AList.lookup_isSome.mpr hmem)
          exact .inr (.inr ⟨rfl, b, hb, hpercent b hb ▸ hless info hinfo⟩)
        · rw [hkept, ← hold]
          exact .inl hinfo
      · rw [lookup_recordSig_of_ne V _ ha]
        exact .inl hinfo
  · refine ⟨⟨hsender ▸ h.self, fun e he => ?_, fun info hinfo => ?_⟩, fun a info _ =>
      .inr (.inl (List.cons_ne_nil _ _))⟩
    · rw [hinfos] at he
      cases he
    · rw [hinfos, AList.lookup_empty] at hinfo
      cases hinfo

/-- **A turn loses no vote**, unless it commits a block or is a vote of the same member for a block
with a larger coefficient. -/
theorem Member.Kept.turn (h : p.worker.Kept V group) (ht : t.Valid V group p.worker)
    (hturn : p.turn P V group t = some p') :
    p'.worker.Kept V group ∧ ∃ blocks, p'.published = p.published ++ blocks ∧
      ∀ a info, p.worker.sigInfos.lookup a = some info →
        p'.worker.sigInfos.lookup a = some info ∨ blocks ≠ [] ∨ t.Outbids V p.worker a info := by
  cases t with
  | lastBlock ord hash b =>
    simp only [Publisher.turn, bind_eq_some, Prod.exists, Option.some.injEq] at hturn
    obtain ⟨w, sig, hstep, rfl⟩ := hturn
    obtain ⟨hkept, hvotes⟩ := h.lastBlock hstep
    exact ⟨hkept, [], (List.append_nil _).symm, fun a info hinfo =>
      (hvotes a info hinfo).imp_right .inr⟩
  | sigInfo walk sig =>
    simp only [Publisher.turn, bind_eq_some, Prod.exists, Option.some.injEq] at hturn
    obtain ⟨w, blocks, hstep, rfl⟩ := hturn
    obtain ⟨hkept, hvotes⟩ := h.sigInfo ht hstep
    exact ⟨hkept, blocks, rfl, hvotes⟩
  | buildBlock ord who txs =>
    simp only [Publisher.turn, bind_eq_some, Prod.exists, Option.some.injEq] at hturn
    obtain ⟨w, block, hstep, rfl⟩ := hturn
    obtain ⟨hsender, hmax, hinfos, hblocks⟩ := Member.buildBlock_cases hstep
    refine ⟨h.congr hsender hmax hinfos fun x hx => ?_, [], (List.append_nil _).symm,
      fun a info hinfo => .inl ?_⟩
    · obtain hblocks | ⟨b, -, hblocks⟩ := hblocks
      · rwa [hblocks]
      · rw [hblocks, AList.mem_insert]
        exact .inr hx
    · rwa [hinfos]
  | chain bc =>
    cases hturn
    exact ⟨h.congr rfl rfl rfl fun _ => id, [], (List.append_nil _).symm, fun a info => .inl⟩

/-! ## A majority -/

/-- The signature that a turn brings. -/
def WorkerTurn.sig? : WorkerTurn → Option BlockSigInfo
  | .sigInfo _ sig => some sig
  | _ => none

/-- The signatures that arrive in a run. -/
def arrivals (ts : List WorkerTurn) : List BlockSigInfo := ts.filterMap WorkerTurn.sig?

variable (P V) in
/-- The turn does not disturb a vote on the block with a hash: of the voters only signatures of that
block arrive, and the worker looks at them while it knows the block; it signs blocks with other
hashes only, and none when it is a voter; and it builds no block with the hash. -/
def WorkerTurn.Backs (x : Hash) (voters : List Address) (w : Member κ) : WorkerTurn → Prop
  | .lastBlock ord hash b => ∀ r ∈ w.lastBlock P V ord hash b, r.2.isSome →
      w.sender ∉ voters ∧ b.header.hashNoSig P.keccak ≠ x
  | .sigInfo _ sig => sig.sender ∈ voters →
      sig.blockHash = x ∧ (x ∈ w.sigBlocks → w.takesPart P sig = true)
  | .buildBlock ord who txs => ∀ r ∈ w.buildBlock P ord who txs, ∀ b ∈ r.2, b.hash P.keccak ≠ x
  | .chain _ => True

instance (x : Hash) (voters : List Address) (w : Member κ) :
    DecidablePred (WorkerTurn.Backs P V x voters w)
  | .lastBlock .. => inferInstanceAs (Decidable (∀ r ∈ _, _ → _))
  | .sigInfo .. => inferInstanceAs (Decidable (_ → _ ∧ (_ → _)))
  | .buildBlock ord who txs =>
    inferInstanceAs (Decidable (∀ r ∈ w.buildBlock P ord who txs, ∀ b ∈ r.2, _))
  | .chain _ => .isTrue trivial

variable (group) in
/-- A vote that is going on: the worker knows the block, voters are stored for no other, the
signatures of the rest are to arrive, and the block will be counted. -/
structure Member.Awaits (x : Hash) (b : Block) (voters : List Address) (w : Member κ)
    (ts : List WorkerTurn) : Prop where
  block : w.sigBlocks.lookup x = some b
  stored : ∀ a ∈ voters, ∀ info, w.sigInfos.lookup a = some info → info.blockHash = x
  sent : ∀ a ∈ voters, (∃ info, w.sigInfos.lookup a = some info) ∨
    ∃ sig ∈ arrivals ts, sig.sender = a
  counted : (sigsOf w.sigInfos x).length < threshold group ∨
    ∃ sig ∈ arrivals ts, sig.sender ∈ voters

/-- A turn that is no vote for the block leaves the vote going on. -/
theorem Member.Awaits.keep (h : w.Awaits group x b voters (t :: ts))
    (ht : ∀ sig ∈ t.sig?, sig.sender ∉ voters)
    (hblock : w'.sigBlocks.lookup x = w.sigBlocks.lookup x)
    (hinfos : ∀ a ∈ voters, w'.sigInfos.lookup a = w.sigInfos.lookup a)
    (hcount : (sigsOf w'.sigInfos x).length ≤ (sigsOf w.sigInfos x).length) :
    w'.Awaits group x b voters ts := by
  have hrest : ∀ sig ∈ arrivals (t :: ts), sig.sender ∈ voters → sig ∈ arrivals ts := by
    intro sig hsig hmem
    obtain ⟨t', ht', hsig'⟩ := List.mem_filterMap.mp hsig
    obtain rfl | ht' := List.mem_cons.mp ht'
    · exact absurd hmem (ht sig hsig')
    · exact List.mem_filterMap.mpr ⟨t', ht', hsig'⟩
  refine ⟨hblock.trans h.block, fun a ha => hinfos a ha ▸ h.stored a ha, fun a ha => ?_, ?_⟩
  · rw [hinfos a ha]
    exact (h.sent a ha).imp_right fun ⟨sig, hsig, hs⟩ => ⟨sig, hrest sig hsig (hs ▸ ha), hs⟩
  · exact h.counted.imp (lt_of_le_of_lt hcount) fun ⟨sig, hsig, hs⟩ => ⟨sig, hrest sig hsig hs, hs⟩

/-- A vote for another block adds nothing to a count. -/
theorem length_sigsOf_insert_le {a : Address} (hx : sig.blockHash ≠ x) :
    (sigsOf (infos.insert a sig) x).length ≤ (sigsOf infos x).length := by
  unfold sigsOf
  rw [AList.entries_insert, List.map_cons, List.filter_cons_of_neg (by simpa using hx)]
  exact (((List.kerase_sublist a _).map _).filter _).length_le

/-- **A turn of a vote that is going on**: it goes on, or the block is committed. -/
theorem Member.Awaits.turn (h : p.worker.Awaits group x b voters (t :: ts))
    (hkept : p.worker.Kept V group) (hnodup : voters.Nodup) (hsub : voters ⊆ group)
    (hlen : threshold group ≤ voters.length) (hvalid : t.Valid V group p.worker)
    (hbacks : t.Backs P V x voters p.worker) (hturn : p.turn P V group t = some p') :
    p'.published = p.published ++ [b.setSigner (V.signature x)] ∨
      p'.published = p.published ∧ p'.worker.Awaits group x b voters ts := by
  cases t with
  | lastBlock ord hash b' =>
    simp only [Publisher.turn, bind_eq_some, Prod.exists, Option.some.injEq] at hturn
    obtain ⟨w, sig, hstep, rfl⟩ := hturn
    refine .inr ⟨rfl, ?_⟩
    obtain ⟨-, ⟨-, -, hblocks, hinfos⟩ | ⟨s, rfl, hs, hhash, -, hblocks, hinfos, -⟩⟩ :=
      Member.lastBlock_cases hstep
    · exact h.keep (by simp [WorkerTurn.sig?]) (by rw [hblocks]) (fun a _ => by rw [hinfos])
        (by rw [hinfos])
    · obtain ⟨hself, hne⟩ := hbacks _ hstep rfl
      rw [← hhash] at hne
      refine h.keep (by simp [WorkerTurn.sig?]) ?_ (fun a ha => ?_) ?_
      · rw [hblocks, AList.lookup_insert_ne hne.symm]
      · rw [hinfos, AList.lookup_insert_ne fun he : a = s.sender => hself (hs ▸ he ▸ ha)]
      · rw [hinfos]
        exact length_sigsOf_insert_le hne
  | sigInfo walk sig =>
    simp only [Publisher.turn, bind_eq_some, Prod.exists, Option.some.injEq] at hturn
    obtain ⟨w, blocks, hstep, rfl⟩ := hturn
    have hknown : x ∈ p.worker.sigBlocks := AList.lookup_isSome.mp (by rw [h.block]; rfl)
    have hstored := blockHash_of_recordSig (V := V) h.stored fun hmem => (hbacks hmem).1
    obtain ⟨-, ⟨rfl, hpart, -, hblocks, hinfos⟩ | ⟨rfl, -, -, hblocks, hinfos, hholds, hlow⟩ |
      ⟨w₀, y, b', hholds, hinfos, hcount, hlookup, rfl, -⟩⟩ :=
      hkept.holds.sigInfo_cases hvalid.1 hstep
    · refine .inr ⟨List.append_nil _, h.keep (fun s hs hmem => ?_) (by rw [hblocks])
        (fun a _ => by rw [hinfos]) (by rw [hinfos])⟩
      cases hs
      rw [(hbacks hmem).2 hknown] at hpart
      cases hpart
    · refine .inr ⟨List.append_nil _, (congrArg (AList.lookup x) hblocks).trans h.block,
        hinfos ▸ hstored, fun a ha => ?_, .inl (hlow x)⟩
      rw [hinfos]
      by_cases hsender : a = sig.sender
      · subst hsender
        rcases lookup_recordSig_self V p.worker.sigInfos sig with ⟨hnew, -⟩ | ⟨old, -, hkeep⟩
        · exact .inl ⟨_, hnew⟩
        · exact .inl ⟨_, hkeep⟩
      · rw [lookup_recordSig_of_ne V _ hsender]
        refine (h.sent a ha).imp_right fun ⟨s, hs, hsa⟩ => ⟨s, ?_, hsa⟩
        exact (List.mem_cons.mp hs).resolve_left fun he => hsender (by rw [← hsa, he])
    · obtain rfl : y = x := hholds.eq_of_majority hnodup hsub hlen (hinfos ▸ hstored) hcount
      rw [h.block, Option.some.injEq] at hlookup
      exact .inl (by rw [hlookup])
  | buildBlock ord who txs =>
    simp only [Publisher.turn, bind_eq_some, Prod.exists, Option.some.injEq] at hturn
    obtain ⟨w, block, hstep, rfl⟩ := hturn
    obtain ⟨-, -, hinfos, hblocks⟩ := Member.buildBlock_cases hstep
    refine .inr ⟨rfl, h.keep (by simp [WorkerTurn.sig?]) ?_ (fun a _ => by rw [hinfos])
      (by rw [hinfos])⟩
    obtain hblocks | ⟨b', rfl, hblocks⟩ := hblocks
    · rw [hblocks]
    · rw [hblocks, AList.lookup_insert_ne (hbacks _ hstep b' rfl).symm]
  | chain bc =>
    cases hturn
    exact .inr ⟨rfl, h.keep (by simp [WorkerTurn.sig?]) rfl (fun _ _ => rfl) le_rfl⟩

/-- What has been published stays published. -/
theorem Publisher.exists_published_append (hts : p.turns P V group ts = some p') :
    ∃ blocks, p'.published = p.published ++ blocks := by
  refine Fold.foldlM_keeps (I := fun q => ∃ blocks, q.published = p.published ++ blocks) ?_ hts
    ⟨[], (List.append_nil _).symm⟩
  rintro q t q' ⟨blocks, hq⟩ hturn
  cases t <;> simp only [Publisher.turn, bind_eq_some, Prod.exists, Option.some.injEq] at hturn
  case sigInfo =>
    obtain ⟨w, new, -, rfl⟩ := hturn
    exact ⟨blocks ++ new, by rw [hq, List.append_assoc]⟩
  case chain =>
    subst hturn
    exact ⟨blocks, hq⟩
  all_goals
    obtain ⟨_, _, -, rfl⟩ := hturn
    exact ⟨blocks, hq⟩

/-- **A majority that votes for one block decides it.** -/
theorem Member.Awaits.decides (h : p.worker.Awaits group x b voters ts)
    (hkept : p.worker.Kept V group) (hnodup : voters.Nodup) (hsub : voters ⊆ group)
    (hlen : threshold group ≤ voters.length)
    (hvalid : Fold.MeetsAlong (Publisher.turn P V group) (fun q t => t.Valid V group q.worker) p ts)
    (hbacks : Fold.MeetsAlong (Publisher.turn P V group)
      (fun q t => t.Backs P V x voters q.worker) p ts) (hts : p.turns P V group ts = some p') :
    ∃ rest, p'.published = p.published ++ b.setSigner (V.signature x) :: rest := by
  induction ts generalizing p with
  | nil =>
    have hcount := hkept.holds.length_le_sigsOf hnodup (x := x) fun a ha => by
      obtain ⟨info, hinfo⟩ := (h.sent a ha).resolve_right (by simp [arrivals])
      exact ⟨info, hinfo, h.stored a ha info hinfo⟩
    have hlt := h.counted.resolve_right (by simp [arrivals])
    omega
  | cons t ts ih =>
    obtain ⟨q, hturn, hts⟩ := Fold.foldlM_cons_eq_some.mp hts
    obtain hcommit | ⟨hsame, hawaits⟩ :=
      h.turn hkept hnodup hsub hlen hvalid.1 hbacks.1 hturn
    · obtain ⟨rest, hrest⟩ := Publisher.exists_published_append hts
      exact ⟨rest, by rw [hrest, hcommit, List.append_assoc, List.singleton_append]⟩
    · rw [← hsame]
      exact ih hawaits (hkept.turn hvalid.1 hturn).1 (hvalid.2 q hturn) (hbacks.2 q hturn) hts

end

/-! ## The law -/

/-- **Votes are kept as long as every signature is valid.**  A worker of the group runs from its
start, over blocks that arrive, signatures that arrive and blocks that it builds, in any order.
Then it holds valid votes of blocks it knows.  In whatever run follows, a vote that it holds is kept
until a block is committed, unless the same member votes for a block with a larger coefficient; and
when the signatures of a majority for one block arrive, among any valid signatures of others, that
block — and no other before it — is committed. -/
theorem valid_votes_decide (P : Prims) (V : Lottery κ) (group : List Address) {sender : Address}
    (hself : sender ∈ group) (chain : BlockChain) {before after : List WorkerTurn}
    {p p' : Publisher κ}
    (hvalid : Fold.MeetsAlong (Publisher.turn P V group) (fun q t => t.Valid V group q.worker)
      (Publisher.start V sender chain) before)
    (hbefore : (Publisher.start V sender chain).turns P V group before = some p)
    (hvalid' : Fold.MeetsAlong (Publisher.turn P V group) (fun q t => t.Valid V group q.worker)
      p after) (hafter : p.turns P V group after = some p') :
    p.worker.Holds group ∧ ∃ blocks, p'.published = p.published ++ blocks ∧
      (∀ a info, p.worker.sigInfos.lookup a = some info →
        Fold.MeetsAlong (Publisher.turn P V group)
          (fun q t => ¬ t.Outbids V q.worker a info) p after →
        p'.worker.sigInfos.lookup a = some info ∨ blocks ≠ []) ∧
      ∀ x b voters, p.worker.sigBlocks.lookup x = some b →
        voters.Nodup → voters ⊆ group → threshold group ≤ voters.length →
        (∀ a ∈ voters, ∃ sig ∈ arrivals after, sig.sender = a) →
        (∀ a ∈ voters, ∀ info, p.worker.sigInfos.lookup a = some info → info.blockHash = x) →
        Fold.MeetsAlong (Publisher.turn P V group)
          (fun q t => t.Backs P V x voters q.worker) p after →
        blocks.head? = some (b.setSigner (V.signature x)) := by
  have hkept : p.worker.Kept V group :=
    hvalid.foldlM (I := fun q => q.worker.Kept V group) (fun h ht hturn => (h.turn ht hturn).1)
      hbefore ⟨hself, nofun, nofun⟩
  obtain ⟨blocks, hblocks⟩ := Publisher.exists_published_append hafter
  refine ⟨hkept.holds, blocks, hblocks, fun a info hinfo hout => ?_, ?_⟩
  · obtain ⟨-, new, hnew, hvote⟩ := (hvalid'.and hout).foldlM
      (I := fun q => q.worker.Kept V group ∧ ∃ new, q.published = p.published ++ new ∧
        (q.worker.sigInfos.lookup a = some info ∨ new ≠ []))
      (fun ⟨h, new, hnew, hvote⟩ ht hturn => by
        obtain ⟨h', more, hmore, hvotes⟩ := h.turn ht.1 hturn
        refine ⟨h', new ++ more, by rw [hmore, hnew, List.append_assoc], ?_⟩
        rcases hvote with hvote | hne
        · rcases hvotes a info hvote with hkeep | hne | hbid
          · exact .inl hkeep
          · exact .inr fun he => hne (List.append_eq_nil_iff.mp he).2
          · exact absurd hbid ht.2
        · exact .inr fun he => hne (List.append_eq_nil_iff.mp he).1)
      hafter ⟨hkept, [], (List.append_nil _).symm, .inl hinfo⟩
    rwa [List.append_cancel_left (hblocks.symm.trans hnew)]
  · intro x b voters hb hnodup hsub hlen hsent hstored hbacks
    obtain ⟨a, ha⟩ := List.exists_mem_of_length_pos (lt_of_lt_of_le (Nat.succ_pos _) hlen)
    obtain ⟨sig, hsig, hsa⟩ := hsent a ha
    have hawaits : p.worker.Awaits group x b voters after :=
      ⟨hb, hstored, fun a ha => .inr (hsent a ha), .inr ⟨sig, hsig, hsa ▸ ha⟩⟩
    obtain ⟨rest, hrest⟩ := hawaits.decides hkept hnodup hsub hlen hvalid' hbacks hafter
    rw [List.append_cancel_left (hblocks.symm.trans hrest), List.head?_cons]

end Space

/-! ## A majority, and a bad share -/

namespace Sample

open Space

/-- The proposal of the first member reaches it, and it signs. -/
def firstSigns (a _b _c : Address) (first _second : Block) : List Action := [reaches a first]

/-- A block reaches a worker. -/
def arrives (b : Block) : WorkerTurn := .lastBlock .plain (b.hash keccak) b

/-- The vote of a member reaches a worker. -/
def votes (who : Address) (b : Block) : WorkerTurn := .sigInfo .plain (vote who b).2

/-- A signature under any name, with any percent and a share that is of no use. -/
def forgedSig (sender : Address) (percent : Bytes) (b : Block) : BlockSigInfo :=
  ⟨b.header.hashNoSig keccak, sender, percent, ⟨sender, .zero 32⟩⟩

end Sample

namespace Space

open Sample (prims lottery elect electorate firstSigns vote arrives votes forgedSig proposed)

/-- The law applies to the third of three members.  It has signed the proposal of the first and
holds the first one's vote; then its own proposal reaches it, which it signs as well, and the votes
of the other two for the first proposal. -/
theorem valid_votes_decide_two :
    ∃ e ∈ electorate, ∃ a ∈ e.1, ∃ b ∈ e.1, ∃ c ∈ e.1, a ≠ b ∧
      let first := proposed e.1 e.2.currentBlock a
      let second := proposed e.1 e.2.currentBlock c
      ∃ p ∈ (Publisher.start lottery c e.2).turns prims lottery e.1 [arrives first, votes a first],
        ∃ p' ∈ p.turns prims lottery e.1 [arrives second, votes a first, votes b first],
          p.worker.Holds e.1 ∧ p.worker.sigInfos.lookup a = some (vote a first).2 ∧
          p'.published.head? = some (first.setSigner (lottery.signature
            (first.header.hashNoSig prims.keccak))) := by
  have hrun : ∃ e ∈ electorate, ∃ a ∈ e.1, ∃ b ∈ e.1, ∃ c ∈ e.1, a ≠ b ∧
      let first := proposed e.1 e.2.currentBlock a
      let second := proposed e.1 e.2.currentBlock c
      let x := first.header.hashNoSig prims.keccak
      let start := Publisher.start lottery c e.2
      let after := [arrives second, votes a first, votes b first]
      Fold.MeetsAlong (Publisher.turn prims lottery e.1)
        (fun q t => t.Valid lottery e.1 q.worker) start [arrives first, votes a first] ∧
      ∃ p ∈ start.turns prims lottery e.1 [arrives first, votes a first],
        Fold.MeetsAlong (Publisher.turn prims lottery e.1)
          (fun q t => t.Valid lottery e.1 q.worker) p after ∧
        Fold.MeetsAlong (Publisher.turn prims lottery e.1)
          (fun q t => t.Backs prims lottery x [a, b] q.worker) p after ∧
        p.published = [] ∧ p.worker.sigBlocks.lookup x = some first ∧
        p.worker.sigInfos.lookup a = some (vote a first).2 ∧
        (∀ i ∈ [a, b], ∀ info ∈ p.worker.sigInfos.lookup i, info.blockHash = x) ∧
        (p.turns prims lottery e.1 after).isSome ∧ threshold e.1 ≤ [a, b].length ∧
        ∀ i ∈ [a, b], ∃ sig ∈ arrivals after, sig.sender = i := by
    decide +kernel
  obtain ⟨e, he, a, ha, b, hb, c, hc, hne, hvalid, p, hp, hvalid', hbacks, hnone, hlookup, hvote,
    hstored, hsome, hlen, hsent⟩ := hrun
  obtain ⟨p', hp'⟩ := Option.isSome_iff_exists.mp hsome
  obtain ⟨hholds, blocks, hblocks, -, hdecides⟩ :=
    valid_votes_decide prims lottery e.1 hc e.2 hvalid hp hvalid' hp'
  refine ⟨e, he, a, ha, b, hb, c, hc, hne, p, hp, p', hp', hholds, hvote, ?_⟩
  rw [hblocks, hnone, List.nil_append]
  exact hdecides _ _ [a, b] hlookup (by simpa using hne)
    (by simp [ha, hb]) hlen hsent hstored hbacks

/-- **A bad share loses votes**: the first of three members has signed a block, and two shares are
enough.  A share under a stranger's name completes the count and takes the member's vote with it, so
that the valid signature of a second member commits nothing; and a signature under the first
member's own name replaces its vote. -/
theorem bad_share_loses_votes :
    ∃ e ∈ elect firstSigns, ∃ a ∈ e.group, ∃ b ∈ e.group, a ≠ b ∧ threshold e.group = 2 ∧
      let first := proposed e.group e.chain.currentBlock a
      let w := e.outcome.member a
      let stranger := Sample.address 99
      stranger ∉ e.group ∧ w.sigBlocks.lookup (first.header.hashNoSig prims.keccak) = some first ∧
        w.sigInfos.lookup a = some (vote a first).2 ∧
        (vote a first).2.Valid e.group ∧ (vote b first).2.Valid e.group ∧
        (∃ r ∈ w.sigInfo prims lottery e.group .plain (forgedSig stranger [] first),
          r.2 = [] ∧ r.1.sigInfos.lookup a = none) ∧
        (∃ p ∈ (⟨w, [], []⟩ : Publisher ℕ).turns prims lottery e.group [votes a first,
            .sigInfo .plain (forgedSig stranger [] first), votes b first], p.published = []) ∧
        ∃ r ∈ w.sigInfo prims lottery e.group .plain (forgedSig a [255, 255] first),
          r.2 = [] ∧ r.1.sigInfos.lookup a = some (forgedSig a [255, 255] first) := by
  decide +kernel

end Space

end Gocoin
