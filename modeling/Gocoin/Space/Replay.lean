import Gocoin.Space.Overdraft
import Gocoin.Space.Run

/-!
# Space/Replay — transactions that come back

A peer admits transactions, builds blocks of its whole pool, inserts the blocks it has built and
removes transactions from the pool, in any order.  Nothing but the pool remembers a transaction, so
whether one comes back is up to the order of these steps: a transaction that has left the pool can
be admitted again, one that stays in the pool is in the next block too, and a block that was built
on an older head is inserted like any other.  `no_replay` shows that these three are all there is:
in a run that avoids them no transaction is admitted or packed into the chain again.
-/

namespace Gocoin.Space

open State Trie
open Sample (prims)

/-- A peer: its chain, its pool and the blocks it has built, with a record of the hashes that were
in a block when it became the head. -/
structure Peer where
  chain : BlockChain
  pool : TxPool
  built : List Block
  packed : List Hash

/-- What a peer does.  The transactions of a built block come in the order of the pool's map, and a
built block may get another signature before it is inserted. -/
inductive Act where
  | addTx (tx : Tx)
  | downLoad (tx : Tx) (report : Bytes)
  | removeTx (hashes : List Hash)
  | buildBlock (ord : IterOrder) (who : Proposer) (txs : List Tx)
  | insert (ord : IterOrder) (b : Block) (sig : Bytes)

namespace Peer

section

variable (P : Prims)

/-- The steps of a peer. -/
inductive Step : Peer → Act → Peer → Prop
  | addTx {p : Peer} {tx : Tx} {r : Except PoolErr Bool} {pool : TxPool}
      (h : TxPool.add P p.chain.db p.chain.currentBlock p.pool tx = some (r, pool)) :
      Step p (.addTx tx) { p with pool }
  | downLoad {p : Peer} {tx : Tx} (report : Bytes) (h : tx ∈ p.pool.downloading) :
      Step p (.downLoad tx report)
        { p with
          pool := (TxPool.downLoad P p.chain.db p.pool tx report).1
          chain := { p.chain with db := (TxPool.downLoad P p.chain.db p.pool tx report).2 } }
  | removeTx (p : Peer) (hashes : List Hash) :
      Step p (.removeTx hashes) { p with pool := p.pool.removeTx hashes }
  | buildBlock {p : Peer} {ord : IterOrder} {who : Proposer} {txs : List Tx} {b : Option Block}
      {chain : BlockChain} (hperm : txs.Perm p.pool.txs)
      (h : buildBlock P ord p.chain who txs = some (b, chain)) :
      Step p (.buildBlock ord who txs) { p with chain, built := b.toList ++ p.built }
  | insert {p : Peer} {ord : IterOrder} {b : Block} {sig : Bytes} {chain : BlockChain}
      {evs : List CreatethresholdEvent} (hb : b ∈ p.built)
      (h : BlockChain.insert P ord p.chain (b.setSigner sig) = some (chain, evs))
      (hhead : chain.currentBlock ≠ p.chain.currentBlock) :
      Step p (.insert ord b sig)
        { p with chain, packed := b.transactions.map (Tx.hash P) ++ p.packed }
  | skip {p : Peer} {ord : IterOrder} {b : Block} {sig : Bytes} {chain : BlockChain}
      {evs : List CreatethresholdEvent} (hb : b ∈ p.built)
      (h : BlockChain.insert P ord p.chain (b.setSigner sig) = some (chain, evs))
      (hhead : chain.currentBlock = p.chain.currentBlock) :
      Step p (.insert ord b sig) { p with chain }

/-- **The law**: a transaction of a block that became the head is not admitted, and not in a later
block that becomes the head. -/
def Sound (p : Peer) : Act → Prop
  | .addTx tx => tx.hash P ∈ p.packed → ∀ r pool,
      TxPool.add P p.chain.db p.chain.currentBlock p.pool tx ≠ some (.ok r, pool)
  | .insert ord b sig => ∀ chain evs,
      BlockChain.insert P ord p.chain (b.setSigner sig) = some (chain, evs) →
        chain.currentBlock ≠ p.chain.currentBlock → ∀ tx ∈ b.transactions, tx.hash P ∉ p.packed
  | _ => True

/-- **What has to be avoided**: to submit a transaction of the chain that has left the pool, to
build a block while the pool holds transactions of the chain, and to insert a block that is not
above the head. -/
def Careful (p : Peer) : Act → Prop
  | .addTx tx => tx.hash P ∈ p.packed → (p.pool.all.lookup (tx.hash P)).isSome
  | .buildBlock _ _ _ => ∀ tx ∈ p.pool.txs, tx.hash P ∉ p.packed
  | .insert _ b _ => p.chain.currentBlock.header.number < b.header.number
  | _ => True

/-- The peers that a run of allowed steps reaches. -/
inductive Reach (allowed : Peer → Act → Prop) (p₀ : Peer) : Peer → Prop
  | refl : Reach allowed p₀ p₀
  | step {p q : Peer} {a : Act} (h : Reach allowed p₀ p) (hc : allowed p a) (hs : Step P p a q) :
      Reach allowed p₀ q

end

variable {P : Prims}

/-! ## The invariant -/

/-- No built block is more than one above the head, and one that is above it has no transaction of
the chain. -/
structure Kept (P : Prims) (p : Peer) : Prop where
  number : ∀ b ∈ p.built, b.header.number ≤ p.chain.currentBlock.header.number + 1
  above : ∀ b ∈ p.built, p.chain.currentBlock.header.number < b.header.number →
    ∀ tx ∈ b.transactions, tx.hash P ∉ p.packed

variable {p p₁ p₂ p₃ : Peer} {b : Block} {tx : Tx}

theorem kept_of_built_eq_nil (h : p.built = []) : Kept P p := ⟨by simp [h], by simp [h]⟩

/-- A block that became the head is the new head. -/
theorem currentBlock_of_insert {ord : IterOrder} {bc bc' : BlockChain}
    {evs : List CreatethresholdEvent} (h : BlockChain.insert P ord bc b = some (bc', evs))
    (hhead : bc'.currentBlock ≠ bc.currentBlock) : bc'.currentBlock = b := by
  obtain rfl | ⟨-, -, -, hins⟩ := BlockChain.insert_cases P h
  · exact absurd rfl hhead
  · obtain rfl | ⟨_, _, _, _, _, -, -, -, -, rfl⟩ := BlockChain.insertHead_cases P hins
    · exact absurd rfl hhead
    · rfl

/-- **One careful step keeps the invariant.** -/
theorem Kept.step {q : Peer} {a : Act} (hk : Kept P p) (hc : Careful P p a) (hs : Step P p a q) :
    Kept P q := by
  cases hs with
  | addTx | downLoad | removeTx => exact ⟨hk.number, hk.above⟩
  | @buildBlock ord who txs b chain hperm h =>
    have hhead := currentBlock_of_buildBlock P h
    have hnew : ∀ b' ∈ b.toList,
        b'.transactions = txs ∧ b'.header.number = p.chain.currentBlock.header.number + 1 :=
      fun b' hb' => by
        obtain rfl := Option.mem_toList.mp hb'
        exact buildBlock_eq_some P h
    refine ⟨?_, ?_⟩ <;> simp only [List.mem_append, hhead]
    · rintro b' (hb' | hb')
      · exact (hnew b' hb').2.le
      · exact hk.number b' hb'
    · rintro b' (hb' | hb')
      · exact fun _ tx htx => hc tx (hperm.subset ((hnew b' hb').1 ▸ htx))
      · exact hk.above b' hb'
  | @insert ord b sig chain evs hb h hhead =>
    have hnew := currentBlock_of_insert h hhead
    have hnumber : chain.currentBlock.header.number = p.chain.currentBlock.header.number + 1 := by
      rw [hnew, Block.number_setSigner]
      exact le_antisymm (hk.number b hb) hc
    refine ⟨fun b' hb' => ?_, fun b' hb' habove => ?_⟩
    · have := hk.number b' hb'
      simp only [hnumber]
      omega
    · have := hk.number b' hb'
      simp only [hnumber] at habove
      omega
  | @skip ord b sig chain evs hb h hhead =>
    refine ⟨?_, ?_⟩ <;> simp only [hhead]
    · exact hk.number
    · exact hk.above

theorem Reach.kept {p₀ : Peer} (h₀ : Kept P p₀) (h : Reach P (Careful P) p₀ p) : Kept P p := by
  induction h with
  | refl => exact h₀
  | step _ hc hs ih => exact ih.step hc hs

/-- **No replay**: in a run of careful steps every step obeys the law — no transaction of a block
that became the head is admitted again, and none is in a later block that becomes the head. -/
theorem no_replay {p₀ p q : Peer} {a : Act} (h₀ : p₀.built = [])
    (h : Reach P (Careful P) p₀ p) (hc : Careful P p a) (hs : Step P p a q) : Sound P p a := by
  have hk := h.kept (kept_of_built_eq_nil h₀)
  cases a with
  | addTx tx =>
    intro hpacked r pool hadd
    have hsome := hc hpacked
    rw [(TxPool.add_eq_ok hadd).1] at hsome
    cases hsome
  | insert ord b sig =>
    intro chain evs hins hhead tx htx
    cases hs with
    | insert hb | skip hb => exact hk.above b hb hc tx htx
  | _ => trivial

/-! ## Runs -/

/-- The signer of the sample transactions, who alone proposes blocks. -/
def signer : Proposer :=
  let sender := (signedTx 4 1 0 0).senderOrZero prims
  ⟨sender, [], [], fun _ => sender.bytes, sender, 0⟩

/-- Admit a transaction, build a block of the pool and make it the head: the peers on the way, with
the block. -/
def turn (P : Prims) (p : Peer) (tx : Tx) : Option (Peer × Peer × Block × Peer) := do
  let (admitted, pool) ← TxPool.add P p.chain.db p.chain.currentBlock p.pool tx
  let _ ← admitted.toOption
  let p₁ : Peer := { p with pool }
  let (built, chain) ← Space.buildBlock P .plain p₁.chain signer p₁.pool.txs
  let b ← built
  let p₂ : Peer := { p₁ with chain, built := b :: p₁.built }
  let (chain, _) ← BlockChain.insert P .plain p₂.chain (b.setSigner b.header.sign)
  if chain.currentBlock.header.number = p₂.chain.currentBlock.header.number then none
  else some (p₁, p₂, b, { p₂ with chain, packed := b.transactions.map (Tx.hash P) ++ p₂.packed })

/-- The three steps of a turn. -/
theorem steps_of_turn (h : turn P p tx = some (p₁, p₂, b, p₃)) :
    Step P p (.addTx tx) p₁ ∧ Step P p₁ (.buildBlock .plain signer p₁.pool.txs) p₂ ∧
      Step P p₂ (.insert .plain b b.header.sign) p₃ := by
  simp only [turn, bind_eq_some, Prod.exists,
    Option.ite_none_left_eq_some, Option.some.injEq, Prod.mk.injEq] at h
  obtain ⟨r, pool, hadd, -, -, built, chain, hbuild, b', rfl, chain', evs, hins, hhead, rfl, rfl,
    rfl, rfl⟩ := h
  exact ⟨.addTx hadd, .buildBlock (b := some b') (.refl _) hbuild,
    .insert List.mem_cons_self hins fun he => hhead (by rw [he])⟩

theorem not_sound_of_turn (h : turn P p tx = some (p₁, p₂, b, p₃)) (hp : p.packed = [tx.hash P])
    (hb : b.transactions.map (Tx.hash P) = [tx.hash P]) :
    ¬ Sound P p (.addTx tx) ∧ ¬ Sound P p₂ (.insert .plain b b.header.sign) := by
  simp only [turn, bind_eq_some, Prod.exists,
    Option.ite_none_left_eq_some, Option.some.injEq, Prod.mk.injEq] at h
  obtain ⟨r, pool, hadd, r', hr', built, chain, hbuild, b', rfl, chain', evs, hins, hhead, rfl, rfl,
    rfl, rfl⟩ := h
  obtain rfl : r = .ok r' := by
    cases r with
    | error => cases hr'
    | ok => exact congrArg _ (Option.some.inj hr')
  refine ⟨fun hs => hs (by simp [hp]) r' pool hadd, fun hs => ?_⟩
  obtain ⟨tx', htx', he⟩ := List.mem_map.mp (hb ▸ List.mem_singleton_self (tx.hash P))
  exact hs chain' evs hins (fun he => hhead (by rw [he])) tx' htx' (by simp [hp, he])

/-- The sample transaction. -/
def again : Tx := signedTx 4 1 0 0

/-- A turn, the removal of the transaction, and a second turn with it. -/
theorem exists_turns_signerChain :
    ∃ bc ∈ signerChain, ∃ r ∈ turn prims ⟨bc, .empty, [], []⟩ again,
      r.2.2.2.packed = [again.hash prims] ∧
      ∃ r' ∈ turn prims
          { r.2.2.2 with pool := r.2.2.2.pool.removeTx [again.hash prims] } again,
        r'.2.2.1.transactions.map (Tx.hash prims) = [again.hash prims] := by
  decide +kernel

/-- The law applies after a careful run in which a block with the transaction has become the head:
submitted once more while it is in the pool, it is not admitted. -/
theorem no_replay_signerChain :
    ∃ bc ∈ signerChain, ∃ p q, Reach prims (Careful prims) ⟨bc, .empty, [], []⟩ p ∧
      again.hash prims ∈ p.packed ∧ Step prims p (.addTx again) q ∧
      Sound prims p (.addTx again) := by
  have hrun : ∃ bc ∈ signerChain, ∃ r ∈ turn prims ⟨bc, .empty, [], []⟩ again,
      r.1.packed = [] ∧ r.2.1.chain.currentBlock.header.number < r.2.2.1.header.number ∧
      r.2.2.2.packed = [again.hash prims] ∧
      (r.2.2.2.pool.all.lookup (again.hash prims)).isSome ∧
      (TxPool.add prims r.2.2.2.chain.db r.2.2.2.chain.currentBlock r.2.2.2.pool
        again).isSome := by
    decide +kernel
  obtain ⟨bc, hbc, ⟨p₁, p₂, b, p₃⟩, hr, hnone, hnumber, hpacked, hpooled, hsome⟩ := hrun
  dsimp only at hnone hnumber hpacked hpooled hsome
  obtain ⟨hadd, hbuild, hins⟩ := steps_of_turn hr
  obtain ⟨⟨_, pool⟩, hagain⟩ := Option.isSome_iff_exists.mp hsome
  have hinsert : Careful prims p₂ (.insert .plain b b.header.sign) := hnumber
  have hreach : Reach prims (Careful prims) ⟨bc, .empty, [], []⟩ p₃ :=
    ((Reach.refl.step (by simp [Careful]) hadd).step (by simp [Careful, hnone]) hbuild).step
      hinsert hins
  exact ⟨bc, hbc, p₃, _, hreach, by simp [hpacked], .addTx hagain,
    no_replay rfl hreach (fun _ => hpooled) (.addTx hagain)⟩

/-- A transaction of the chain that was removed from the pool is admitted again, and the next block,
which contains it again, becomes the head. -/
theorem removed_transaction_returns :
    ∃ bc ∈ signerChain, ∃ p q p' q' b, Reach prims (fun _ _ => True) ⟨bc, .empty, [], []⟩ p ∧
      Step prims p (.addTx again) q ∧ ¬ Sound prims p (.addTx again) ∧
      Reach prims (fun _ _ => True) q p' ∧
      Step prims p' (.insert .plain b b.header.sign) q' ∧
      ¬ Sound prims p' (.insert .plain b b.header.sign) := by
  obtain ⟨bc, hbc, ⟨p₁, p₂, b, p₃⟩, hr, hp, ⟨q₁, q₂, b', q₃⟩, hr', hb'⟩ := exists_turns_signerChain
  obtain ⟨hadd, hbuild, hins⟩ := steps_of_turn hr
  obtain ⟨hadd', hbuild', hins'⟩ := steps_of_turn hr'
  obtain ⟨hnot, hnot'⟩ := not_sound_of_turn hr' hp hb'
  have hrun : Reach prims (fun _ _ => True) ⟨bc, .empty, [], []⟩ p₃ :=
    ((Reach.refl.step trivial hadd).step trivial hbuild).step trivial hins
  exact ⟨bc, hbc, _, q₁, q₂, q₃, b', hrun.step trivial (.removeTx p₃ _), hadd', hnot,
    Reach.refl.step trivial hbuild', hins', hnot'⟩

end Peer

end Gocoin.Space
