import Gocoin.Space.Genesis
import Gocoin.Space.Run

/-!
# Space/Authority — who can make a block the head

`BlockSigerVerifier` checks a header's signature against the key that the same header declares.  So
every head but the first is signed under its own key (`SelfSigned`), whatever the run; whether that
key belongs to the consensus group of its height is never asked, and the key of a stranger will do.
-/

namespace Gocoin.Space

open State
open Sample (chain prims child)

namespace BlockChain

variable (P : Prims)

/-- The signature of a block verifies under the key the block declares: an address, or a group. -/
def SelfSigned (b : Block) : Prop :=
  b.header.sign ≠ [] ∧
    ((∃ addr, P.signSender (b.header.hashNoSig P.keccak) b.header.sign = some addr ∧
        b.header.pk = 1 :: addr.bytes) ∨
      ∃ key, key ≠ [] ∧ b.header.pk = 2 :: key ∧
        P.blsVerify b.header.sign (b.header.hashNoSig P.keccak).bytes key = true)

/-- **The verifier** accepts exactly the self-signed blocks, and crashes on a signed header without
a key. -/
theorem blockSigerVerifier_spec (b : Block) :
    (blockSigerVerifier P b = some true ↔ SelfSigned P b) ∧
      (blockSigerVerifier P b = none ↔
        b.header.sign ≠ [] ∧ (b.header.pk = [] ∨ b.header.pk = [2])) := by
  unfold blockSigerVerifier SelfSigned
  rw [← List.length_pos_iff]
  by_cases hsign : b.header.sign.length > 0
  · rw [if_pos hsign, and_iff_right hsign, and_iff_right hsign]
    cases hpk : b.header.pk with
    | nil => simp
    | cons ptype key =>
      by_cases h1 : ptype = 1
      · subst h1
        cases hs : P.signSender (b.header.hashNoSig P.keccak) b.header.sign with
        | none => simp [hs]
        | some addr => simp [hs]
      · by_cases h2 : ptype = 2
        · subst h2
          cases key with
          | nil => simp
          | cons x key => simp
        · simp [h1, h2]
  · rw [if_neg hsign]
    simp [hsign]

theorem blockSigerVerifier_eq_true_iff (b : Block) :
    blockSigerVerifier P b = some true ↔ SelfSigned P b := (blockSigerVerifier_spec P b).1

theorem blockSigerVerifier_eq_none_iff (b : Block) :
    blockSigerVerifier P b = none ↔
      b.header.sign ≠ [] ∧ (b.header.pk = [] ∨ b.header.pk = [2]) := (blockSigerVerifier_spec P b).2

/-- Only a self-signed block becomes the head. -/
theorem insert_selfSigned {ord : IterOrder} {bc bc' : BlockChain} {b : Block}
    {evs : List CreatethresholdEvent} (h : insert P ord bc b = some (bc', evs)) :
    bc' = bc ∨ (bc'.currentBlock = b ∧ SelfSigned P b) := by
  obtain h | ⟨hok, -, -, hhead⟩ := insert_cases P h
  · exact .inl h
  · obtain h | ⟨_, _, _, _, _, -, -, -, -, rfl⟩ := insertHead_cases P hhead
    · exact .inl h
    · exact .inr ⟨rfl, (blockSigerVerifier_eq_true_iff P b).mp hok⟩

/-- **Heads are self-signed**: in every run, the head is the first one or verifies under the key it
declares, and an `Insert` that changes the head makes its own, self-signed block the head. -/
theorem run_head_selfSigned {bc₀ bc : BlockChain} (hr : Run P (fun _ _ => True) bc₀ bc) :
    (bc.currentBlock = bc₀.currentBlock ∨ SelfSigned P bc.currentBlock) ∧
      ∀ ord b bc' evs, insert P ord bc b = some (bc', evs) →
        bc'.currentBlock ≠ bc.currentBlock → bc'.currentBlock = b ∧ SelfSigned P b := by
  constructor
  · refine hr.invariant
      (I := fun bc => bc.currentBlock = bc₀.currentBlock ∨ SelfSigned P bc.currentBlock)
      (.inl rfl) ?_ fun _ _ hI => hI
    intro bc bc' ord b evs hI _ h
    obtain rfl | ⟨rfl, hs⟩ := insert_selfSigned P h
    · exact hI
    · exact .inr hs
  · intro ord b bc' evs h hne
    obtain rfl | hs := insert_selfSigned P h
    · exact absurd rfl hne
    · exact hs

/-- …on the run that adds a block to the small chain. -/
theorem run_head_selfSigned_sample :
    ∃ bc₀ ∈ chain, ∃ r ∈ insert prims .plain bc₀ (child bc₀.currentBlock 1 []),
      r.1.currentBlock = bc₀.currentBlock ∨ SelfSigned prims r.1.currentBlock := by
  have hrun : ∃ bc₀ ∈ chain, ∃ r ∈ insert prims .plain bc₀ (child bc₀.currentBlock 1 []), True := by
    decide +kernel
  obtain ⟨bc₀, h₀, ⟨bc, evs⟩, h, -⟩ := hrun
  exact ⟨bc₀, h₀, (bc, evs), h, (run_head_selfSigned prims (.single (.insert trivial h))).1⟩

/-- A block signed by an address outside the consensus group of its height becomes the head. -/
theorem stranger_becomes_head :
    ∃ bc ∈ chain, ∃ r ∈ insert prims .plain bc (child bc.currentBlock 2 []),
      r.1.currentBlock ≠ bc.currentBlock ∧
      r.1.currentBlock.header.pk = 1 :: (Sample.address 2).bytes ∧
      ∃ vg ∈ bc.validateGroup, ∃ sel ∈ vg.selectConsensus prims r.1.currentBlock.numberU64,
        sel.1 = [Sample.address 1] := by
  decide +kernel

end BlockChain

end Gocoin.Space
