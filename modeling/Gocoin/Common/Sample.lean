import Mathlib.Data.List.Sort
import Gocoin.Trie.Maps
import Gocoin.ValidateGroup.Group

/-!
# Common/Sample — concrete primitives

A small hash function and signature scheme at which the definitions can be evaluated.  The hash
reads a string as digits `1, …, 256` in base `257` behind a leading one, modulo `2 ^ 256`; recovery
returns the key that the signature spells.  The hash is injective on strings of at most 31 bytes,
so its collisions on other strings can be ruled out by looking at these alone
(`collisionFree_of_long`).
-/

namespace Gocoin.Sample

/-- A string as a number. -/
def weight (b : Bytes) : ℕ := b.foldl (fun acc x => (acc * 257 + x.toNat + 1) % 2 ^ 256) 1

/-- The sample hash. -/
def keccak (b : Bytes) : Hash := FixedBytes.ofBytes 32 (BigEndian.toBytes (weight b))

/-- The sample primitives: a public key is the signature itself, the wallet's signer is its last
twenty bytes, and a group signature is the message behind the group key. -/
def prims : Prims where
  keccak := keccak
  ecrecover := fun _ sig => some (4 :: sig)
  signSender := fun _ sig => some (FixedBytes.ofBytes 20 sig)
  blsVerify := fun sig msg key => decide (sig = key ++ msg)
  sortByTime := fun l => l.insertionSort (fun a b => a.time ≤ b.time)
  maxAlloc := 2 ^ 48

/-- An address with one nonzero byte. -/
def address (x : UInt8) : Address := FixedBytes.ofBytes 20 [x]

/-- Two members. -/
def pair : List Address := [address 1, address 2]

theorem pair_ne_nil : pair ≠ [] := List.cons_ne_nil _ _

theorem pair_nodup : pair.Nodup := by
  decide +kernel

/-! ## Collisions -/

theorem weight_append (b : Bytes) (x : UInt8) :
    weight (b ++ [x]) = (weight b * 257 + x.toNat + 1) % 2 ^ 256 := by
  rw [weight, List.foldl_append]
  rfl

theorem weight_lt (b : Bytes) : weight b < 2 ^ 256 := by
  induction b using List.reverseRecOn with
  | nil => norm_num [weight]
  | append_singleton b x _ =>
    rw [weight_append]
    exact Nat.mod_lt _ (by norm_num)

/-- The hash spells the weight. -/
theorem ofBytes_keccak (b : Bytes) : BigEndian.ofBytes (keccak b).bytes = weight b := by
  have hlen : (BigEndian.toBytes (weight b)).length ≤ 32 :=
    BigEndian.length_toBytes_le (lt_of_lt_of_eq (weight_lt b) (by norm_num))
  rw [keccak, FixedBytes.bytes_ofBytes_of_le hlen, BigEndian.ofBytes_replicate_append,
    BigEndian.ofBytes_toBytes]

variable {b b' : Bytes}

theorem weight_eq_of_keccak_eq (h : keccak b = keccak b') : weight b = weight b' := by
  rw [← ofBytes_keccak, h, ofBytes_keccak]

/-- One more byte after thirty is not reduced. -/
theorem step_lt {w k : ℕ} (hk : k ≤ 30) (hw : w < 2 * 257 ^ k) (x : UInt8) :
    w * 257 + x.toNat + 1 < 2 ^ 256 := by
  have hx := x.toNat_lt
  have hpow : 257 ^ k ≤ 257 ^ 30 := Nat.pow_le_pow_right (by norm_num) hk
  have h30 : 2 * 257 ^ 30 * 257 + 257 < 2 ^ 256 := by norm_num
  linarith

/-- Short strings have weights that are not reduced. -/
theorem weight_bounds (h : b.length ≤ 31) : 0 < weight b ∧ weight b < 2 * 257 ^ b.length := by
  induction b using List.reverseRecOn with
  | nil => norm_num [weight]
  | append_singleton b x ih =>
    rw [List.length_append, List.length_singleton] at h ⊢
    obtain ⟨hpos, hlt⟩ := ih (by omega)
    have hx := x.toNat_lt
    rw [weight_append, Nat.mod_eq_of_lt (step_lt (by omega) hlt x), pow_succ]
    omega

theorem weight_append_of_short {x : UInt8} (h : (b ++ [x]).length ≤ 31) :
    weight (b ++ [x]) = weight b * 257 + x.toNat + 1 := by
  have hlen : b.length ≤ 30 := by
    rw [List.length_append, List.length_singleton] at h
    omega
  have hlt := (weight_bounds (b := b) (by omega)).2
  rw [weight_append, Nat.mod_eq_of_lt (step_lt hlen hlt x)]

/-- **The weights of short strings differ.** -/
theorem weight_injOn_short (hb : b.length ≤ 31) (hb' : b'.length ≤ 31) (h : weight b = weight b') :
    b = b' := by
  induction b using List.reverseRecOn generalizing b' with
  | nil =>
    induction b' using List.reverseRecOn with
    | nil => rfl
    | append_singleton b' x _ =>
      have hpos := (weight_bounds (b := b') (by
        rw [List.length_append, List.length_singleton] at hb'
        omega)).1
      rw [weight_append_of_short hb', show weight [] = 1 from rfl] at h
      omega
  | append_singleton b x ih =>
    have hlen : b.length ≤ 31 := by
      rw [List.length_append] at hb
      omega
    have hpos := (weight_bounds hlen).1
    induction b' using List.reverseRecOn with
    | nil =>
      rw [weight_append_of_short hb, show weight [] = 1 from rfl] at h
      omega
    | append_singleton b' x' _ =>
      rw [weight_append_of_short hb, weight_append_of_short hb'] at h
      have hx := x.toNat_lt
      have hx' := x'.toNat_lt
      have hw : weight b = weight b' := by omega
      have hxx : x = x' := UInt8.toNat_inj.mp (by omega)
      rw [ih hlen (by rw [List.length_append] at hb'; omega) hw, hxx]

/-- The sample hash has no collision on the short strings and a list of others whose weights are
large, different, and not that of the empty root. -/
theorem collisionFree_of_long {l : List Bytes}
    (hlarge : ∀ e ∈ l, 2 ^ 250 ≤ weight e ∧ keccak e ≠ Trie.emptyRoot)
    (hne : ∀ e ∈ l, ∀ e' ∈ l, weight e = weight e' → e = e') :
    Trie.CollisionFree keccak ({b | b.length ≤ 31} ∪ {e | e ∈ l}) where
  injOn := by
    have hshort : ∀ b : Bytes, b.length ≤ 31 → weight b < 2 ^ 250 := fun b hb =>
      lt_of_lt_of_le (weight_bounds hb).2
        ((Nat.mul_le_mul_left 2 (Nat.pow_le_pow_right (by norm_num) hb)).trans (by norm_num))
    intro b hb b' hb' heq
    have hw := weight_eq_of_keccak_eq heq
    rcases hb with hb | hb
    · rcases hb' with hb' | hb'
      · exact weight_injOn_short hb hb' hw
      · exact absurd (hlarge b' hb').1 (by rw [← hw]; exact not_le.mpr (hshort b hb))
    · rcases hb' with hb' | hb'
      · exact absurd (hlarge b hb).1 (by rw [hw]; exact not_le.mpr (hshort b' hb'))
      · exact hne b hb b' hb' hw
  ne_empty := by
    intro e he _ heq
    rcases he with he | he
    · have hroot : 2 ^ 250 ≤ BigEndian.ofBytes Trie.emptyRoot.bytes := by decide +kernel
      rw [← heq, ofBytes_keccak] at hroot
      exact absurd hroot (not_le.mpr (lt_of_lt_of_le (weight_bounds he).2
        ((Nat.mul_le_mul_left 2 (Nat.pow_le_pow_right (by norm_num) he)).trans (by norm_num))))
    · exact (hlarge e he).2 heq
  ne_zero := by
    intro e he heq
    have hzero : weight e = 0 := by
      rw [← ofBytes_keccak, heq]
      decide +kernel
    rcases he with he | he
    · exact absurd hzero (weight_bounds he).1.ne'
    · have hbig := (hlarge e he).1
      rw [hzero] at hbig
      norm_num at hbig

end Gocoin.Sample
