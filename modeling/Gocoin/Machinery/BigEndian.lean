import Mathlib.Data.Nat.Digits.Lemmas

/-!
# Machinery/BigEndian — a natural number and its shortest big-endian byte string

`toBytes` writes a number in base 256, most significant byte first and without leading zeros (so
zero is the empty string); `ofBytes` reads any byte string back.  The two are inverse to each other
on the strings that do not start with a zero byte.
-/

/-- A byte string. -/
abbrev Bytes := List UInt8

namespace BigEndian

/-- The shortest big-endian representation of `n`. -/
def toBytes (n : ℕ) : Bytes := ((Nat.digits 256 n).map UInt8.ofNat).reverse

/-- The number a big-endian byte string denotes. -/
def ofBytes (b : Bytes) : ℕ := Nat.ofDigits 256 (b.reverse.map UInt8.toNat)

@[simp] theorem toBytes_zero : toBytes 0 = [] := rfl

@[simp] theorem ofBytes_nil : ofBytes [] = 0 := rfl

theorem map_toNat_ofNat {l : List ℕ} (h : ∀ d ∈ l, d < 256) :
    (l.map UInt8.ofNat).map UInt8.toNat = l := by
  rw [List.map_map]
  refine (List.map_congr_left fun d hd => ?_).trans (List.map_id l)
  simp [Nat.mod_eq_of_lt (h d hd)]

/-- **Reading undoes writing.** -/
@[simp] theorem ofBytes_toBytes (n : ℕ) : ofBytes (toBytes n) = n := by
  rw [ofBytes, toBytes, List.reverse_reverse,
    map_toNat_ofNat fun d hd => Nat.digits_lt_base (by norm_num) hd]
  exact Nat.ofDigits_digits 256 n

theorem ofBytes_replicate_append (k : ℕ) (b : Bytes) :
    ofBytes (List.replicate k 0 ++ b) = ofBytes b := by
  rw [ofBytes, ofBytes, List.reverse_append, List.reverse_replicate, List.map_append,
    List.map_replicate]
  exact Nat.ofDigits_append_replicate_zero _

theorem toBytes_injective : Function.Injective toBytes := fun m n h => by
  rw [← ofBytes_toBytes m, h, ofBytes_toBytes]

/-- **Writing undoes reading**, on the strings without a leading zero. -/
theorem toBytes_ofBytes {b : Bytes} (h : b.head? ≠ some 0) : toBytes (ofBytes b) = b := by
  have hlt : ∀ d ∈ b.reverse.map UInt8.toNat, d < 256 := by
    intro d hd
    obtain ⟨x, -, rfl⟩ := List.mem_map.mp hd
    exact x.toNat_lt
  have hlast : ∀ hne : b.reverse.map UInt8.toNat ≠ [],
      (b.reverse.map UInt8.toNat).getLast hne ≠ 0 := by
    intro hne h0
    cases b with
    | nil => exact hne rfl
    | cons x xs =>
      simp only [List.reverse_cons, List.map_append, List.map_cons, List.map_nil,
        List.getLast_append_singleton] at h0
      exact h (congrArg some (UInt8.toNat_inj.mp h0))
  rw [toBytes, ofBytes, Nat.digits_ofDigits 256 (by norm_num) _ hlt hlast, List.map_map]
  have hid : (UInt8.ofNat ∘ UInt8.toNat) = id := funext fun x => by simp
  rw [hid, List.map_id, List.reverse_reverse]

/-- A written number has no leading zero. -/
theorem head?_toBytes (n : ℕ) : (toBytes n).head? ≠ some 0 := by
  intro h
  rcases Nat.eq_zero_or_pos n with rfl | hn
  · simp at h
  have hne : Nat.digits 256 n ≠ [] := Nat.digits_ne_nil_iff_ne_zero.mpr hn.ne'
  rw [toBytes, List.head?_reverse, List.getLast?_map, List.getLast?_eq_some_getLast hne] at h
  have hlt : (Nat.digits 256 n).getLast hne < 256 :=
    Nat.digits_lt_base (by norm_num) (List.getLast_mem hne)
  have h0 : (UInt8.ofNat ((Nat.digits 256 n).getLast hne)).toNat = 0 :=
    congrArg UInt8.toNat (Option.some.inj h)
  rw [UInt8.toNat_ofNat_of_lt' hlt] at h0
  exact Nat.getLast_digit_ne_zero 256 hn.ne' h0

/-- Padding what was read restores the string, leading zeros and all. -/
theorem replicate_append_toBytes_ofBytes (b : Bytes) :
    List.replicate (b.length - (toBytes (ofBytes b)).length) 0 ++ toBytes (ofBytes b) = b := by
  induction b with
  | nil => rfl
  | cons x b ih =>
    by_cases hx : x = 0
    · have hread : ofBytes (x :: b) = ofBytes b := by
        rw [hx]
        exact ofBytes_replicate_append 1 b
      have hlen : (toBytes (ofBytes b)).length ≤ b.length := by
        have := congrArg List.length ih
        rw [List.length_append, List.length_replicate] at this
        omega
      rw [hread, List.length_cons, Nat.sub_add_comm hlen, List.replicate_succ, List.cons_append, ih,
        hx]
    · have hhead : (x :: b).head? ≠ some 0 := fun h => hx (Option.some.inj h)
      rw [toBytes_ofBytes hhead, Nat.sub_self, List.replicate_zero, List.nil_append]

theorem length_toBytes_le {n k : ℕ} (h : n < 256 ^ k) : (toBytes n).length ≤ k := by
  rw [toBytes, List.length_reverse, List.length_map]
  exact (Nat.digits_length_le_iff (by norm_num) n).mpr h

theorem length_toBytes_pos {n : ℕ} (h : 0 < n) : 0 < (toBytes n).length := by
  rw [toBytes, List.length_reverse, List.length_map, List.length_pos_iff]
  exact Nat.digits_ne_nil_iff_ne_zero.mpr h.ne'

theorem ofBytes_lt (b : Bytes) : ofBytes b < 256 ^ b.length := by
  have h := Nat.ofDigits_lt_base_pow_length (b := 256) (l := b.reverse.map UInt8.toNat)
    (by norm_num) fun d hd => by
      obtain ⟨x, -, rfl⟩ := List.mem_map.mp hd
      exact x.toNat_lt
  simpa [ofBytes] using h

end BigEndian
