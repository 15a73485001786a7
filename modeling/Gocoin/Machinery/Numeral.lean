import Gocoin.Machinery.BigEndian

/-!
# Machinery/Numeral — numbers and byte strings as text

Numbers in a base of at most sixteen, written without leading zeros and read digit by digit, and
byte strings as pairs of hexadecimal digits.  Reading undoes writing (`read_write`,
`readBytes_writeBytes`).
-/

namespace Numeral

/-- The digit of a value below sixteen, in lower case. -/
def digit (d : ℕ) : UInt8 := if d < 10 then UInt8.ofNat (0x30 + d) else UInt8.ofNat (0x57 + d)

/-- The value of a digit, in either case. -/
def value (c : UInt8) : Option ℕ :=
  if 0x30 ≤ c ∧ c ≤ 0x39 then some (c.toNat - 0x30)
  else if 0x41 ≤ c ∧ c ≤ 0x46 then some (c.toNat - 0x41 + 10)
  else if 0x61 ≤ c ∧ c ≤ 0x66 then some (c.toNat - 0x61 + 10)
  else none

/-- A number in base `b`. -/
def write (b n : ℕ) : Bytes := if n = 0 then [0x30] else ((Nat.digits b n).map digit).reverse

/-- One more digit. -/
def push (b acc : ℕ) (c : UInt8) : Option ℕ :=
  (value c).bind fun d => if d < b then some (acc * b + d) else none

/-- The number a text stands for. -/
def read (b : ℕ) (text : Bytes) : Option ℕ := text.foldlM (push b) 0

/-- A byte string, two digits for a byte. -/
def writeBytes (bs : Bytes) : Bytes :=
  bs.flatMap fun x => [digit (x.toNat / 16), digit (x.toNat % 16)]

/-- The byte string of pairs of digits. -/
def readBytes : Bytes → Option Bytes
  | [] => some []
  | [_] => none
  | hi :: lo :: text => do
    let h ← value hi
    let l ← value lo
    let rest ← readBytes text
    some (UInt8.ofNat (16 * h + l) :: rest)

variable {d n : ℕ} {c : UInt8}

theorem value_digit (h : d < 16) : value (digit d) = some d := by
  interval_cases d <;> rfl

variable {b : ℕ}

theorem push_digit (hb : b ≤ 16) (hd : d < b) (acc : ℕ) :
    push b acc (digit d) = some (acc * b + d) := by
  rw [push, value_digit (hd.trans_le hb), Option.bind_some, if_pos hd]

/-- The digits of a number, most significant first, read as the number. -/
theorem read_digits (hb : b ≤ 16) {l : List ℕ} (hl : ∀ d ∈ l, d < b) :
    read b (l.map digit).reverse = some (Nat.ofDigits b l) := by
  induction l with
  | nil => rfl
  | cons d l ih =>
    obtain ⟨hd, hl⟩ := List.forall_mem_cons.mp hl
    have htail : List.foldlM (push b) 0 (l.map digit).reverse = some (Nat.ofDigits b l) := ih hl
    rw [read, List.map_cons, List.reverse_cons, List.foldlM_append, htail, Nat.ofDigits_cons]
    show (push b (Nat.ofDigits b l) (digit d)).bind some = _
    rw [push_digit hb hd, Option.bind_some]
    congr 1
    ring

/-- **Reading undoes writing.** -/
theorem read_write (hb : 2 ≤ b) (hb16 : b ≤ 16) (n : ℕ) : read b (write b n) = some n := by
  by_cases hn : n = 0
  · have h : read b (([0].map digit).reverse) = some (Nat.ofDigits b [0]) :=
      read_digits hb16 fun d hd => by
        rw [List.mem_singleton] at hd
        omega
    rw [write, if_pos hn, hn]
    exact h
  · rw [write, if_neg hn, read_digits hb16 fun d hd => Nat.digits_lt_base (by omega) hd,
      Nat.ofDigits_digits]

/-- The digits as bytes of the text. -/
theorem mem_write (hb : 2 ≤ b) (h : c ∈ write b n) : ∃ d < b, c = digit d := by
  by_cases hn : n = 0
  · rw [write, if_pos hn, List.mem_singleton] at h
    exact ⟨0, by omega, h⟩
  · rw [write, if_neg hn, List.mem_reverse, List.mem_map] at h
    obtain ⟨d, hd, rfl⟩ := h
    exact ⟨d, Nat.digits_lt_base (by omega) hd, rfl⟩

theorem length_write_le_iff (hb : 2 ≤ b) {k : ℕ} (hk : 1 ≤ k) :
    (write b n).length ≤ k ↔ n < b ^ k := by
  by_cases hn : n = 0
  · subst hn
    rw [write, if_pos rfl]
    exact iff_of_true hk (Nat.pow_pos (by omega))
  · rw [write, if_neg hn, List.length_reverse, List.length_map]
    exact Nat.digits_length_le_iff (by omega) n

theorem write_ne_nil (b n : ℕ) : write b n ≠ [] := by
  by_cases hn : n = 0
  · rw [write, if_pos hn]
    exact List.cons_ne_nil _ _
  · rw [write, if_neg hn, Ne, List.reverse_eq_nil_iff, List.map_eq_nil_iff]
    exact Nat.digits_ne_nil_iff_ne_zero.mpr hn

theorem digit_ne_zero (h : d < 16) (h0 : d ≠ 0) : digit d ≠ 0x30 := by
  intro hd
  have hval := value_digit h
  rw [hd] at hval
  exact h0 (Option.some.inj hval).symm

/-- A number that is not zero has no leading zero. -/
theorem head?_write (hb : 2 ≤ b) (hb16 : b ≤ 16) (hn : n ≠ 0) : (write b n).head? ≠ some 0x30 := by
  have hne : Nat.digits b n ≠ [] := Nat.digits_ne_nil_iff_ne_zero.mpr hn
  have hlast : (Nat.digits b n).getLast hne ≠ 0 := Nat.getLast_digit_ne_zero b hn
  have hlt : (Nat.digits b n).getLast hne < b :=
    Nat.digits_lt_base (by omega) (List.getLast_mem hne)
  rw [write, if_neg hn, List.head?_reverse, List.getLast?_map, List.getLast?_eq_some_getLast hne]
  exact fun h => digit_ne_zero (by omega) hlast (Option.some.inj h)

/-- **Reading undoes writing**, for byte strings. -/
theorem readBytes_writeBytes (bs : Bytes) : readBytes (writeBytes bs) = some bs := by
  induction bs with
  | nil => rfl
  | cons x bs ih =>
    have hx := x.toNat_lt
    have hsplit : 16 * (x.toNat / 16) + x.toNat % 16 = x.toNat := by omega
    have htext : writeBytes (x :: bs)
        = digit (x.toNat / 16) :: digit (x.toNat % 16) :: writeBytes bs := rfl
    rw [htext, readBytes, value_digit (by omega), value_digit (by omega), ih]
    simp only [Option.bind_eq_bind, Option.bind_some, hsplit, UInt8.ofNat_toNat]

theorem length_writeBytes (bs : Bytes) : (writeBytes bs).length = 2 * bs.length := by
  induction bs with
  | nil => rfl
  | cons x bs ih =>
    have htext : writeBytes (x :: bs)
        = digit (x.toNat / 16) :: digit (x.toNat % 16) :: writeBytes bs := rfl
    rw [htext, List.length_cons, List.length_cons, ih, List.length_cons]
    ring

theorem mem_writeBytes {bs : Bytes} (h : c ∈ writeBytes bs) : ∃ d < 16, c = digit d := by
  obtain ⟨x, -, hx⟩ := List.mem_flatMap.mp h
  have hlt := x.toNat_lt
  rcases List.mem_pair.mp hx with rfl | rfl
  · exact ⟨_, by omega, rfl⟩
  · exact ⟨_, by omega, rfl⟩

end Numeral
