import Gocoin.Machinery.Numeral
import Mathlib.Tactic.NormNum

/-!
# Common/Hexutil — big integers and byte strings as hexadecimal text

`common/hexutil`: the texts of `Big` and `Bytes` and the checks made when they are read.  A number
is read with at most 64 digits and never with a sign, so a big integer reads back from its text
exactly when it is not negative and below `2 ^ 256` (`unmarshalBig_encodeBig`).
-/

namespace Gocoin.Hexutil

/-- The errors of the package, and that of a value that is no string. -/
inductive HexErr where
  | emptyNumber
  | missingPrefix
  | leadingZero
  | oddLength
  | big256Range
  | badDigit
  | nonString
  deriving DecidableEq

/-- `EncodeBig`. -/
def encodeBig (z : ℤ) : Bytes :=
  if z = 0 then [0x30, 0x78, 0x30]
  else (if z < 0 then [0x2d] else []) ++ 0x30 :: 0x78 :: Numeral.write 16 z.natAbs

/-- `bytesHave0xPrefix`. -/
def bytesHave0xPrefix (input : Bytes) : Bool :=
  input.getD 0 0 == 0x30 && (input.getD 1 0 == 0x78 || input.getD 1 0 == 0x58)

/-- `checkNumberText`. -/
def checkNumberText (input : Bytes) : Except HexErr Bytes :=
  if input = [] then .ok []
  else if !bytesHave0xPrefix input then .error .missingPrefix
  else if input.drop 2 = [] then .error .emptyNumber
  else if 1 < (input.drop 2).length ∧ (input.drop 2).head? = some 0x30 then .error .leadingZero
  else .ok (input.drop 2)

/-- `(*Big).UnmarshalText`. -/
def unmarshalBig (input : Bytes) : Except HexErr ℕ := do
  let raw ← checkNumberText input
  if 64 < raw.length then .error .big256Range
  else
    match Numeral.read 16 raw with
    | none => .error .badDigit
    | some n => .ok n

/-- `Bytes.MarshalText`. -/
def marshalBytes (b : Bytes) : Bytes := 0x30 :: 0x78 :: Numeral.writeBytes b

/-- `checkText`, where the leading `0x` is wanted. -/
def checkText (input : Bytes) : Except HexErr Bytes :=
  if input = [] then .ok []
  else if !bytesHave0xPrefix input then .error .missingPrefix
  else if (input.drop 2).length % 2 ≠ 0 then .error .oddLength
  else .ok (input.drop 2)

/-- `(*Bytes).UnmarshalText`. -/
def unmarshalBytes (input : Bytes) : Except HexErr Bytes := do
  let raw ← checkText input
  match Numeral.readBytes raw with
  | none => .error .badDigit
  | some b => .ok b

/-- The text of a number that is not negative. -/
theorem encodeBig_natCast (n : ℕ) : encodeBig n = 0x30 :: 0x78 :: Numeral.write 16 n := by
  rw [encodeBig]
  by_cases hn : n = 0
  · subst hn
    rfl
  · rw [if_neg (by exact_mod_cast hn), if_neg (by omega), Int.natAbs_natCast]
    rfl

theorem checkNumberText_write (n : ℕ) :
    checkNumberText (0x30 :: 0x78 :: Numeral.write 16 n) = .ok (Numeral.write 16 n) := by
  have hlead : ¬ (1 < (Numeral.write 16 n).length ∧ (Numeral.write 16 n).head? = some 0x30) := by
    rintro ⟨hlen, hhead⟩
    by_cases hn : n = 0
    · rw [hn] at hlen
      exact absurd hlen (by decide)
    · exact Numeral.head?_write (by norm_num) le_rfl hn hhead
  rw [checkNumberText, if_neg (List.cons_ne_nil _ _)]
  simp only [bytesHave0xPrefix, List.getD_cons_zero, List.getD_cons_succ, List.drop_succ_cons,
    List.drop_zero, if_neg (Numeral.write_ne_nil 16 n), if_neg hlead]
  rfl

/-- **Big integers read back** exactly when they are not negative and below `2 ^ 256`. -/
theorem unmarshalBig_encodeBig (z : ℤ) :
    unmarshalBig (encodeBig z) =
      if z < 0 then .error .missingPrefix
      else if z < 2 ^ 256 then .ok z.toNat else .error .big256Range := by
  by_cases hneg : z < 0
  · have hne : z ≠ 0 := by omega
    rw [if_pos hneg, unmarshalBig, encodeBig, if_neg hne, if_pos hneg]
    rfl
  obtain ⟨n, rfl⟩ := Int.eq_ofNat_of_zero_le (not_lt.mp hneg)
  have hlen : 64 < (Numeral.write 16 n).length ↔ ¬ (n : ℤ) < 2 ^ 256 := by
    have hpow : ((n : ℤ) < 2 ^ 256) ↔ n < 16 ^ 64 := by
      rw [show (16 : ℕ) ^ 64 = 2 ^ 256 by norm_num]
      exact_mod_cast Iff.rfl
    rw [hpow, ← Numeral.length_write_le_iff (by norm_num) (by norm_num), not_le]
  rw [if_neg hneg, unmarshalBig, encodeBig_natCast, checkNumberText_write]
  by_cases hlt : (n : ℤ) < 2 ^ 256
  · rw [if_pos hlt]
    simp only [bind, Except.bind, if_neg (fun h => hlen.mp h hlt),
      Numeral.read_write (by norm_num : 2 ≤ 16) le_rfl, Int.toNat_natCast]
  · rw [if_neg hlt]
    simp only [bind, Except.bind, if_pos (hlen.mpr hlt)]

/-- **Byte strings read back.** -/
theorem unmarshalBytes_marshalBytes (b : Bytes) : unmarshalBytes (marshalBytes b) = .ok b := by
  have hcheck : checkText (marshalBytes b) = .ok (Numeral.writeBytes b) := by
    have heven : ¬ (Numeral.writeBytes b).length % 2 ≠ 0 := by
      rw [Numeral.length_writeBytes]
      omega
    rw [checkText, marshalBytes, if_neg (List.cons_ne_nil _ _)]
    simp only [bytesHave0xPrefix, List.getD_cons_zero, List.getD_cons_succ, List.drop_succ_cons,
      List.drop_zero, if_neg heven]
    rfl
  rw [unmarshalBytes, hcheck]
  simp only [bind, Except.bind, Numeral.readBytes_writeBytes]

end Gocoin.Hexutil
