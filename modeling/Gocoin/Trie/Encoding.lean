import Gocoin.Machinery.Patricia
import Gocoin.Common.Types

/-!
# Trie/Encoding — hex keys and their compact form

`trie/encoding.go`: a byte key is read as a word of nibbles closed by the terminator `16`; inside
the database the words are packed back into bytes behind a flag byte that holds the parity and the
terminator.  Packing is undone by unpacking on every word a well-formed trie skips
(`compactToHex_hexToCompact`).
-/

namespace Gocoin.Trie

open Patricia

/-- A word of nibbles, `16` being the terminator. -/
abbrev Nibbles := Key 16

/-- The terminator. -/
abbrev term : Fin 17 := Fin.last 16

/-- A nibble as a byte. -/
def nib (a : Fin 17) : UInt8 := UInt8.ofNat a.val

/-- The upper and the lower half of a byte. -/
def halves (b : UInt8) : Nibbles :=
  [⟨b.toNat / 16, by have := b.toNat_lt; omega⟩, ⟨b.toNat % 16, by omega⟩]

/-- The nibbles of a byte string, without terminator. -/
def toNibbles (b : Bytes) : Nibbles := b.flatMap halves

/-- `keybytesToHex`. -/
def keybytesToHex (b : Bytes) : Nibbles := toNibbles b ++ [term]

/-- `hasTerm`. -/
def hasTerm (k : Nibbles) : Bool := k.getLast? == some term

/-- `decodeNibbles`. -/
def decodeNibbles : Nibbles → Bytes
  | a :: b :: rest => ((nib a <<< 4) ||| nib b) :: decodeNibbles rest
  | _ => []

/-- The flag byte and the packed nibbles of a word without terminator. -/
def packNibbles (flag : UInt8) (hex : Nibbles) : Bytes :=
  if hex.length % 2 = 1 then
    match hex with
    | a :: rest => (flag ||| 16 ||| nib a) :: decodeNibbles rest
    | [] => [flag]
  else flag :: decodeNibbles hex

/-- `hexToCompact`. -/
def hexToCompact (hex : Nibbles) : Bytes :=
  if hasTerm hex then packNibbles 32 hex.dropLast else packNibbles 0 hex

/-- `compactToHex`; the empty string is an index out of range. -/
def compactToHex (compact : Bytes) : Option Nibbles :=
  match toNibbles compact with
  | [] => none
  | a :: rest =>
    let base := if 2 ≤ a.val then a :: rest ++ [term] else a :: rest
    some (base.drop (2 - a.val % 2))

/-! ## Keys -/

theorem term_notMem_toNibbles (b : Bytes) : term ∉ toNibbles b := by
  intro h
  obtain ⟨x, -, hx⟩ := List.mem_flatMap.mp h
  have hlt := x.toNat_lt
  simp only [halves, List.mem_cons, List.not_mem_nil, or_false, Fin.ext_iff, Fin.val_last] at hx
  omega

/-- The hex form of a byte key is a terminated word. -/
theorem terminated_keybytesToHex (b : Bytes) : Terminated (keybytesToHex b) := by
  rw [keybytesToHex, terminated_append (term_notMem_toNibbles b), terminated_last]

theorem length_toNibbles (b : Bytes) : (toNibbles b).length = 2 * b.length := by
  induction b with
  | nil => rfl
  | cons x b ih =>
    have hcons : toNibbles (x :: b) = halves x ++ toNibbles b := rfl
    rw [hcons, List.length_append, ih, List.length_cons]
    simp only [halves, List.length_cons, List.length_nil]
    omega

theorem length_keybytesToHex (b : Bytes) : (keybytesToHex b).length = 2 * b.length + 1 := by
  rw [keybytesToHex, List.length_append, length_toNibbles, List.length_singleton]

theorem halves_injective {x y : UInt8} (h : halves x = halves y) : x = y := by
  simp only [halves, List.cons.injEq, Fin.mk.injEq, and_true] at h
  apply UInt8.toNat_inj.mp
  omega

theorem toNibbles_injective {a b : Bytes} (h : toNibbles a = toNibbles b) : a = b := by
  induction a generalizing b with
  | nil =>
    have hlen := congrArg List.length h
    rw [length_toNibbles, length_toNibbles] at hlen
    exact (List.length_eq_zero_iff.mp (by simpa using hlen.symm)).symm
  | cons x a ih =>
    cases b with
    | nil =>
      have hlen := congrArg List.length h
      rw [length_toNibbles, length_toNibbles, List.length_cons, List.length_nil] at hlen
      omega
    | cons y b =>
      have hxy : halves x ++ toNibbles a = halves y ++ toNibbles b := h
      obtain ⟨h1, h2⟩ := List.append_inj hxy rfl
      rw [halves_injective h1, ih h2]

theorem keybytesToHex_injective {a b : Bytes} (h : keybytesToHex a = keybytesToHex b) : a = b :=
  toNibbles_injective (List.append_cancel_right h)

/-! ## Packing -/

theorem halves_pack {a b : Fin 17} (ha : a ≠ term) (hb : b ≠ term) :
    halves ((nib a <<< 4) ||| nib b) = [a, b] := by
  revert a b
  decide

theorem halves_flag_odd {a : Fin 17} (ha : a ≠ term) :
    halves (0 ||| 16 ||| nib a) = [1, a] ∧ halves (32 ||| 16 ||| nib a) = [3, a] := by
  revert a
  decide

/-- Packing an even number of nibbles. -/
theorem toNibbles_decodeNibbles : ∀ {l : Nibbles}, term ∉ l → l.length % 2 = 0 →
    toNibbles (decodeNibbles l) = l
  | [], _, _ => rfl
  | [_], _, h => by simp at h
  | a :: b :: l, hl, h => by
      rw [List.mem_cons, not_or, List.mem_cons, not_or] at hl
      have hcons : toNibbles (decodeNibbles (a :: b :: l))
          = halves ((nib a <<< 4) ||| nib b) ++ toNibbles (decodeNibbles l) := rfl
      rw [hcons, halves_pack (Ne.symm hl.1) (Ne.symm hl.2.1), toNibbles_decodeNibbles hl.2.2]
      · rfl
      · simp only [List.length_cons] at h
        omega

variable {l k : Nibbles}

/-- What unpacking finds behind the flag byte. -/
theorem toNibbles_packNibbles (hl : term ∉ l) (t : Bool) :
    toNibbles (packNibbles (if t then 32 else 0) l)
      = if l.length % 2 = 1 then (if t then 3 else 1) :: l else (if t then 2 else 0) :: 0 :: l := by
  by_cases h : l.length % 2 = 1
  · obtain ⟨a, rest, rfl⟩ := List.exists_cons_of_ne_nil
      (show l ≠ [] from fun h0 => by simp [h0] at h)
    rw [List.mem_cons, not_or] at hl
    have hrest : rest.length % 2 = 0 := by
      rw [List.length_cons] at h
      omega
    have hcons : ∀ x, toNibbles (x :: decodeNibbles rest)
        = halves x ++ toNibbles (decodeNibbles rest) := fun _ => rfl
    simp only [packNibbles, if_pos h, hcons, toNibbles_decodeNibbles hl.2 hrest]
    cases t
    · rw [if_neg (by simp), if_neg (by simp), (halves_flag_odd (Ne.symm hl.1)).1]
      rfl
    · rw [if_pos rfl, if_pos rfl, (halves_flag_odd (Ne.symm hl.1)).2]
      rfl
  · have hcons : ∀ x, toNibbles (x :: decodeNibbles l)
        = halves x ++ toNibbles (decodeNibbles l) := fun _ => rfl
    rw [packNibbles.eq_def, if_neg h, if_neg h, hcons, toNibbles_decodeNibbles hl (by omega)]
    cases t <;> rfl

theorem hasTerm_append_term (l : Nibbles) : hasTerm (l ++ [term]) = true := by
  simp [hasTerm]

theorem hasTerm_of_notMem (h : term ∉ l) : hasTerm l = false := by
  rw [hasTerm, beq_eq_false_iff_ne]
  intro hl
  exact h (List.mem_of_getLast? hl)

/-- **Unpacking undoes packing**, without terminator. -/
theorem compactToHex_hexToCompact_of_notMem (h : term ∉ l) :
    compactToHex (hexToCompact l) = some l := by
  have hp := toNibbles_packNibbles h false
  simp only [Bool.false_eq_true, if_false] at hp
  rw [hexToCompact, hasTerm_of_notMem h, if_neg (by simp), compactToHex, hp]
  by_cases hlen : l.length % 2 = 1
  · simp [hlen]
  · simp [hlen]

theorem compactToHex_hexToCompact_append (h : term ∉ l) :
    compactToHex (hexToCompact (l ++ [term])) = some (l ++ [term]) := by
  have hp := toNibbles_packNibbles h true
  simp only [if_true] at hp
  rw [hexToCompact, hasTerm_append_term, if_pos rfl, List.dropLast_concat, compactToHex, hp]
  by_cases hlen : l.length % 2 = 1
  · simp [hlen]
  · simp [hlen]

/-- A terminated word is a word without terminator and the terminator. -/
theorem exists_of_terminated (h : Terminated k) : ∃ l, term ∉ l ∧ k = l ++ [term] := by
  induction k with
  | nil => exact h.elim
  | cons a k ih =>
    by_cases ha : a = term
    · subst ha
      rw [(terminated_last k).mp h]
      exact ⟨[], List.not_mem_nil, rfl⟩
    · obtain ⟨l, hl, rfl⟩ := ih ((terminated_cons ha k).mp h)
      refine ⟨a :: l, ?_, rfl⟩
      rw [List.mem_cons, not_or]
      exact ⟨Ne.symm ha, hl⟩

theorem hasTerm_of_terminated (h : Terminated k) : hasTerm k = true := by
  obtain ⟨l, -, rfl⟩ := exists_of_terminated h
  exact hasTerm_append_term l

/-- **Unpacking undoes packing** on every word a well-formed trie skips. -/
theorem compactToHex_hexToCompact (h : Terminated k ∨ term ∉ k) :
    compactToHex (hexToCompact k) = some k := by
  rcases h with h | h
  · obtain ⟨l, hl, rfl⟩ := exists_of_terminated h
    exact compactToHex_hexToCompact_append hl
  · exact compactToHex_hexToCompact_of_notMem h

end Gocoin.Trie
