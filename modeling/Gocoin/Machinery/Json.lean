import Gocoin.Machinery.BigEndian

/-!
# Machinery/Json — JSON texts

Values of JSON, their compact text, and a reader for texts.  A number is kept as its literal and a
string as what stands between its quotes, escapes and all, so that a reader of one field sees the
text of that field.  A value of known depth whose strings need no escapes reads back from its text
(`parse_render`).
-/

/-- A JSON value. -/
inductive Json where
  | null
  | bool (b : Bool)
  | num (literal : Bytes)
  | str (raw : Bytes)
  | arr (elems : List Json)
  | obj (members : List (Bytes × Json))

namespace Json

/-! ## Writing -/

/-- Texts with commas between them. -/
def commas : List Bytes → Bytes
  | [] => []
  | [b] => b
  | b :: bs => b ++ 0x2c :: commas bs

mutual

/-- The text of a value, without blanks. -/
def render : Json → Bytes
  | .null => [0x6e, 0x75, 0x6c, 0x6c]
  | .bool true => [0x74, 0x72, 0x75, 0x65]
  | .bool false => [0x66, 0x61, 0x6c, 0x73, 0x65]
  | .num literal => literal
  | .str raw => 0x22 :: raw ++ [0x22]
  | .arr xs => 0x5b :: commas (renderElems xs) ++ [0x5d]
  | .obj ms => 0x7b :: commas (renderMembers ms) ++ [0x7d]

/-- The texts of the elements of an array. -/
def renderElems : List Json → List Bytes
  | [] => []
  | x :: xs => render x :: renderElems xs

/-- The texts of the members of an object. -/
def renderMembers : List (Bytes × Json) → List Bytes
  | [] => []
  | (name, x) :: ms => (0x22 :: name ++ 0x22 :: 0x3a :: render x) :: renderMembers ms

end

/-! ## Reading -/

/-- A space, a tab or the end of a line. -/
def isBlank (c : UInt8) : Bool := c == 0x20 || c == 0x09 || c == 0x0a || c == 0x0d

/-- The text after its blanks. -/
def skip (b : Bytes) : Bytes := b.dropWhile isBlank

/-- A decimal digit. -/
def isDigit (c : UInt8) : Bool := 0x30 ≤ c && c ≤ 0x39

/-- A hexadecimal digit. -/
def isHexDigit (c : UInt8) : Bool := isDigit c || (0x41 ≤ c && c ≤ 0x46) || (0x61 ≤ c && c ≤ 0x66)

/-- Where the reader stands in a string. -/
inductive InString where
  | plain
  | escape
  | hex (left : ℕ)

/-- A string up to its closing quote, and the text behind it. -/
def string : InString → Bytes → Option (Bytes × Bytes)
  | _, [] => none
  | .plain, c :: b =>
    if c = 0x22 then some ([], b)
    else if c = 0x5c then (string .escape b).map fun r => (c :: r.1, r.2)
    else if c < 0x20 then none
    else (string .plain b).map fun r => (c :: r.1, r.2)
  | .escape, c :: b =>
    if c = 0x75 then (string (.hex 4) b).map fun r => (c :: r.1, r.2)
    else if c ∈ [0x22, 0x5c, 0x2f, 0x62, 0x66, 0x6e, 0x72, 0x74] then
      (string .plain b).map fun r => (c :: r.1, r.2)
    else none
  | .hex left, c :: b =>
    if isHexDigit c then
      (string (if left ≤ 1 then .plain else .hex (left - 1)) b).map fun r => (c :: r.1, r.2)
    else none

/-- Where the reader stands in a number. -/
inductive InNumber where
  | start
  | sign
  | zero
  | digits
  | point
  | fraction
  | exponent
  | exponentSign
  | exponentDigits

/-- One byte of a number. -/
def InNumber.step (c : UInt8) : InNumber → Option InNumber
  | .start =>
    if c = 0x2d then some .sign
    else if c = 0x30 then some .zero
    else if isDigit c then some .digits
    else none
  | .sign => if c = 0x30 then some .zero else if isDigit c then some .digits else none
  | .zero =>
    if c = 0x2e then some .point
    else if c = 0x65 ∨ c = 0x45 then some .exponent
    else none
  | .digits =>
    if isDigit c then some .digits
    else if c = 0x2e then some .point
    else if c = 0x65 ∨ c = 0x45 then some .exponent
    else none
  | .point => if isDigit c then some .fraction else none
  | .fraction =>
    if isDigit c then some .fraction
    else if c = 0x65 ∨ c = 0x45 then some .exponent
    else none
  | .exponent =>
    if c = 0x2b ∨ c = 0x2d then some .exponentSign
    else if isDigit c then some .exponentDigits
    else none
  | .exponentSign | .exponentDigits => if isDigit c then some .exponentDigits else none

/-- A number may end here. -/
def InNumber.final : InNumber → Bool
  | .zero | .digits | .fraction | .exponentDigits => true
  | _ => false

/-- The literal of a number. -/
def validNumber (l : Bytes) : Bool :=
  (l.foldlM (fun s c => InNumber.step c s) InNumber.start).any InNumber.final

/-- The bytes a number may have. -/
def isNumberByte (c : UInt8) : Bool :=
  isDigit c || c == 0x2d || c == 0x2b || c == 0x2e || c == 0x65 || c == 0x45

/-- A number, and the text behind it. -/
def number (b : Bytes) : Option (Json × Bytes) :=
  if validNumber (b.takeWhile isNumberByte) then
    some (.num (b.takeWhile isNumberByte), b.dropWhile isNumberByte)
  else none

/-- The rest of a word. -/
def word (rest : Bytes) (x : Json) (b : Bytes) : Option (Json × Bytes) :=
  if b.take rest.length = rest then some (x, b.drop rest.length) else none

/-- Things with commas between them, up to the closing bracket. -/
def sequence {α : Type} (close : UInt8) (item : Bytes → Option (α × Bytes)) :
    ℕ → Bytes → Option (List α × Bytes)
  | 0, _ => none
  | n + 1, b => do
    let (x, b) ← item b
    match skip b with
    | [] => none
    | c :: b =>
      if c = close then some ([x], b)
      else if c = 0x2c then (sequence close item n b).map fun r => (x :: r.1, r.2)
      else none

/-- What stands between brackets, perhaps nothing. -/
def bracketed {α : Type} (close : UInt8) (item : Bytes → Option (α × Bytes)) (b : Bytes) :
    Option (List α × Bytes) :=
  if (skip b).head? = some close then some ([], (skip b).tail) else sequence close item b.length b

/-- A member of an object. -/
def member (value : Bytes → Option (Json × Bytes)) (b : Bytes) : Option ((Bytes × Json) × Bytes) :=
  match skip b with
  | [] => none
  | c :: b =>
    if c = 0x22 then do
      let (name, b) ← string .plain b
      if (skip b).head? = some 0x3a then
        (value (skip b).tail).map fun r => ((name, r.1), r.2)
      else none
    else none

/-- A value, and the text behind it.  The fuel bounds the depth. -/
def value : ℕ → Bytes → Option (Json × Bytes)
  | 0, _ => none
  | n + 1, b =>
    match skip b with
    | [] => none
    | c :: b =>
      if c = 0x22 then (string .plain b).map fun r => (.str r.1, r.2)
      else if c = 0x5b then (bracketed 0x5d (value n) b).map fun r => (.arr r.1, r.2)
      else if c = 0x7b then (bracketed 0x7d (member (value n)) b).map fun r => (.obj r.1, r.2)
      else if c = 0x6e then word [0x75, 0x6c, 0x6c] .null b
      else if c = 0x74 then word [0x72, 0x75, 0x65] (.bool true) b
      else if c = 0x66 then word [0x61, 0x6c, 0x73, 0x65] (.bool false) b
      else number (c :: b)

/-- The value a text stands for; behind it only blanks are allowed. -/
def parse (b : Bytes) : Option Json :=
  match value (b.length + 1) b with
  | some (x, rest) => if skip rest = [] then some x else none
  | none => none

/-! ## Reading what was written -/

/-- A string that needs no escapes. -/
def PlainString (s : Bytes) : Prop := ∀ c ∈ s, c ≠ 0x22 ∧ c ≠ 0x5c ∧ 0x20 ≤ c

instance : DecidablePred PlainString := fun s =>
  decidable_of_iff (s.all (fun c => decide (c ≠ 0x22 ∧ c ≠ 0x5c ∧ 0x20 ≤ c)) = true) (by
    simp only [PlainString, List.all_eq_true, decide_eq_true_eq])

/-- A value of at most this depth, with valid numbers and without escapes. -/
def Plain : ℕ → Json → Prop
  | 0, _ => False
  | _ + 1, .null | _ + 1, .bool _ => True
  | _ + 1, .num l => validNumber l = true ∧ ∀ c ∈ l, isNumberByte c = true
  | _ + 1, .str s => PlainString s
  | n + 1, .arr xs => ∀ x ∈ xs, Plain n x
  | n + 1, .obj ms => ∀ m ∈ ms, PlainString m.1 ∧ Plain n m.2

/-- What stands behind a value: nothing, a comma or a closing bracket. -/
def Stops (b : Bytes) : Prop := ∀ c ∈ b.head?, c = 0x2c ∨ c = 0x5d ∨ c = 0x7d

variable {c : UInt8} {b : Bytes} {α : Type} {text : α → Bytes} {xs : List α} {n : ℕ} {x : Json}

theorem stops_cons (h : c = 0x2c ∨ c = 0x5d ∨ c = 0x7d) (b : Bytes) : Stops (c :: b) := by
  intro d hd
  obtain rfl : c = d := Option.some.inj hd
  exact h

theorem skip_cons (h : isBlank c = false) (b : Bytes) : skip (c :: b) = c :: b := by
  rw [skip, List.dropWhile_cons, h]
  rfl

variable {s l : Bytes} {close : UInt8} {item : Bytes → Option (α × Bytes)}

theorem PlainString.append {s' : Bytes} (h : PlainString s) (h' : PlainString s') :
    PlainString (s ++ s') := fun c hc => (List.mem_append.mp hc).elim (h c) (h' c)

theorem string_append (h : PlainString s) (b : Bytes) :
    string .plain (s ++ 0x22 :: b) = some (s, b) := by
  induction s with
  | nil => rfl
  | cons c s ih =>
    obtain ⟨⟨hquote, hslash, hctl⟩, hs⟩ := List.forall_mem_cons.mp h
    rw [List.cons_append, string, if_neg hquote, if_neg hslash, if_neg (UInt8.not_lt.mpr hctl),
      ih hs]
    rfl

theorem takeWhile_number (hl : ∀ c ∈ l, isNumberByte c = true) (hb : Stops b) :
    (l ++ b).takeWhile isNumberByte = l ∧ (l ++ b).dropWhile isNumberByte = b := by
  have hnone : b.takeWhile isNumberByte = [] ∧ b.dropWhile isNumberByte = b := by
    cases b with
    | nil => exact ⟨rfl, rfl⟩
    | cons c b =>
      have hc : isNumberByte c = false := by
        rcases hb c rfl with rfl | rfl | rfl <;> decide
      simp [hc]
  rw [List.takeWhile_append_of_pos hl, List.dropWhile_append_of_pos hl, hnone.1, hnone.2,
    List.append_nil]
  exact ⟨rfl, rfl⟩

/-- Things that read back one by one read back as a sequence. -/
theorem sequence_commas (hclose : close = 0x5d ∨ close = 0x7d) (hne : xs ≠ [])
    (hitem : ∀ x ∈ xs, ∀ b, Stops b → item (text x ++ b) = some (x, b)) (hn : xs.length ≤ n)
    (b : Bytes) :
    sequence close item n (commas (xs.map text) ++ close :: b) = some (xs, b) := by
  have hblank : isBlank close = false := by rcases hclose with rfl | rfl <;> decide
  have hcomma : (0x2c : UInt8) ≠ close := by rcases hclose with rfl | rfl <;> decide
  induction xs generalizing n with
  | nil => exact absurd rfl hne
  | cons x xs ih =>
    obtain ⟨n, rfl⟩ : ∃ m, n = m + 1 := ⟨n - 1, by rw [List.length_cons] at hn; omega⟩
    obtain ⟨hx, hxs⟩ := List.forall_mem_cons.mp hitem
    cases xs with
    | nil =>
      rw [List.map_singleton, commas, sequence, hx _ (stops_cons (.inr hclose) b)]
      simp only [Option.bind_eq_bind, Option.bind_some, skip_cons hblank, if_true]
    | cons y ys =>
      have hrest : commas ((x :: y :: ys).map text) ++ close :: b
          = text x ++ 0x2c :: (commas ((y :: ys).map text) ++ close :: b) := by simp [commas]
      have htail : sequence close item n (commas ((y :: ys).map text) ++ close :: b)
          = some (y :: ys, b) :=
        ih (List.cons_ne_nil y ys) hxs (Nat.le_of_succ_le_succ (by simpa using hn))
      rw [hrest, sequence, hx _ (stops_cons (.inl rfl) _)]
      simp only [Option.bind_eq_bind, Option.bind_some,
        skip_cons (by decide : isBlank 0x2c = false),
        if_neg hcomma, if_true, htail, Option.map_some]

theorem length_commas (h : ∀ x ∈ xs, text x ≠ []) : xs.length ≤ (commas (xs.map text)).length := by
  induction xs with
  | nil => exact Nat.zero_le _
  | cons x xs ih =>
    obtain ⟨hx, hxs⟩ := List.forall_mem_cons.mp h
    have htail := ih hxs
    cases xs with
    | nil => exact List.length_pos_of_ne_nil hx
    | cons y ys =>
      simp only [List.map_cons, commas, List.length_append, List.length_cons] at htail ⊢
      omega

/-- Things that begin neither with a blank nor with the closing bracket, and read back one by one,
read back between brackets. -/
theorem bracketed_commas (hclose : close = 0x5d ∨ close = 0x7d)
    (hhead : ∀ x ∈ xs, ∃ c l, text x = c :: l ∧ isBlank c = false ∧ c ≠ close)
    (hitem : ∀ x ∈ xs, ∀ b, Stops b → item (text x ++ b) = some (x, b)) (b : Bytes) :
    bracketed close item (commas (xs.map text) ++ close :: b) = some (xs, b) := by
  have hblank : isBlank close = false := by rcases hclose with rfl | rfl <;> decide
  have hlen : xs.length ≤ (commas (xs.map text) ++ close :: b).length := by
    have h : xs.length ≤ (commas (xs.map text)).length := length_commas fun x hx hnil => by
      obtain ⟨c, l, heq, -⟩ := hhead x hx
      rw [hnil] at heq
      cases heq
    rw [List.length_append]
    omega
  cases xs with
  | nil => simp [bracketed, commas, skip_cons hblank]
  | cons x xs =>
    obtain ⟨c, l, hx, hc, hne⟩ := hhead x List.mem_cons_self
    have hcons : ∃ t, commas ((x :: xs).map text) ++ close :: b = c :: t := by
      cases xs with
      | nil => exact ⟨l ++ close :: b, by simp [commas, hx]⟩
      | cons y ys =>
        exact ⟨l ++ 0x2c :: (commas ((y :: ys).map text) ++ close :: b), by simp [commas, hx]⟩
    obtain ⟨t, ht⟩ := hcons
    have hskip : (skip (commas ((x :: xs).map text) ++ close :: b)).head? ≠ some close := by
      rw [ht, skip_cons hc, List.head?_cons]
      exact fun h => hne (Option.some.inj h)
    rw [bracketed, if_neg hskip, sequence_commas hclose (List.cons_ne_nil x xs) hitem hlen b]

theorem renderElems_eq (xs : List Json) : renderElems xs = xs.map render := by
  induction xs with
  | nil => rfl
  | cons x xs ih => rw [renderElems, ih, List.map_cons]

/-- The text of a member. -/
def renderMember (m : Bytes × Json) : Bytes := 0x22 :: m.1 ++ 0x22 :: 0x3a :: render m.2

theorem renderMembers_eq (ms : List (Bytes × Json)) : renderMembers ms = ms.map renderMember := by
  induction ms with
  | nil => rfl
  | cons m ms ih => rw [renderMembers, ih, List.map_cons, renderMember]

/-- The bytes a number may begin with. -/
theorem isNumberByte_head (h : isNumberByte c = true) :
    isBlank c = false ∧ c ≠ 0x22 ∧ c ≠ 0x5b ∧ c ≠ 0x7b ∧ c ≠ 0x6e ∧ c ≠ 0x74 ∧ c ≠ 0x66
      ∧ c ≠ 0x5d ∧ c ≠ 0x7d := by
  have hblank : isBlank c = false := by
    cases hb : isBlank c with
    | false => rfl
    | true =>
      simp only [isBlank, Bool.or_eq_true, beq_iff_eq] at hb
      rcases hb with ((rfl | rfl) | rfl) | rfl <;> exact absurd h (by decide)
  refine ⟨hblank, ?_, ?_, ?_, ?_, ?_, ?_, ?_, ?_⟩ <;> rintro rfl <;> exact absurd h (by decide)

/-- A plain value begins neither with a blank nor with a closing bracket. -/
theorem Plain.render_head (h : Plain n x) :
    ∃ c l, render x = c :: l ∧ isBlank c = false ∧ c ≠ 0x5d ∧ c ≠ 0x7d := by
  cases n with
  | zero => exact h.elim
  | succ n =>
    cases x with
    | null => exact ⟨_, _, rfl, by decide⟩
    | bool b => cases b <;> exact ⟨_, _, rfl, by decide⟩
    | num l =>
      cases l with
      | nil => exact absurd h.1 (by decide)
      | cons c l =>
        have hc := isNumberByte_head (h.2 c List.mem_cons_self)
        exact ⟨c, l, rfl, hc.1, hc.2.2.2.2.2.2.2⟩
    | str s | arr xs | obj ms => exact ⟨_, _, rfl, by decide⟩

theorem number_append (hl : validNumber l = true) (hbytes : ∀ c ∈ l, isNumberByte c = true)
    (hb : Stops b) :
    number (l ++ b) = some (.num l, b) := by
  obtain ⟨htake, hdrop⟩ := takeWhile_number hbytes hb
  rw [number, htake, hdrop, if_pos hl]

theorem member_append {value : Bytes → Option (Json × Bytes)} {m : Bytes × Json}
    (hname : PlainString m.1) (hvalue : ∀ b, Stops b → value (render m.2 ++ b) = some (m.2, b))
    (hb : Stops b) :
    member value (renderMember m ++ b) = some (m, b) := by
  have htext : renderMember m ++ b = 0x22 :: (m.1 ++ 0x22 :: 0x3a :: (render m.2 ++ b)) := by
    simp [renderMember]
  rw [htext, member, skip_cons (by decide)]
  simp only [if_true, string_append hname, Option.bind_eq_bind, Option.bind_some,
    skip_cons (by decide : isBlank 0x3a = false), List.head?_cons, List.tail_cons,
    hvalue b hb, Option.map_some]

/-- **Values read back.**  A plain value in front of a comma, of a closing bracket or of nothing is
read as itself. -/
theorem value_render (h : Plain n x) {k : ℕ} (hk : n ≤ k) (hb : Stops b) :
    value k (render x ++ b) = some (x, b) := by
  induction n generalizing x k b with
  | zero => exact h.elim
  | succ n ih =>
    obtain ⟨k, rfl⟩ : ∃ j, k = j + 1 := ⟨k - 1, by omega⟩
    have hk : n ≤ k := by omega
    cases x with
    | null => rfl
    | bool v => cases v <;> rfl
    | num l =>
      cases l with
      | nil => exact absurd h.1 (by decide)
      | cons c l =>
        obtain ⟨hc, h1, h2, h3, h4, h5, h6, -⟩ := isNumberByte_head (h.2 c List.mem_cons_self)
        rw [render, List.cons_append, value, skip_cons hc]
        simp only [if_neg h1, if_neg h2, if_neg h3, if_neg h4, if_neg h5, if_neg h6]
        exact number_append h.1 h.2 hb
    | str s =>
      have htext : render (.str s) ++ b = 0x22 :: (s ++ 0x22 :: b) := by simp [render]
      rw [htext, value, skip_cons (by decide)]
      simp only [if_true, string_append h, Option.map_some]
    | arr xs =>
      have htext : render (.arr xs) ++ b = 0x5b :: (commas (xs.map render) ++ 0x5d :: b) := by
        simp [render, renderElems_eq]
      have hread : bracketed 0x5d (value k) (commas (xs.map render) ++ 0x5d :: b)
          = some (xs, b) := by
        refine bracketed_commas (.inl rfl) (fun x hx => ?_) (fun x hx b hb => ?_) b
        · obtain ⟨c, l, heq, hblank, hne, -⟩ := (h x hx).render_head
          exact ⟨c, l, heq, hblank, hne⟩
        · exact ih (h x hx) hk hb
      rw [htext, value, skip_cons (by decide)]
      simp [hread]
    | obj ms =>
      have htext : render (.obj ms) ++ b
          = 0x7b :: (commas (ms.map renderMember) ++ 0x7d :: b) := by
        simp [render, renderMembers_eq]
      have hread : bracketed 0x7d (member (value k)) (commas (ms.map renderMember) ++ 0x7d :: b)
          = some (ms, b) := by
        refine bracketed_commas (.inr rfl) (fun m _ => ⟨0x22, _, rfl, by decide, by decide⟩)
          (fun m hm b hb => ?_) b
        exact member_append (h m hm).1 (fun b hb => ih (h m hm).2 hk hb) hb
      rw [htext, value, skip_cons (by decide)]
      simp [hread]

/-- **Texts read back.**  A plain value is what its text stands for. -/
theorem parse_render (h : Plain n x) (hn : n ≤ (render x).length + 1) :
    parse (render x) = some x := by
  have hread : value ((render x).length + 1) (render x ++ []) = some (x, []) :=
    value_render h hn fun c hc => by cases hc
  rw [List.append_nil] at hread
  rw [parse, hread]
  rfl

end Json
