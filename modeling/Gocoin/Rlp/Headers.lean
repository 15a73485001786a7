import Gocoin.Rlp.Stream

/-!
# Rlp/Headers — what a stream reads of a header

The positions of a stream are turned into what lies ahead of it (`Ahead`): the bytes up to the end
of the innermost list, and those behind them.  In these terms `kindAhead` reads exactly the headers
that the writer puts (`kindAhead_eq`, `kindAhead_ok`) — a long size that would have fitted into the
tag, or that starts with a zero, is none — and it says that the list has ended exactly at its end
(`kindAhead_eol`).
-/

namespace Gocoin

open Rlp BigEndian

/-! ## Steps of decoders -/

section Steps

variable {α β : Type} {s s' : Stream} {x : Decoder α} {f : α → Decoder β} {a : α}

/-- A sequence succeeds when both parts do… -/
theorem bind_eq_ok {b : β} :
    (x >>= f) s = .ok b s' ↔ ∃ a s₁, x s = .ok a s₁ ∧ f a s₁ = .ok b s' := by
  show EStateM.bind x f s = _ ↔ _
  unfold EStateM.bind
  cases x s <;> simp

variable {e : StreamErr} {d : Decoder α}

/-- …and fails with the error of the first part that fails. -/
theorem bind_eq_error :
    (x >>= f) s = .error e s' ↔
      x s = .error e s' ∨ ∃ a s₁, x s = .ok a s₁ ∧ f a s₁ = .error e s' := by
  show EStateM.bind x f s = _ ↔ _
  unfold EStateM.bind
  cases x s <;> simp

theorem bind_of_ok (h : x s = .ok a s') : (x >>= f) s = f a s' := by
  show EStateM.bind x f s = _
  rw [EStateM.bind, h]

@[simp] theorem pure_run (a : α) : (pure a : Decoder α) s = .ok a s := rfl

theorem ok_eq_ok {b : α} :
    (EStateM.Result.ok a s : EStateM.Result StreamErr Stream α) = .ok b s' ↔
      some a = some b ∧ s' = s := by
  rw [EStateM.Result.ok.injEq, Option.some.injEq]
  exact and_congr_right fun _ => eq_comm

@[simp] theorem throw_run (e : StreamErr) : (throw e : Decoder α) s = .error e s := rfl

/-- Changing errors does not change what is read. -/
theorem mapErr_eq_ok {f : StreamErr → StreamErr} : d.mapErr f s = .ok a s' ↔ d s = .ok a s' := by
  unfold Decoder.mapErr
  cases d s <;> simp

theorem mapErr_eq_error {f : StreamErr → StreamErr} :
    d.mapErr f s = .error e s' ↔ ∃ e', d s = .error e' s' ∧ f e' = e := by
  unfold Decoder.mapErr
  cases h : d s with
  | ok a s₁ => simp
  | error e' s₁ => simp [and_comm]

end Steps

variable {e : StreamErr}

/-- The end of a list is passed on as it is… -/
@[simp] theorem wrapStreamError_eq_eol : wrapStreamError e = .eol ↔ e = .eol := by
  cases e <;> simp [wrapStreamError]

/-- …and gets no context. -/
@[simp] theorem addErrorContext_eq_eol {ctx : String} :
    addErrorContext ctx e = .eol ↔ e = .eol := by
  cases e <;> simp [addErrorContext]

namespace Stream

/-! ## What lies ahead -/

/-- The innermost list with its position moved. -/
def advance (n : ℕ) : List Listpos → List Listpos
  | [] => []
  | tos :: rest => ⟨tos.pos + n, tos.size⟩ :: rest

@[simp] theorem advance_zero (l : List Listpos) : advance 0 l = l := by
  cases l <;> rfl

/-- Positions are moved on step by step. -/
theorem advance_advance (m n : ℕ) (l : List Listpos) :
    advance n (advance m l) = advance (m + n) l := by
  cases l with
  | nil => rfl
  | cons tos rest => simp [advance, Nat.add_assoc]

@[simp] theorem advance_eq_nil {n : ℕ} {l : List Listpos} : advance n l = [] ↔ l = [] := by
  cases l <;> simp [advance]

/-- The bytes the stream may read — the rest of the innermost list, or the whole input — and those
behind them. -/
structure Ahead (s : Stream) (c rest : Bytes) : Prop where
  input : s.input = c ++ rest
  limit : s.remaining = s.input.length
  room : ∀ tos ∈ s.stack.head?, tos.size = tos.pos + c.length
  top : s.stack = [] → rest = []

/-- The stream behind the next bytes. -/
def skip (n : ℕ) (s : Stream) : Stream :=
  { s with
    input := s.input.drop n
    remaining := s.remaining - n
    kind := none
    stack := advance n s.stack }

variable {s s' : Stream} {a c rest : Bytes} {n : ℕ}

/-- What is behind the bytes that are skipped lies ahead. -/
theorem Ahead.skip (h : Ahead s (a ++ c) rest) : Ahead (s.skip a.length) c rest where
  input := by simp [Stream.skip, h.input]
  limit := by simp [Stream.skip, h.limit]
  room := by
    intro tos htos
    have hroom := h.room
    cases hs : s.stack with
    | nil => simp [Stream.skip, advance, hs] at htos
    | cons t l =>
      simp only [Stream.skip, advance, hs, List.head?_cons, Option.mem_def, Option.some.injEq]
        at htos hroom
      subst htos
      have := hroom t rfl
      simp only [List.length_append] at this
      simp only
      omega
  top := by
    intro hs
    exact h.top (advance_eq_nil.mp hs)

/-- A new stream has all its input ahead. -/
theorem ahead_new (b : Bytes) : Ahead (new b) b [] :=
  ⟨(List.append_nil b).symm, rfl, by simp [new], fun _ => rfl⟩

/-- What is remembered of a header does not change what lies ahead. -/
theorem Ahead.congr (h : Ahead s c rest) (hi : s'.input = s.input)
    (hr : s'.remaining = s.remaining) (hs : s'.stack = s.stack) : Ahead s' c rest :=
  ⟨hi.trans h.input, by rw [hr, h.limit, hi], by rw [hs]; exact h.room, by rw [hs]; exact h.top⟩

/-! ## Reading bytes -/

/-- Reading is allowed as far as the innermost list goes… -/
theorem willRead_eq (h : Ahead s (a ++ c) rest) :
    willRead a.length s = .ok () { s.skip a.length with input := s.input } := by
  have hlimit : ¬ a.length > s.remaining := by
    rw [h.limit, h.input]
    simp
  unfold willRead Stream.skip
  cases hs : s.stack with
  | nil => simp [takeLimit, hlimit, advance]
  | cons tos l =>
    have hroom := h.room tos (by rw [hs]; rfl)
    rw [List.length_append] at hroom
    simp only [takeLimit, hlimit, advance, if_neg (show ¬ a.length > tos.size - tos.pos by omega),
      if_false]

/-- …and not beyond. -/
theorem willRead_ok {u : Unit} (h : Ahead s c rest) (hr : willRead n s = .ok u s') :
    n ≤ c.length := by
  unfold willRead at hr
  split at hr
  · next hs =>
    unfold takeLimit at hr
    split at hr
    · cases hr
    · next hle =>
      simp only [h.limit, h.input, h.top hs] at hle
      simp at hle
      exact hle
  · next tos l hs =>
    have hroom := h.room tos (by rw [hs]; rfl)
    split at hr
    · cases hr
    · omega

/-- Reading never ends a list. -/
theorem willRead_ne_eol : willRead n s ≠ .error .eol s' := by
  unfold willRead takeLimit
  intro hr
  split at hr <;> split at hr <;> try split at hr
  all_goals cases hr

theorem input?_ne_eol : input? n s ≠ .error .eol s' := by
  intro hr
  unfold input? at hr
  split at hr <;> cases hr

/-- **The bytes ahead are read**, and skipped… -/
theorem readFull_eq (h : Ahead s (a ++ c) rest) :
    readFull a.length s = .ok a (s.skip a.length) := by
  rw [readFull, bind_of_ok (willRead_eq h)]
  simp [input?, h.input, Stream.skip]

/-- …and nothing else can be. -/
theorem readFull_ok {b : Bytes} (h : Ahead s c rest) (hr : readFull n s = .ok b s') :
    ∃ c', c = b ++ c' ∧ b.length = n ∧ s' = s.skip n := by
  obtain ⟨u, s₁, hw, -⟩ := bind_eq_ok.mp hr
  have hn := willRead_ok h hw
  obtain ⟨a, c', rfl, rfl⟩ : ∃ a c', c = a ++ c' ∧ a.length = n :=
    ⟨c.take n, c.drop n, (List.take_append_drop n c).symm, by simp [hn]⟩
  rw [readFull_eq h] at hr
  cases hr
  exact ⟨c', rfl, rfl, rfl⟩

theorem readFull_ne_eol : readFull n s ≠ .error .eol s' := by
  intro hr
  rcases bind_eq_error.mp hr with hw | ⟨u, s₁, -, hr⟩
  · exact willRead_ne_eol hw
  · exact input?_ne_eol hr

variable {x : UInt8} {largetag size : ℕ} {k : Kind} {tag : Bytes}

/-- One byte is read… -/
theorem readByte_eq (h : Ahead s (x :: c) rest) : readByte s = .ok x (s.skip 1) := by
  have hw : willRead 1 s = .ok () { s.skip 1 with input := s.input } := willRead_eq (a := [x]) h
  have hi : input? 1 { s.skip 1 with input := s.input } = .ok [x] (s.skip 1) := by
    simp [input?, h.input, Stream.skip]
  rw [readByte, bind_of_ok hw, bind_of_ok hi]
  rfl

theorem readByte_ok (h : Ahead s c rest) (hr : readByte s = .ok x s') :
    ∃ c', c = x :: c' ∧ s' = s.skip 1 := by
  obtain ⟨u, s₁, hw, -⟩ := bind_eq_ok.mp hr
  have hn := willRead_ok h hw
  cases c with
  | nil => simp at hn
  | cons y c' =>
    rw [readByte_eq h] at hr
    cases hr
    exact ⟨c', rfl, rfl⟩

theorem readByte_ne_eol : readByte s ≠ .error .eol s' := by
  intro hr
  rcases bind_eq_error.mp hr with hw | ⟨u, s₁, -, hr⟩
  · exact willRead_ne_eol hw
  · rcases bind_eq_error.mp hr with hi | ⟨b, s₂, -, hr⟩
    · exact input?_ne_eol hi
    · split at hr <;> cases hr

/-- An integer without a leading zero is read; that of a single byte may be zero. -/
theorem readUint_eq (h : Ahead s (a ++ c) rest) (h0 : 2 ≤ a.length → a.head? ≠ some 0) :
    readUint a.length s = .ok (ofBytes a) (s.skip a.length) := by
  match a, h, h0 with
  | [], h, _ =>
    show EStateM.Result.ok 0 { s with kind := none } = _
    simp [Stream.skip]
  | [x], h, _ =>
    show (readByte >>= fun b => pure b.toNat) s = _
    rw [bind_of_ok (readByte_eq h)]
    simp [ofBytes]
  | x :: y :: a, h, h0 =>
    show (readFull (x :: y :: a).length >>= fun b =>
      if b.head? = some 0 then throw .canonSize else pure (ofBytes b)) s = _
    rw [bind_of_ok (readFull_eq h), if_neg (h0 (by simp))]
    rfl

/-- A number that is read has no leading zero. -/
theorem readUint_ok {v : ℕ} (h : Ahead s c rest) (hr : readUint n s = .ok v s') :
    ∃ a c', c = a ++ c' ∧ a.length = n ∧ (2 ≤ n → a.head? ≠ some 0) ∧ v = ofBytes a ∧
      s' = s.skip n := by
  match n, hr with
  | 0, hr =>
    cases hr
    exact ⟨[], c, rfl, rfl, by simp, rfl, by simp [Stream.skip]⟩
  | 1, hr =>
    obtain ⟨b, s₁, hb, hr⟩ := bind_eq_ok.mp hr
    obtain ⟨c', rfl, rfl⟩ := readByte_ok h hb
    cases hr
    exact ⟨[b], c', rfl, rfl, by simp, by simp [ofBytes], rfl⟩
  | n + 2, hr =>
    obtain ⟨b, s₁, hb, hr⟩ := bind_eq_ok.mp hr
    obtain ⟨c', rfl, hlen, rfl⟩ := readFull_ok h hb
    split at hr
    · cases hr
    · next h0 =>
      cases hr
      exact ⟨b, c', rfl, hlen, fun _ => h0, rfl, rfl⟩

theorem readUint_ne_eol : readUint n s ≠ .error .eol s' := by
  intro hr
  match n, hr with
  | 0, hr => cases hr
  | 1, hr =>
    rcases bind_eq_error.mp hr with hb | ⟨b, s₁, -, hr⟩
    · exact readByte_ne_eol hb
    · cases hr
  | n + 2, hr =>
    rcases bind_eq_error.mp hr with hb | ⟨b, s₁, -, hr⟩
    · exact readFull_ne_eol hb
    · split at hr <;> cases hr

/-! ## Reading headers -/

/-- The headers: a small byte is its own, and the others are those the writer puts. -/
inductive Tag : Kind → ℕ → Bytes → Prop
  | byte (x : UInt8) : x.toNat < 0x80 → Tag .byte 0 [x]
  | string (size : ℕ) : size < 2 ^ 64 → Tag .string size (puthead 0x80 0xB7 size)
  | list (size : ℕ) : size < 2 ^ 64 → Tag .list size (puthead 0xC0 0xF7 size)

/-- The byte a header leaves with the stream. -/
def tagByte : Kind → Bytes → UInt8
  | .byte, x :: _ => x
  | _, _ => 0

/-- The stream behind a header that it remembers. -/
def armed (k : Kind) (size : ℕ) (tag : Bytes) (s : Stream) : Stream :=
  { s.skip tag.length with kind := some k, size, byteval := tagByte k tag, kinderr := none }

/-- A long header: the length of the size, and the size without leading zeros. -/
theorem puthead_long (smalltag : ℕ) {a : Bytes} (hlt : largetag ≤ x.toNat)
    (hlen : a.length = x.toNat - largetag) (h0 : 2 ≤ x.toNat - largetag → a.head? ≠ some 0)
    (hsize : ¬ ofBytes a < 56) : puthead smalltag largetag (ofBytes a) = x :: a := by
  have hhead : a.head? ≠ some 0 := by
    match a, hlen, h0, hsize with
    | [], _, _, hsize => simp
    | [y], _, _, hsize =>
      simp only [List.head?_cons, ne_eq, Option.some.injEq]
      rintro rfl
      exact hsize (by decide)
    | y :: z :: a, hlen, h0, _ =>
      exact h0 (by rw [← hlen]; simp)
  rw [puthead_of_le (by omega), toBytes_ofBytes hhead, hlen, Nat.add_sub_cancel' hlt]
  simp

theorem skip_byteval_skip (m n : ℕ) (b : UInt8) (s : Stream) :
    skip n { s.skip m with byteval := b } = { s.skip (m + n) with byteval := b } := by
  simp [skip, advance_advance, Nat.sub_sub]

theorem Ahead.skip_byteval (h : Ahead s (a ++ c) rest) (b : UInt8) :
    Ahead { s.skip a.length with byteval := b } c rest :=
  h.skip.congr rfl rfl rfl

/-- The size of a long header is read. -/
theorem longKind_eq (hge : 56 ≤ size) (h : Ahead s (x :: toBytes size ++ c) rest) :
    longKind k (readUint (toBytes size).length { s.skip 1 with byteval := 0 })
      = ((k, size, none), { s.skip (x :: toBytes size).length with byteval := 0 }) := by
  have hr := readUint_eq (Ahead.skip_byteval (a := [x]) h 0) fun _ => head?_toBytes size
  rw [List.length_singleton, ofBytes_toBytes, skip_byteval_skip] at hr
  rw [hr, longKind, if_neg (by omega), List.length_cons, Nat.add_comm]

/-- What a long header must look like to be read. -/
theorem longKind_ok (smalltag : ℕ) {k' : Kind} (hlt : largetag ≤ x.toNat)
    (h : Ahead s (x :: c) rest)
    (hr : longKind k (readUint (x.toNat - largetag) { s.skip 1 with byteval := 0 })
      = ((k', size, none), s')) :
    ∃ c', k' = k ∧ x :: c = puthead smalltag largetag size ++ c' ∧
      size < 256 ^ (x.toNat - largetag) ∧
      s' = { s.skip (puthead smalltag largetag size).length with byteval := 0 } := by
  cases hu : readUint (x.toNat - largetag) { s.skip 1 with byteval := 0 } with
  | error e s₁ =>
    rw [hu] at hr
    cases hr
  | ok v s₁ =>
    obtain ⟨a, c', rfl, hlen, h0, rfl, rfl⟩ :=
      readUint_ok (Ahead.skip_byteval (a := [x]) h 0) hu
    rw [hu, longKind] at hr
    split at hr
    · cases hr
    · next hsize =>
      cases hr
      have hput := puthead_long smalltag hlt hlen h0 hsize
      refine ⟨c', rfl, by rw [hput]; rfl, ?_, ?_⟩
      · rw [← hlen]
        exact ofBytes_lt a
      · rw [hput, List.length_singleton, skip_byteval_skip, List.length_cons, hlen, Nat.add_comm 1]

/-- **A header is read.** -/
theorem readKind_eq (ht : Tag k size tag) (h : Ahead s (tag ++ c) rest) :
    readKind s = ((k, size, none), { s.skip tag.length with byteval := tagByte k tag }) := by
  cases ht with
  | byte x hx =>
    unfold readKind
    rw [readByte_eq h]
    simp [hx, tagByte]
  | string size hsize =>
    rcases Nat.lt_or_ge size 56 with hlt | hge
    · rw [puthead_of_lt hlt] at h ⊢
      have hb := toNat_ofNat (show 0x80 + size < 256 by omega)
      unfold readKind
      rw [readByte_eq h]
      simp only [hb, if_neg (show ¬ 0x80 + size < 0x80 by omega),
        if_pos (show 0x80 + size < 0xB8 by omega), Nat.add_sub_cancel_left]
      rfl
    · have h8 := length_toBytes_le_eight hsize
      have hp := length_toBytes_pos (n := size) (by omega)
      have hb := toNat_ofNat (show 0xB7 + (toBytes size).length < 256 by omega)
      rw [puthead_of_le hge] at h ⊢
      unfold readKind
      rw [readByte_eq h]
      simp only [hb, if_neg (show ¬ 0xB7 + (toBytes size).length < 0x80 by omega),
        if_neg (show ¬ 0xB7 + (toBytes size).length < 0xB8 by omega),
        if_pos (show 0xB7 + (toBytes size).length < 0xC0 by omega), Nat.add_sub_cancel_left,
        longKind_eq hge h, tagByte]
  | list size hsize =>
    rcases Nat.lt_or_ge size 56 with hlt | hge
    · rw [puthead_of_lt hlt] at h ⊢
      have hb := toNat_ofNat (show 0xC0 + size < 256 by omega)
      unfold readKind
      rw [readByte_eq h]
      simp only [hb, if_neg (show ¬ 0xC0 + size < 0x80 by omega),
        if_neg (show ¬ 0xC0 + size < 0xB8 by omega), if_neg (show ¬ 0xC0 + size < 0xC0 by omega),
        if_pos (show 0xC0 + size < 0xF8 by omega), Nat.add_sub_cancel_left]
      rfl
    · have h8 := length_toBytes_le_eight hsize
      have hp := length_toBytes_pos (n := size) (by omega)
      have hb := toNat_ofNat (show 0xF7 + (toBytes size).length < 256 by omega)
      rw [puthead_of_le hge] at h ⊢
      unfold readKind
      rw [readByte_eq h]
      simp only [hb, if_neg (show ¬ 0xF7 + (toBytes size).length < 0x80 by omega),
        if_neg (show ¬ 0xF7 + (toBytes size).length < 0xB8 by omega),
        if_neg (show ¬ 0xF7 + (toBytes size).length < 0xC0 by omega),
        if_neg (show ¬ 0xF7 + (toBytes size).length < 0xF8 by omega), Nat.add_sub_cancel_left,
        longKind_eq hge h, tagByte]

/-- The tag of a long header allows eight bytes of size. -/
theorem pow_le_of_tag (h : x.toNat ≤ largetag + 8) : 256 ^ (x.toNat - largetag) ≤ 2 ^ 64 :=
  (Nat.pow_le_pow_right (by norm_num) (by omega)).trans (show 256 ^ 8 ≤ 2 ^ 64 by norm_num)

/-- **What is read as a header is one.** -/
theorem readKind_ok (h : Ahead s c rest) (hr : readKind s = ((k, size, none), s')) :
    ∃ tag c', c = tag ++ c' ∧ Tag k size tag ∧
      s' = { s.skip tag.length with byteval := tagByte k tag } := by
  unfold readKind at hr
  cases hb : readByte s with
  | error e s₁ =>
    rw [hb] at hr
    cases hr
  | ok x s₁ =>
    obtain ⟨c', rfl, rfl⟩ := readByte_ok h hb
    rw [hb] at hr
    simp only at hr
    have hx := x.toNat_lt
    split at hr
    · next hlt =>
      cases hr
      exact ⟨[x], c', rfl, .byte x hlt, rfl⟩
    · split at hr
      · next hge hlt =>
        simp only [Prod.mk.injEq, and_true] at hr
        obtain ⟨⟨rfl, rfl⟩, rfl⟩ := hr
        have hput : puthead 0x80 0xB7 (x.toNat - 0x80) = [x] := by
          rw [puthead_of_lt (by omega), Nat.add_sub_cancel' (by omega)]
          simp
        exact ⟨_, c', by rw [hput]; rfl, .string _ (by omega), by rw [hput]; rfl⟩
      · split at hr
        · next hge hlt =>
          obtain ⟨c'', rfl, hc, hsize, rfl⟩ :=
            longKind_ok 0x80 (by omega) h hr
          exact ⟨_, c'', hc, .string _ (hsize.trans_le (pow_le_of_tag (by omega))), rfl⟩
        · split at hr
          · next hge hlt =>
            simp only [Prod.mk.injEq, and_true] at hr
            obtain ⟨⟨rfl, rfl⟩, rfl⟩ := hr
            have hput : puthead 0xC0 0xF7 (x.toNat - 0xC0) = [x] := by
              rw [puthead_of_lt (by omega), Nat.add_sub_cancel' (by omega)]
              simp
            exact ⟨_, c', by rw [hput]; rfl, .list _ (by omega), by rw [hput]; rfl⟩
          · obtain ⟨c'', rfl, hc, hsize, rfl⟩ :=
              longKind_ok 0xC0 (by omega) h hr
            exact ⟨_, c'', hc, .list _ (hsize.trans_le (pow_le_of_tag (by omega))), rfl⟩

theorem readKind_ne_eol : readKind s ≠ ((k, size, some .eol), s') := by
  intro hr
  unfold readKind at hr
  cases hb : readByte s with
  | error e s₁ =>
    rw [hb] at hr
    simp only [Prod.mk.injEq, Option.some.injEq] at hr
    obtain ⟨⟨-, -, he⟩, -⟩ := hr
    split at he
    · cases he
    · exact readByte_ne_eol (he ▸ hb)
  | ok x s₁ =>
    rw [hb] at hr
    simp only at hr
    have hlong : ∀ (k' : Kind) (n : ℕ) (s₂ : Stream),
        longKind k' (readUint n s₂) ≠ ((k, size, some .eol), s') := by
      intro k' n s₂ hl
      cases hu : readUint n s₂ with
      | error e s₃ =>
        rw [hu, longKind] at hl
        simp only [Prod.mk.injEq, Option.some.injEq] at hl
        exact readUint_ne_eol (hl.1.2.2 ▸ hu)
      | ok v s₃ =>
        rw [hu, longKind] at hl
        split at hl <;> simp at hl
    split at hr
    · simp at hr
    · split at hr
      · simp at hr
      · split at hr
        · exact hlong _ _ _ hr
        · split at hr
          · simp at hr
          · exact hlong _ _ _ hr

/-- The end of a list: nothing of it is ahead. -/
theorem atEOL_iff (h : Ahead s c rest) : s.atEOL = true ↔ s.stack ≠ [] ∧ c = [] := by
  unfold atEOL
  cases hs : s.stack with
  | nil => simp
  | cons tos l =>
    have hroom := h.room tos (by rw [hs]; rfl)
    rw [List.head?_cons, Option.any_some, beq_iff_eq, ← List.length_eq_zero_iff]
    constructor
    · exact fun he => ⟨by simp, by omega⟩
    · exact fun he => by omega

/-- The size of a value is checked against what lies ahead. -/
theorem sizeErr_eq (h : Ahead s c rest) (size : ℕ) : sizeErr size s = none ↔ size ≤ c.length := by
  unfold sizeErr
  cases hs : s.stack with
  | nil =>
    simp only [h.limit, h.input, h.top hs, List.append_nil]
    split <;> simp <;> omega
  | cons tos l =>
    have hroom := h.room tos (by rw [hs]; rfl)
    simp only
    split <;> simp <;> omega

theorem sizeErr_ne_eol : sizeErr size s ≠ some .eol := by
  unfold sizeErr
  split <;> split <;> simp

theorem Tag.ne_nil (ht : Tag k size tag) : tag ≠ [] := by
  cases ht with
  | byte x _ => simp
  | string size _ | list size _ => exact List.length_pos_iff.mp (length_puthead_pos ..)

/-- **A header ahead is read**, and the stream armed with it… -/
theorem nextKind_eq (ht : Tag k size tag) (h : Ahead s (tag ++ c) rest) (hsize : size ≤ c.length) :
    nextKind s = .ok (k, size) (s.armed k size tag) := by
  have heol : ¬ s.atEOL = true := fun he =>
    ht.ne_nil (List.append_eq_nil_iff.mp ((atEOL_iff h).mp he).2).1
  have hfit := (sizeErr_eq (h.skip_byteval (tagByte k tag)) size).mpr hsize
  unfold nextKind
  rw [if_neg heol, readKind_eq ht h]
  unfold remember
  simp only [hfit]
  rfl

/-- …and only such a header is. -/
theorem nextKind_ok (h : Ahead s c rest) (hr : nextKind s = .ok (k, size) s') :
    ∃ tag c', c = tag ++ c' ∧ Tag k size tag ∧ size ≤ c'.length ∧ s' = s.armed k size tag := by
  unfold nextKind at hr
  split at hr
  · cases hr
  · rcases hread : readKind s with ⟨⟨k₁, size₁, err⟩, s₁⟩
    rw [hread] at hr
    cases err with
    | some e => cases hr
    | none =>
      obtain ⟨tag, c', rfl, ht, rfl⟩ := readKind_ok h hread
      have hfit := sizeErr_eq (h.skip_byteval (tagByte k₁ tag)) size₁
      unfold remember cached at hr
      simp only [Option.none_or] at hr
      split at hr
      · next he =>
        cases hr
        exact ⟨tag, c', rfl, ht, hfit.mp he, by rw [Stream.armed]; simp [he]⟩
      · cases hr

/-- The end of a list is met instead of a header exactly there. -/
theorem nextKind_eol (h : Ahead s c rest) :
    nextKind s = .error .eol s' ↔ (s.stack ≠ [] ∧ c = []) ∧ s' = s := by
  unfold nextKind
  rw [← atEOL_iff h]
  split
  · next he => simp [he, eq_comm]
  · next he =>
    refine iff_of_false (fun hr => ?_) fun hr => he hr.1
    rcases hread : readKind s with ⟨⟨k₁, size₁, err⟩, s₁⟩
    rw [hread] at hr
    unfold remember cached at hr
    split at hr
    · cases hr
    · next e herr =>
      cases hr
      cases err with
      | some e =>
        simp only [Option.some_or, Option.some.injEq] at herr
        exact readKind_ne_eol (herr ▸ hread)
      | none => exact sizeErr_ne_eol herr

/-- **The next value**: its header is read, and its content lies ahead. -/
theorem kindAhead_eq (hk : s.kind = none) (ht : Tag k size tag) (h : Ahead s (tag ++ c) rest)
    (hsize : size ≤ c.length) :
    kindAhead s = .ok (k, size) (s.armed k size tag) := by
  unfold kindAhead
  rw [hk]
  exact nextKind_eq (s := { s with kind := none, kinderr := none }) ht (h.congr rfl rfl rfl) hsize

/-- A header that is peeked at stays armed. -/
theorem kindAhead_ok (hk : s.kind = none) (h : Ahead s c rest)
    (hr : kindAhead s = .ok (k, size) s') :
    ∃ tag c', c = tag ++ c' ∧ Tag k size tag ∧ size ≤ c'.length ∧ s' = s.armed k size tag := by
  unfold kindAhead at hr
  rw [hk] at hr
  exact nextKind_ok (s := { s with kind := none, kinderr := none }) (h.congr rfl rfl rfl) hr

theorem kindAhead_eol (hk : s.kind = none) (h : Ahead s c rest) :
    kindAhead s = .error .eol s' ↔ (s.stack ≠ [] ∧ c = []) ∧ s' = { s with kinderr := none } := by
  unfold kindAhead
  rw [hk]
  exact nextKind_eol (s := { s with kind := none, kinderr := none }) (h.congr rfl rfl rfl)

theorem Ahead.armed (h : Ahead s (a ++ c) rest) :
    Ahead (s.armed k size a) c rest := h.skip.congr rfl rfl rfl

/-- Skipping the content of an armed header. -/
theorem skip_armed (k : Kind) (size n : ℕ) (tag : Bytes) (s : Stream) :
    (s.armed k size tag).skip n
      = { s.skip (tag.length + n) with size, byteval := tagByte k tag, kinderr := none } := by
  simp [skip, Stream.armed, advance_advance, Nat.sub_sub]

/-- A header that is remembered is not read again. -/
theorem kindAhead_of_kind (hk : s.kind = some k) : kindAhead s = cached k s := by
  unfold kindAhead
  rw [hk]

/-- What is remembered stays as it is. -/
theorem eq_of_cached {r : EStateM.Result StreamErr Stream (Kind × ℕ)} (h : cached k s = r) :
    (∃ a, r = .ok a s) ∨ ∃ e, r = .error e s := by
  subst h
  unfold cached
  split
  · exact .inl ⟨_, rfl⟩
  · exact .inr ⟨_, rfl⟩

/-- A second call of `kindAhead` says the same. -/
theorem kindAhead_idem {a : Kind × ℕ} (h : kindAhead s = .ok a s') : kindAhead s' = .ok a s' := by
  have hcached : ∀ {k : Kind} {t : Stream}, t.kind = some k → cached k t = .ok a s' →
      kindAhead s' = .ok a s' := by
    intro k t hk hc
    obtain ⟨_, he⟩ | ⟨_, he⟩ := eq_of_cached hc
    · cases he
      rw [kindAhead_of_kind hk, hc]
    · cases he
  unfold kindAhead at h
  split at h
  · next k hk => exact hcached hk h
  · unfold nextKind at h
    split at h
    · cases h
    · exact hcached rfl h

/-- An error of a header is met again. -/
theorem kindAhead_idem_error {e : StreamErr} (h : kindAhead s = .error e s') :
    kindAhead s' = .error e s' := by
  have hcached : ∀ {k : Kind} {t : Stream}, t.kind = some k → cached k t = .error e s' →
      kindAhead s' = .error e s' := by
    intro k t hk hc
    obtain ⟨_, he⟩ | ⟨_, he⟩ := eq_of_cached hc
    · cases he
    · cases he
      rw [kindAhead_of_kind hk, hc]
  unfold kindAhead at h
  split at h
  · next k hk => exact hcached hk h
  · next hk =>
    unfold nextKind at h
    split at h
    · next heol =>
      cases h
      unfold kindAhead
      simp only [hk]
      unfold nextKind
      simp only [hk] at heol
      exact if_pos heol
    · exact hcached rfl h

end Stream

end Gocoin
