import Gocoin.Machinery.Fold
import Gocoin.Rlp.Headers

/-!
# Rlp/Reads — what the decoders read

A decoder *reads* a function of items (`Reads`) when it accepts exactly the encodings of the items
that the function has a value for, takes the encoding off the input, and leaves the rest of the list
ahead.  The rules say what every decoder reads, one rule a decoder: `reads_bigInt`, `reads_struct`,
`reads_listSlice` and so on; a type is then read by putting its rules together, and
`decodeBytes_eq_ok_iff` turns the outcome into a statement on byte strings.  Since the decoders
accept encodings only, whatever is not canonical is refused, wherever the check for it stands.
-/

namespace Gocoin

open Rlp BigEndian Fold

open Gocoin.Stream

/-! ## Decoders that read -/

section Reads

variable {α β : Type} {s s' : Stream} {a c rest : Bytes} {n : ℕ}

/-- The stream behind `n` bytes. -/
structure After (s s' : Stream) (n : ℕ) (c rest : Bytes) : Prop where
  kind : s'.kind = none
  ahead : Ahead s' c rest
  stack : s'.stack = advance n s.stack

/-- The stream that skips an encoding stands behind it, whatever else it remembers. -/
theorem after_skip (h : Ahead s (a ++ c) rest) (size : ℕ) (b : UInt8) (e : Option StreamErr) :
    After s { s.skip a.length with size := size, byteval := b, kinderr := e } a.length c rest :=
  ⟨rfl, h.skip.congr rfl rfl rfl, rfl⟩

variable {s₁ : Stream} {m : ℕ} {e : StreamErr} {x : Decoder α} {it : Item} {xs : List Item}
  {tag content : Bytes}

/-- Reading twice. -/
theorem After.trans {s₂ s₃ : Stream} {c₁ rest₁ : Bytes} (h : After s₁ s₂ m c₁ rest₁)
    (h' : After s₂ s₃ n c rest) : After s₁ s₃ (m + n) c rest :=
  ⟨h'.kind, h'.ahead, by rw [h'.stack, h.stack, advance_advance]⟩

/-- The decoder does not say that a list has ended. -/
def NoEol (d : Decoder α) : Prop := ∀ s s', d s ≠ .error .eol s'

theorem noEol_pure (a : α) : NoEol (pure a : Decoder α) := fun s s' h => by cases h

theorem noEol_throw (he : e ≠ .eol) : NoEol (throw e : Decoder α) :=
  fun s s' h => by
    cases h
    exact he rfl

/-- A sequence of decoders that never end a list never ends one. -/
theorem NoEol.bind {f : α → Decoder β} (hx : NoEol x) (hf : ∀ a, NoEol (f a)) :
    NoEol (x >>= f) := fun s s' h => by
  rcases bind_eq_error.mp h with h | ⟨a, s₁, -, h⟩
  · exact hx s s' h
  · exact hf a s₁ s' h

theorem NoEol.ite {p : Prop} [Decidable p] {y : Decoder α} (hx : NoEol x) (hy : NoEol y) :
    NoEol (if p then x else y) := by
  split
  · exact hx
  · exact hy

variable {d : Decoder α} {k : Kind × ℕ → Decoder α} {f : Item → Option α} {b : Bytes} {n size : ℕ}
  {v : α} {its : List Item} {g : α → List Item → Option β}

theorem NoEol.mapErr {g : StreamErr → StreamErr} (hd : NoEol d) (hg : ∀ e, g e = .eol → e = .eol) :
    NoEol (d.mapErr g) := fun s s' h => by
  obtain ⟨e, he, hge⟩ := mapErr_eq_error.mp h
  exact hd s s' (hg e hge ▸ he)

theorem noEol_readFull (n : ℕ) : NoEol (readFull n) := fun _ _ => readFull_ne_eol

theorem noEol_readUint (n : ℕ) : NoEol (readUint n) := fun _ _ => readUint_ne_eol

theorem noEol_rearm : NoEol rearm := fun s s' h => by cases h

theorem noEol_byteAhead : NoEol byteAhead := fun s s' h => by cases h

theorem noEol_listEnd : NoEol listEnd := fun s s' h => by
  unfold listEnd at h
  split at h
  · cases h
  · split at h
    · cases h
    · split at h <;> cases h

/-- The decoder says that the list has ended exactly at its end. -/
structure EndsAtEol (d : Decoder α) : Prop where
  eol : ∀ {s s' : Stream} {c rest : Bytes}, s.kind = none → Ahead s c rest →
    d s = .error .eol s' → (s.stack ≠ [] ∧ c = []) ∧ After s s' 0 c rest
  ended : ∀ {s : Stream} {rest : Bytes}, s.kind = none → Ahead s [] rest → s.stack ≠ [] →
    ∃ s', d s = .error .eol s'

/-- **The decoder reads the items with a value**: their encodings and nothing else. -/
structure Reads (d : Decoder α) (f : Item → Option α) : Prop extends EndsAtEol d where
  complete : ∀ {s : Stream} {it : Item} {c rest : Bytes} {v : α}, s.kind = none →
    Ahead s (encode it ++ c) rest → (encode it).length < 2 ^ 64 → f it = some v →
      ∃ s', d s = .ok v s' ∧ After s s' (encode it).length c rest
  sound : ∀ {s s' : Stream} {c rest : Bytes} {v : α}, s.kind = none → Ahead s c rest →
    d s = .ok v s' →
      ∃ it c', c = encode it ++ c' ∧ f it = some v ∧ After s s' (encode it).length c' rest

/-- A decoder that looks at a header first ends the list there or not at all. -/
theorem endsAtEol_kindAhead (hk : ∀ r, NoEol (k r)) :
    EndsAtEol (kindAhead >>= k) where
  eol := by
    intro s s' c rest hkind h hr
    rcases bind_eq_error.mp hr with hr | ⟨r, s₁, -, hr⟩
    · obtain ⟨hend, rfl⟩ := (kindAhead_eol hkind h).mp hr
      exact ⟨hend, hkind, h.congr rfl rfl rfl, (advance_zero _).symm⟩
    · exact absurd hr (hk r s₁ s')
  ended := by
    intro s rest hkind h hs
    exact ⟨_, bind_eq_error.mpr (.inl ((kindAhead_eol hkind h).mpr ⟨⟨hs, rfl⟩, rfl⟩))⟩

theorem EndsAtEol.mapErr {g : StreamErr → StreamErr} (h : EndsAtEol d)
    (hg : ∀ e, g e = .eol ↔ e = .eol) : EndsAtEol (d.mapErr g) where
  eol := by
    intro s s' c rest hkind ha hr
    obtain ⟨e, he, hge⟩ := mapErr_eq_error.mp hr
    exact h.eol hkind ha ((hg e).mp hge ▸ he)
  ended := by
    intro s rest hkind ha hs
    obtain ⟨s', hs'⟩ := h.ended hkind ha hs
    exact ⟨s', mapErr_eq_error.mpr ⟨.eol, hs', (hg .eol).mpr rfl⟩⟩

/-- …and so does what goes on behind it. -/
theorem EndsAtEol.bind {k : α → Decoder β} (h : EndsAtEol d) (hk : ∀ a, NoEol (k a)) :
    EndsAtEol (d >>= k) where
  eol := by
    intro s s' c rest hkind ha hr
    rcases bind_eq_error.mp hr with hr | ⟨a, s₁, -, hr⟩
    · exact h.eol hkind ha hr
    · exact absurd hr (hk a s₁ s')
  ended := by
    intro s rest hkind ha hs
    obtain ⟨s', hs'⟩ := h.ended hkind ha hs
    exact ⟨s', bind_eq_error.mpr (.inl hs')⟩

/-- Wrapping errors does not change what is read. -/
theorem Reads.mapErr (h : Reads d f) :
    Reads (d.mapErr wrapStreamError) f where
  toEndsAtEol := h.toEndsAtEol.mapErr fun _ => wrapStreamError_eq_eol
  complete := by
    intro s it c rest v hkind ha hlen hv
    obtain ⟨s', hs', hafter⟩ := h.complete hkind ha hlen hv
    exact ⟨s', mapErr_eq_ok.mpr hs', hafter⟩
  sound := fun hkind ha hr => h.sound hkind ha (mapErr_eq_ok.mp hr)

/-- The values may be changed, and some of them refused. -/
theorem Reads.bind {k : α → Decoder β} {g : α → Option β} (h : Reads d f) (hk : ∀ a, NoEol (k a))
    (hkg : ∀ a s b s', k a s = .ok b s' ↔ g a = some b ∧ s' = s) :
    Reads (d >>= k) fun it => (f it).bind g where
  toEndsAtEol := h.toEndsAtEol.bind hk
  complete := by
    intro s it c rest v hkind ha hlen hv
    obtain ⟨a, hfa, hga⟩ := Option.bind_eq_some_iff.mp hv
    obtain ⟨s', hs', hafter⟩ := h.complete hkind ha hlen hfa
    exact ⟨s', bind_eq_ok.mpr ⟨a, s', hs', (hkg ..).mpr ⟨hga, rfl⟩⟩, hafter⟩
  sound := by
    intro s s' c rest v hkind ha hr
    obtain ⟨a, s₁, hd, hka⟩ := bind_eq_ok.mp hr
    obtain ⟨hga, rfl⟩ := (hkg ..).mp hka
    obtain ⟨it, c', hc, hfa, hafter⟩ := h.sound hkind ha hd
    exact ⟨it, c', hc, Option.bind_eq_some_iff.mpr ⟨a, hfa, hga⟩, hafter⟩

/-- Reading and computing with the result. -/
theorem Reads.map (h : Reads d f) (g : α → β) :
    Reads (do let a ← d; pure (g a)) fun it => (f it).map g := by
  have hb := h.bind (k := fun a => pure (g a)) (g := some ∘ g) (fun a => noEol_pure _)
    fun a s b s' => by
      rw [pure_run]
      constructor
      · intro he
        cases he
        exact ⟨rfl, rfl⟩
      · rintro ⟨he, rfl⟩
        cases he
        rfl
  simpa only [Option.map_eq_bind] using hb

/-- Only the function at hand matters. -/
theorem Reads.congr {g : Item → Option α} (h : Reads d f) (hfg : f = g) : Reads d g := hfg ▸ h

/-! ## Strings -/

/-- A string that is no small byte has a header of its own. -/
theorem encode_str_eq (h : ¬ OwnEncoding b) :
    encode (.str b) = puthead 0x80 0xB7 b.length ++ b := by
  rw [encode, encodeString_eq h]

/-- The check for a single byte that should have been its own encoding. -/
theorem single_small_iff :
    (b.length = 1 ∧ b.head?.any (fun x => decide (x.toNat < 128)) = true) ↔ OwnEncoding b := by
  constructor
  · rintro ⟨hlen, hany⟩
    obtain ⟨x, rfl⟩ := List.length_eq_one_iff.mp hlen
    simp only [List.head?_cons, Option.any_some, decide_eq_true_eq] at hany
    exact ⟨x, rfl, by omega⟩
  · rintro ⟨x, rfl, hx⟩
    simp only [List.length_singleton, List.head?_cons, Option.any_some, decide_eq_true_eq, true_and]
    omega

/-- **Strings.**  A decoder that looks at the header first reads a function of strings, when it
takes small bytes from the header and other strings from the input. -/
theorem reads_string (hno : ∀ r, NoEol (k r))
    (hbyte : ∀ {s s' : Stream} {x : UInt8} {v : α}, s.byteval = x → x.toNat < 0x80 →
      (k (.byte, 0) s = .ok v s' ↔ f (.str [x]) = some v ∧ s' = { s with kind := none }))
    (hstr : ∀ {s s' : Stream} {b c rest : Bytes} {v : α}, Ahead s (b ++ c) rest →
      (k (.string, b.length) s = .ok v s' ↔
        ¬ OwnEncoding b ∧ f (.str b) = some v ∧ s' = s.skip b.length))
    (hlist : ∀ {size : ℕ} {s s' : Stream} {v : α}, k (.list, size) s ≠ .ok v s')
    (hf : ∀ xs, f (.list xs) = none) : Reads (kindAhead >>= k) f where
  toEndsAtEol := endsAtEol_kindAhead hno
  complete := by
    intro s it c rest v hkind h hlen hv
    cases it with
    | list xs => rw [hf] at hv; cases hv
    | str b =>
      by_cases hsmall : OwnEncoding b
      · obtain ⟨x, rfl, hx⟩ := hsmall
        rw [encode, encodeString_byte hx] at h ⊢
        have hkind' := kindAhead_eq hkind (.byte x (by omega)) h (Nat.zero_le _)
        exact ⟨_, (bind_of_ok hkind').trans ((hbyte (x := x) rfl (by omega)).mpr ⟨hv, rfl⟩),
          after_skip h ..⟩
      · have hsize : b.length < 2 ^ 64 := by
          rw [encode] at hlen
          exact (length_le_encodeString b).trans_lt hlen
        rw [encode_str_eq hsmall] at h ⊢
        have h' : Ahead s (puthead 0x80 0xB7 b.length ++ (b ++ c)) rest := by
          rwa [List.append_assoc] at h
        have hkind' := kindAhead_eq hkind (.string b.length hsize) h' (by simp)
        refine ⟨_, (bind_of_ok hkind').trans ((hstr h'.armed).mpr ⟨hsmall, hv, rfl⟩), ?_⟩
        rw [skip_armed, ← List.length_append]
        exact after_skip h ..
  sound := by
    intro s s' c rest v hkind h hr
    obtain ⟨⟨k, size⟩, s₁, hk, hr⟩ := bind_eq_ok.mp hr
    obtain ⟨tag, c', rfl, ht, hsize, rfl⟩ := kindAhead_ok hkind h hk
    cases ht with
    | byte x hx =>
      obtain ⟨hv, rfl⟩ := (hbyte rfl hx).mp hr
      have henc : encode (.str [x]) = [x] := by rw [encode, encodeString_byte (by omega)]
      refine ⟨.str [x], c', by rw [henc], hv, ?_⟩
      rw [henc]
      exact after_skip h ..
    | string size hlt =>
      obtain ⟨b, c'', rfl, rfl⟩ : ∃ b c'', c' = b ++ c'' ∧ b.length = size :=
        ⟨c'.take size, c'.drop size, (List.take_append_drop size c').symm, by simp [hsize]⟩
      obtain ⟨hsmall, hv, rfl⟩ := (hstr h.armed).mp hr
      have henc := encode_str_eq hsmall
      refine ⟨.str b, c'', by rw [henc, List.append_assoc], hv, ?_⟩
      rw [henc, skip_armed, ← List.length_append]
      rw [← List.append_assoc] at h
      exact after_skip h ..
    | list size hlt => exact absurd hr hlist

/-- **`Bytes`** reads strings. -/
theorem reads_bytes : Reads bytes Item.bytes? := by
  refine reads_string (fun r => ?_) ?_ ?_ ?_ fun _ => rfl
  · obtain ⟨k, size⟩ := r
    cases k with
    | byte => exact noEol_byteAhead.bind fun b => noEol_rearm.bind fun _ => noEol_pure _
    | string =>
      exact (noEol_readFull size).bind fun b => (noEol_throw (by simp)).ite (noEol_pure _)
    | list => exact noEol_throw (by simp)
  · rintro s s' x v rfl -
    exact ok_eq_ok
  · intro s s' b c rest v h
    show (readFull b.length >>= fun b' => if b.length = 1 ∧
      b'.head?.any (fun x => decide (x.toNat < 128)) = true then throw .canonSize else pure b'
        : Decoder Bytes) s = _ ↔ _
    rw [bind_of_ok (readFull_eq h), ← single_small_iff]
    split
    · next hs => simp [hs]
    · next hs => simpa [hs] using ok_eq_ok
  · intro size s s' v hr
    cases hr

/-- A check of the value that was read. -/
theorem Reads.guard (h : Reads d f) (p : α → Prop) [DecidablePred p] (g : α → β) (he : e ≠ .eol) :
    Reads (do let a ← d; if p a then throw e else pure (g a))
      fun it => (f it).bind fun a => if p a then none else some (g a) := by
  refine h.bind (fun a => (noEol_throw he).ite (noEol_pure _)) fun a s b s' => ?_
  split
  · exact ⟨fun hr => (by cases hr), fun hr => (by cases hr.1)⟩
  · rw [pure_run]
    constructor
    · intro hr
      cases hr
      exact ⟨rfl, rfl⟩
    · rintro ⟨hr, rfl⟩
      cases hr
      rfl

theorem reads_byteSlice : Reads decodeByteSlice Item.bytes? := reads_bytes.mapErr

/-! ## Integers -/

/-- **`decodeBigInt`** reads natural numbers. -/
theorem reads_bigInt : Reads decodeBigInt Item.nat? := by
  have h := reads_byteSlice.guard (fun b => b.head? = some 0) ofBytes
    (e := wrapStreamError .canonInt) (by simp [wrapStreamError])
  refine h.congr (funext fun it => ?_)
  cases it <;> rfl

/-- A number of two bytes without a leading zero is large. -/
theorem le_ofBytes (hlen : 2 ≤ b.length) (h0 : b.head? ≠ some 0) : 256 ≤ ofBytes b := by
  by_contra hlt
  have h1 := length_toBytes_le (n := ofBytes b) (k := 1) (by omega)
  rw [toBytes_ofBytes h0] at h1
  omega

theorem ofBytes_single (x : UInt8) : ofBytes [x] = x.toNat := by simp [ofBytes]

/-- The string of a number is a small byte exactly when the number is small. -/
theorem single_small_iff_lt (h0 : b.head? ≠ some 0) :
    OwnEncoding b ↔ b.length > 0 ∧ ofBytes b < 128 := by
  constructor
  · rintro ⟨x, rfl, hx⟩
    rw [ofBytes_single]
    exact ⟨by simp, by omega⟩
  · rintro ⟨hpos, hlt⟩
    rcases b with - | ⟨x, - | ⟨y, b⟩⟩
    · simp at hpos
    · rw [ofBytes_single] at hlt
      exact ⟨x, rfl, by omega⟩
    · have := le_ofBytes (by simp) h0
      omega

/-- A number without leading zeros is read. -/
theorem readInt_eq (h : Ahead s (a ++ c) rest) (h0 : a.head? ≠ some 0) :
    readInt a.length s = .ok (ofBytes a) (s.skip a.length) :=
  mapErr_eq_ok.mpr (readUint_eq h fun _ => h0)

/-- **Integers of `m` bytes.** -/
theorem reads_uint (hm : 0 < m) :
    Reads (uint (8 * m))
      fun it => it.nat?.bind fun n => if n < 256 ^ m then some n else none := by
  refine reads_string (fun r => ?_) ?_ ?_ ?_ fun _ => rfl
  · obtain ⟨k, size⟩ := r
    cases k with
    | byte =>
      exact noEol_byteAhead.bind fun b =>
        (noEol_throw (by simp)).ite (noEol_rearm.bind fun _ => noEol_pure _)
    | string =>
      refine (noEol_throw (by simp)).ite (NoEol.bind ((noEol_readUint size).mapErr fun e he => ?_)
        fun v => (noEol_throw (by simp)).ite (noEol_pure _))
      split at he
      · cases he
      · exact he
    | list => exact noEol_throw (by simp)
  · rintro s s' x v rfl hx
    have hpow : 256 ^ 1 ≤ 256 ^ m := Nat.pow_le_pow_right (by norm_num) hm
    show (if s.byteval = 0 then throw .canonInt else (do rearm; pure s.byteval.toNat)
      : Decoder ℕ) s = _ ↔ _
    rw [Item.nat?]
    by_cases h0 : s.byteval = 0
    · rw [if_pos h0, if_pos (by rw [h0]; rfl)]
      simp
    · rw [if_neg h0, if_neg (by simpa using h0), ofBytes_single, Option.bind_some,
        if_pos (by omega)]
      exact ok_eq_ok
  · intro s s' b c rest v h
    show (if b.length > 8 * m / 8 then throw .uintOverflow else readInt b.length >>= fun v =>
      if b.length > 0 ∧ v < 128 then throw .canonSize else pure v : Decoder ℕ) s = _ ↔ _
    rw [Nat.mul_div_cancel_left m (by norm_num), Item.nat?]
    by_cases h0 : b.head? = some 0
    · refine iff_of_false (fun hr => ?_) fun hr => by simp [h0] at hr
      split at hr
      · cases hr
      · obtain ⟨v', s₂, hv', hr⟩ := bind_eq_ok.mp hr
        obtain ⟨a, c', hac, hlen, ha, rfl, -⟩ := readUint_ok h (mapErr_eq_ok.mp hv')
        obtain rfl := List.append_inj_left' hac (by
          have := congrArg List.length hac
          simp only [List.length_append] at this
          omega)
        rcases b with - | ⟨x, - | ⟨y, b⟩⟩
        · cases h0
        · cases h0
          cases hr
        · exact ha (by simp) h0
    · rw [single_small_iff_lt h0, if_neg h0, Option.bind_some]
      have hsize : b.length ≤ m ↔ ofBytes b < 256 ^ m := by
        constructor
        · exact fun hle => (ofBytes_lt b).trans_le (Nat.pow_le_pow_right (by norm_num) hle)
        · intro hlt
          rw [← toBytes_ofBytes h0]
          exact length_toBytes_le hlt
      by_cases hle : b.length ≤ m
      · rw [if_neg (by omega), bind_of_ok (readInt_eq h h0), if_pos (hsize.mp hle)]
        split
        · next hs => simp [hs]
        · next hs => simpa [hs] using ok_eq_ok
      · rw [if_pos (by omega), if_neg fun hlt => hle (hsize.mpr hlt)]
        simp
  · intro size s s' v hr
    cases hr

/-! ## Byte arrays and optional pointers -/

theorem noEol_byteArrayOf (n : ℕ) (r : Kind × ℕ) : NoEol (byteArrayOf n r) := by
  obtain ⟨k, size⟩ := r
  cases k with
  | byte =>
    refine (noEol_throw (by simp)).ite ((noEol_throw (by simp)).ite
      (NoEol.bind ?_ fun v => noEol_pure _))
    intro s s' h
    unfold Decoder.orValue at h
    split at h <;> cases h
  | string =>
    exact (noEol_throw (by simp)).ite ((noEol_throw (by simp)).ite ((noEol_readFull n).bind fun b =>
      (noEol_throw (by simp [wrapStreamError])).ite (noEol_pure _)))
  | list => exact noEol_throw (by simp [wrapStreamError])

/-- **Byte arrays**, of any length but one. -/
theorem reads_byteArray (hn : n ≠ 1) :
    Reads (decodeByteArray n)
      fun it => it.bytes?.bind fun b => if b.length = n then some b else none := by
  refine reads_string (noEol_byteArrayOf n) ?_ ?_ ?_ fun _ => rfl
  · rintro s s' x v rfl -
    refine iff_of_false (fun hr => ?_) fun hr => ?_
    · replace hr : (if n = 0 then throw (.decode "input string too long" []) else
        if n > 1 then throw (.decode "input string too short" []) else
          (do let v ← (uint 64).orValue 0; pure [UInt8.ofNat v]) : Decoder Bytes) s = .ok v s' := hr
      split at hr
      · cases hr
      · rw [if_pos (by omega)] at hr
        cases hr
    · simp [Item.bytes?, Ne.symm hn] at hr
  · intro s s' b c rest v h
    show (if n < b.length then throw (.decode "input string too long" []) else
      if n > b.length then throw (.decode "input string too short" []) else
        readFull n >>= fun b' => if b.length = 1 ∧
          b'.head?.any (fun x => decide (x.toNat < 128)) = true then
            throw (wrapStreamError .canonSize) else pure b' : Decoder Bytes) s = _ ↔ _
    rw [Item.bytes?_str, Option.bind_some]
    by_cases hlen : b.length = n
    · subst hlen
      have hsmall : ¬ OwnEncoding b := by
        rintro ⟨x, rfl, -⟩
        exact hn rfl
      rw [if_neg (lt_irrefl _), if_neg (lt_irrefl _), bind_of_ok (readFull_eq h),
        if_neg fun hs => hsmall (single_small_iff.mp hs)]
      simpa [hsmall] using ok_eq_ok
    · rw [if_neg hlen]
      refine iff_of_false (fun hr => ?_) fun hr => by simp at hr
      split at hr
      · cases hr
      · rw [if_pos (by omega)] at hr
        cases hr
  · intro size s s' v hr
    cases hr

/-- An item, or nothing for an empty one. -/
def optional (f : Item → Option α) : Item → Option (Option α)
  | .str [] => some none
  | .list [] => some none
  | it => (f it).map some

/-- An optional value that is not empty is read as the value. -/
theorem optional_of_ne (hs : it ≠ .str []) (hl : it ≠ .list []) :
    optional f it = (f it).map some := by
  unfold optional
  split
  · exact absurd rfl hs
  · exact absurd rfl hl
  · rfl

theorem encodeItems_ne_nil (h : xs ≠ []) : (encodeItems xs).length ≠ 0 := by
  cases xs with
  | nil => exact absurd rfl h
  | cons x xs =>
    have := length_encode_pos x
    rw [encodeItems, List.length_append]
    omega

/-- The header of an encoding; it says whether the item is empty. -/
theorem exists_tag (it : Item) (h : (encode it).length < 2 ^ 64) :
    ∃ k size tag c, encode it = tag ++ c ∧ Tag k size tag ∧ size ≤ c.length ∧
      ((size = 0 ∧ k ≠ .byte) ↔ it = .str [] ∨ it = .list []) ∧ (size = 0 → c = []) := by
  cases it with
  | str b =>
    by_cases hsmall : OwnEncoding b
    · obtain ⟨x, rfl, hx⟩ := hsmall
      rw [encode, encodeString_byte hx]
      exact ⟨.byte, 0, [x], [], rfl, .byte x (by omega), le_rfl, by simp, fun _ => rfl⟩
    · rw [encode_str_eq hsmall] at h ⊢
      rw [List.length_append] at h
      exact ⟨.string, b.length, _, b, rfl, .string _ (by omega), le_rfl, by simp,
        List.length_eq_zero_iff.mp⟩
  | list xs =>
    rw [encode] at h ⊢
    rw [List.length_append] at h
    refine ⟨.list, (encodeItems xs).length, _, _, rfl, .list _ (by omega), le_rfl, ?_,
      List.length_eq_zero_iff.mp⟩
    cases xs with
    | nil => simp [encodeItems]
    | cons x xs => simpa using List.length_eq_zero_iff.not.mp (encodeItems_ne_nil (by simp))

/-- The header decides whether there is something to point to. -/
theorem optionalPtr_eq {kind : Kind} (h : kindAhead s = .ok (kind, size) s₁) :
    decodeOptionalPtr (kindAhead >>= k) s = if size = 0 ∧ kind ≠ .byte then
      .ok none { s₁ with kind := none } else ((kindAhead >>= k) >>= fun a => pure (some a)) s := by
  refine (bind_of_ok h).trans ?_
  show (if size = 0 ∧ kind ≠ .byte then _ else _ : Decoder (Option α)) s₁ = _
  split
  · rfl
  · show EStateM.bind _ _ _ = EStateM.bind _ _ _
    rw [EStateM.bind, EStateM.bind, bind_of_ok h, bind_of_ok (kindAhead_idem h)]

/-- **Optional pointers**, to what looks at its header first. -/
theorem Reads.optionalPtr (h : Reads (kindAhead >>= k) f) (hk : ∀ r, NoEol (k r)) :
    Reads (decodeOptionalPtr (kindAhead >>= k)) (optional f) where
  eol := by
    intro s s' c rest hkind ha hr
    cases hk₁ : kindAhead s with
    | error e s₁ =>
      have he : decodeOptionalPtr (kindAhead >>= k) s = .error e s₁ := bind_eq_error.mpr (.inl hk₁)
      cases he.symm.trans hr
      obtain ⟨hend, rfl⟩ := (kindAhead_eol hkind ha).mp hk₁
      exact ⟨hend, hkind, ha.congr rfl rfl rfl, (advance_zero _).symm⟩
    | ok r s₁ =>
      rw [optionalPtr_eq hk₁] at hr
      split at hr
      · cases hr
      · rcases bind_eq_error.mp hr with hr | ⟨a, s₂, -, hr⟩
        · exact absurd ((bind_of_ok hk₁).symm.trans hr) (hk _ _ _)
        · cases hr
  ended := fun hkind ha hs =>
    ⟨_, bind_eq_error.mpr (.inl ((kindAhead_eol hkind ha).mpr ⟨⟨hs, rfl⟩, rfl⟩))⟩
  complete := by
    intro s it c rest v hkind ha hlen hv
    obtain ⟨kind, size, tag, c', henc, ht, hsize, hempty, hnil⟩ := exists_tag it hlen
    have ha' : Ahead s (tag ++ (c' ++ c)) rest := by
      rwa [henc, List.append_assoc] at ha
    rw [optionalPtr_eq (kindAhead_eq hkind ht ha' (by rw [List.length_append]; omega))]
    split
    · next he =>
      obtain rfl := hnil he.1
      obtain rfl : v = none := by
        rcases hempty.mp he with rfl | rfl <;> exact (Option.some.inj hv).symm
      rw [henc, List.append_nil] at ha ⊢
      exact ⟨_, rfl, after_skip ha ..⟩
    · next he =>
      rw [optional_of_ne (fun h => he (hempty.mpr (.inl h)))
        fun h => he (hempty.mpr (.inr h))] at hv
      obtain ⟨a, hfa, rfl⟩ := Option.map_eq_some_iff.mp hv
      obtain ⟨s', hs', hafter⟩ := h.complete hkind ha hlen hfa
      exact ⟨s', bind_eq_ok.mpr ⟨a, s', hs', rfl⟩, hafter⟩
  sound := by
    intro s s' c rest v hkind ha hr
    obtain ⟨⟨kind, size⟩, s₁, hk₁, -⟩ := bind_eq_ok.mp hr
    rw [optionalPtr_eq hk₁] at hr
    split at hr
    · next he =>
      obtain ⟨tag, c', rfl, ht, -, rfl⟩ := kindAhead_ok hkind ha hk₁
      cases hr
      obtain ⟨rfl, hbyte⟩ := he
      cases ht with
      | byte x _ => exact absurd rfl hbyte
      | string _ _ => exact ⟨.str [], c', rfl, rfl, after_skip ha ..⟩
      | list _ _ => exact ⟨.list [], c', rfl, rfl, after_skip ha ..⟩
    · next he =>
      obtain ⟨a, s₂, hd, hr⟩ := bind_eq_ok.mp hr
      cases hr
      obtain ⟨it, c', rfl, hfa, hafter⟩ := h.sound hkind ha hd
      have hno : ∀ {kind' : Kind}, Tag kind' 0 (encode it) → kind' = .byte := fun {kind'} ht => by
        have hk₂ := kindAhead_eq hkind ht ha (Nat.zero_le _)
        rw [hk₁] at hk₂
        cases hk₂
        exact not_not.mp fun hne => he ⟨rfl, hne⟩
      refine ⟨it, c', rfl, ?_, hafter⟩
      rw [optional_of_ne, hfa, Option.map_some]
      · rintro rfl
        cases hno (.string 0 (by norm_num))
      · rintro rfl
        cases hno (.list 0 (by norm_num))

/-! ## Structs -/

/-- The decoder reads a sequence of items, inside a list. -/
structure ReadsAll (d : Decoder α) (g : List Item → Option α) : Prop where
  noEol : NoEol d
  complete : ∀ {s : Stream} {its : List Item} {c rest : Bytes} {v : α}, s.kind = none →
    Ahead s (encodeItems its ++ c) rest → (encodeItems its).length < 2 ^ 64 → g its = some v →
      ∃ s', d s = .ok v s' ∧ After s s' (encodeItems its).length c rest
  sound : ∀ {s s' : Stream} {c rest : Bytes} {v : α}, s.kind = none → Ahead s c rest →
    d s = .ok v s' →
      ∃ its c', c = encodeItems its ++ c' ∧ g its = some v ∧
        After s s' (encodeItems its).length c' rest

/-- No more items. -/
def noMore (v : α) : List Item → Option α
  | [] => some v
  | _ => none

/-- One item, and then the others. -/
def thenItems (f : Item → Option α) (g : α → List Item → Option β) : List Item → Option β
  | [] => none
  | it :: its => (f it).bind fun a => g a its

theorem noMore_eq_some {w : α} : noMore v its = some w ↔ its = [] ∧ v = w := by
  cases its <;> simp [noMore]

/-- A field and the fields behind it. -/
theorem thenItems_eq_some {b : β} : thenItems f g its = some b ↔
      ∃ it its' a, its = it :: its' ∧ f it = some a ∧ g a its' = some b := by
  cases its with
  | nil => simp [thenItems]
  | cons it its =>
    rw [thenItems, Option.bind_eq_some_iff]
    constructor
    · rintro ⟨a, hf, hg⟩
      exact ⟨it, its, a, rfl, hf, hg⟩
    · rintro ⟨it', its', a, he, hf, hg⟩
      cases he
      exact ⟨a, hf, hg⟩

/-- Exactly `n` items are asked for. -/
def Takes (n : ℕ) (g : List Item → Option α) : Prop := ∀ its v, g its = some v → its.length = n

theorem takes_noMore (v : α) : Takes 0 (noMore v) := fun its w h => by
  rw [(noMore_eq_some.mp h).1, List.length_nil]

/-- A struct takes as many items as it has fields. -/
theorem takes_thenItems (hg : ∀ a, Takes n (g a)) :
    Takes (n + 1) (thenItems f g) := fun its b h => by
  obtain ⟨it, its', a, rfl, -, hb⟩ := thenItems_eq_some.mp h
  rw [List.length_cons, hg a its' b hb]

/-- What is not a list of `n` items is refused. -/
theorem Takes.bind_elems? {g : List Item → Option α} (hg : Takes n g)
    (h : ∀ xs, xs.length = n → it ≠ .list xs) : it.elems?.bind g = none := by
  cases it with
  | str b => rfl
  | list xs =>
    refine Option.eq_none_iff_forall_ne_some.mpr fun v hv => ?_
    exact h xs (hg xs v hv) rfl

theorem eq_ofFn_of_length (h : xs.length = n) :
    xs = List.ofFn fun i : Fin n => xs.get (i.cast h.symm) := by
  rw [← List.ofFn_congr h, List.ofFn_get]

/-- Reading nothing takes no item. -/
theorem readsAll_pure (v : α) : ReadsAll (pure v) (noMore v) where
  noEol := noEol_pure v
  complete := by
    intro s its c rest w hkind ha hlen hv
    obtain ⟨rfl, rfl⟩ := noMore_eq_some.mp hv
    exact ⟨s, rfl, hkind, ha, (advance_zero _).symm⟩
  sound := by
    intro s s' c rest w hkind ha hr
    cases hr
    exact ⟨[], c, rfl, rfl, hkind, ha, (advance_zero _).symm⟩

/-- A field reads as its type does, but for the end of the list. -/
theorem field_noEol (name : String) : NoEol (field name d) := by
  intro s s' h
  obtain ⟨e, -, he⟩ := mapErr_eq_error.mp h
  split at he
  · cases he
  · next hne => exact hne (addErrorContext_eq_eol.mp he)

/-- **One field after the other.** -/
theorem Reads.field {k : α → Decoder β} (h : Reads d f) (name : String)
    (hk : ∀ a, ReadsAll (k a) (g a)) : ReadsAll (Gocoin.field name d >>= k) (thenItems f g) where
  noEol := (field_noEol name).bind fun a => (hk a).noEol
  complete := by
    intro s its c rest v hkind ha hlen hv
    obtain ⟨it, its', a, rfl, hf, hg⟩ := thenItems_eq_some.mp hv
    rw [encodeItems, List.length_append] at hlen
    rw [encodeItems, List.append_assoc] at ha
    obtain ⟨s₁, hs₁, hafter⟩ := h.complete hkind ha (by omega) hf
    obtain ⟨s₂, hs₂, hafter₂⟩ := (hk a).complete hafter.kind hafter.ahead (by omega) hg
    refine ⟨s₂, bind_eq_ok.mpr ⟨a, s₁, mapErr_eq_ok.mpr hs₁, hs₂⟩, ?_⟩
    rw [encodeItems, List.length_append]
    exact hafter.trans hafter₂
  sound := by
    intro s s' c rest v hkind ha hr
    obtain ⟨a, s₁, hd, hr⟩ := bind_eq_ok.mp hr
    obtain ⟨it, c₁, rfl, hf, hafter⟩ := h.sound hkind ha (mapErr_eq_ok.mp hd)
    obtain ⟨its, c₂, rfl, hg, hafter₂⟩ := (hk a).sound hafter.kind hafter.ahead hr
    refine ⟨it :: its, c₂, by rw [encodeItems, List.append_assoc],
      thenItems_eq_some.mpr ⟨it, its, a, rfl, hf, hg⟩, ?_⟩
    rw [encodeItems, List.length_append]
    exact hafter.trans hafter₂

/-! ## Entering and leaving lists -/

/-- The stream inside a list. -/
def entered (size : ℕ) (tag : Bytes) (s : Stream) : Stream :=
  { s.armed .list size tag with
    stack := ⟨0, size⟩ :: (s.armed .list size tag).stack, kind := none, size := 0 }

/-- **A list is entered** at its header… -/
theorem list_eq (hkind : s.kind = none) (hsize : size < 2 ^ 64)
    (h : Ahead s (puthead 0xC0 0xF7 size ++ c) rest) (hle : size ≤ c.length) :
    list s = .ok size (entered size (puthead 0xC0 0xF7 size) s) :=
  bind_of_ok (kindAhead_eq hkind (.list size hsize) h hle)

/-- …and nowhere else. -/
theorem list_ok (hkind : s.kind = none) (h : Ahead s c rest) (hr : list s = .ok size s') :
    ∃ c', c = puthead 0xC0 0xF7 size ++ c' ∧ size ≤ c'.length ∧
      s' = entered size (puthead 0xC0 0xF7 size) s := by
  obtain ⟨⟨k, size'⟩, s₁, hk, hr⟩ := bind_eq_ok.mp hr
  obtain ⟨tag, c', rfl, ht, hle, rfl⟩ := kindAhead_ok hkind h hk
  cases ht with
  | byte x _ => cases hr
  | string _ _ => cases hr
  | list _ _ =>
    cases hr
    exact ⟨c', rfl, hle, rfl⟩

theorem endsAtEol_list : EndsAtEol list := endsAtEol_kindAhead fun r => by
  obtain ⟨k, size⟩ := r
  cases k with
  | byte | string => exact noEol_throw (by simp)
  | list => exact NoEol.bind (fun s s' h => by cases h) fun _ => noEol_pure _

/-- In a list its content lies ahead. -/
theorem ahead_entered (h : Ahead s (tag ++ (content ++ c)) rest) (hsize : content.length = size) :
    Ahead (entered size tag s) content (c ++ rest) where
  input := by
    have := h.skip.input
    rw [List.append_assoc] at this
    exact this
  limit := h.skip.limit
  room := by
    intro tos htos
    cases htos
    rw [hsize, Nat.zero_add]
  top := fun hs => by cases hs

/-- **Leaving a list**: all of it has been read, and the enclosing list goes on behind it. -/
theorem listEnd_eq (h : Ahead s (tag ++ (content ++ c)) rest)
    (ha : After (entered content.length tag s) s' content.length [] (c ++ rest)) :
    ∃ s'', listEnd s' = .ok () s'' ∧ After s s'' (tag ++ content).length c rest := by
  have hin : s'.input = c ++ rest := ha.ahead.input
  have hstack : s'.stack = ⟨0 + content.length, content.length⟩ :: advance tag.length s.stack :=
    ha.stack
  unfold listEnd
  rw [hstack]
  simp only [Nat.zero_add, ne_eq, not_true_eq_false, if_false]
  cases hs : s.stack with
  | nil =>
    refine ⟨_, rfl, rfl, ⟨hin, ha.ahead.limit, nofun, fun _ => h.top hs⟩, ?_⟩
    rw [hs]
    rfl
  | cons tos l =>
    refine ⟨_, rfl, rfl, ⟨hin, ha.ahead.limit, ?_, nofun⟩, ?_⟩
    · intro t ht
      cases ht
      have := h.room tos (by rw [hs]; rfl)
      simp only [List.length_append] at this
      simp only
      omega
    · rw [hs]
      simp [advance, Nat.add_assoc]

/-- A list can be left when its content is read. -/
theorem listEnd_ok {u : Unit} {s'' : Stream} {l : List Listpos} (hstack : s₁.stack = ⟨0, size⟩ :: l)
    (ha : After s₁ s' n c rest) (hr : listEnd s' = .ok u s'') :
    n = size := by
  have hs := ha.stack
  rw [hstack] at hs
  unfold listEnd at hr
  rw [hs] at hr
  simp only [advance, Nat.zero_add] at hr
  split at hr
  · cases hr
  · next hne => exact not_not.mp hne

/-- The elements of a list. -/
theorem encode_list_eq (its : List Item) :
    encode (.list its) = puthead 0xC0 0xF7 (encodeItems its).length ++ encodeItems its := by
  rw [encode]

/-- **Lists.**  A decoder that enters a list, reads what is in it and leaves it. -/
theorem reads_list {body : ℕ → Decoder α} {close : Decoder Unit} {g : List Item → Option α}
    (hbody : ∀ size, NoEol (body size)) (hclose : NoEol close)
    (hend : ∀ {s s' : Stream} {u : Unit}, close s = .ok u s' ↔ listEnd s = .ok u s')
    (hcomplete : ∀ {s : Stream} {its : List Item} {rest : Bytes} {v : α}, s.kind = none →
      s.stack ≠ [] → Ahead s (encodeItems its) rest → (encodeItems its).length < 2 ^ 64 →
      g its = some v → ∃ s', body (encodeItems its).length s = .ok v s' ∧
        After s s' (encodeItems its).length [] rest)
    (hsound : ∀ {s s' : Stream} {c rest : Bytes} {v : α}, s.kind = none → Ahead s c rest →
      body c.length s = .ok v s' → ∃ its c', c = encodeItems its ++ c' ∧ g its = some v ∧
        After s s' (encodeItems its).length c' rest) :
    Reads (do
      let size ← list.mapErr wrapStreamError
      let a ← body size
      close
      pure a) fun it => it.elems?.bind g where
  toEndsAtEol := (endsAtEol_list.mapErr fun _ => wrapStreamError_eq_eol).bind fun size =>
    (hbody size).bind fun a => hclose.bind fun _ => noEol_pure a
  complete := by
    intro s it c rest v hkind ha hlen hv
    obtain ⟨its, hits, hg⟩ := Option.bind_eq_some_iff.mp hv
    cases it with
    | str b => cases hits
    | list xs =>
      cases hits
      have hlt := length_encode_list its
      rw [encode_list_eq] at ha hlen ⊢
      rw [List.append_assoc] at ha
      rw [encode_list_eq] at hlt
      have hlist := list_eq hkind (by omega) ha (by simp)
      obtain ⟨s₂, hs₂, hafter⟩ := hcomplete (s := entered _ _ s) rfl nofun (ahead_entered ha rfl)
        (by omega) hg
      obtain ⟨s₃, hs₃, hafter₃⟩ := listEnd_eq ha hafter
      exact ⟨s₃, bind_eq_ok.mpr ⟨_, _, mapErr_eq_ok.mpr hlist, bind_eq_ok.mpr ⟨v, s₂, hs₂,
        bind_eq_ok.mpr ⟨(), s₃, hend.mpr hs₃, rfl⟩⟩⟩, hafter₃⟩
  sound := by
    intro s s' c rest v hkind ha hr
    obtain ⟨size, s₁, hlist, hr⟩ := bind_eq_ok.mp hr
    obtain ⟨w, s₂, hd, hr⟩ := bind_eq_ok.mp hr
    obtain ⟨u, s₃, hleft, hr⟩ := bind_eq_ok.mp hr
    cases hr
    obtain ⟨c', rfl, hle, rfl⟩ := list_ok hkind ha (mapErr_eq_ok.mp hlist)
    obtain ⟨content, c'', rfl, rfl⟩ : ∃ a b, c' = a ++ b ∧ a.length = size :=
      ⟨c'.take size, c'.drop size, (List.take_append_drop size c').symm, by simp [hle]⟩
    obtain ⟨its, c₃, rfl, hg, hafter⟩ := hsound rfl (ahead_entered ha rfl) hd
    have hn := listEnd_ok rfl hafter (hend.mp hleft)
    obtain rfl : c₃ = [] := by
      rw [List.length_append] at hn
      exact List.length_eq_zero_iff.mp (by omega)
    simp only [List.append_nil] at ha hafter ⊢
    obtain ⟨s₄, hs₄, hafter₄⟩ := listEnd_eq ha hafter
    rw [hend.mp hleft] at hs₄
    cases hs₄
    refine ⟨.list its, c'', by rw [encode_list_eq, List.append_assoc], hg, ?_⟩
    rw [encode_list_eq]
    exact hafter₄

/-- **Structs.** -/
theorem reads_struct {g : List Item → Option α} (h : ReadsAll d g) :
    Reads (decodeStruct d) fun it => it.elems?.bind g := by
  refine reads_list (fun _ => h.noEol) (noEol_listEnd.mapErr fun _ => wrapStreamError_eq_eol.mp)
    mapErr_eq_ok (fun hkind _ ha hlen hg => ?_) h.sound
  exact h.complete hkind (by rwa [List.append_nil]) hlen hg

/-- A look at the header ahead of a struct changes nothing, not even when it fails. -/
theorem peek_struct (r : Kind × ℕ) (d : Decoder α) :
    (kindAhead.orValue r >>= fun _ => decodeStruct d) = decodeStruct d := by
  funext s
  have hcongr : ∀ {s'}, kindAhead s' = kindAhead s → decodeStruct d s' = decodeStruct d s := by
    intro s' hs
    have hlist : list s' = list s := by
      show EStateM.bind _ _ _ = EStateM.bind _ _ _
      unfold EStateM.bind
      rw [hs]
    show EStateM.bind _ _ _ = EStateM.bind _ _ _
    unfold EStateM.bind Decoder.mapErr
    rw [hlist]
  cases hk : kindAhead s with
  | ok a s₁ =>
    have hval : kindAhead.orValue r s = .ok a s₁ := by rw [Decoder.orValue, hk]
    rw [bind_of_ok hval, hcongr (by rw [hk, kindAhead_idem hk])]
  | error e s₁ =>
    have hval : kindAhead.orValue r s = .ok r s₁ := by rw [Decoder.orValue, hk]
    rw [bind_of_ok hval, hcongr (by rw [hk, kindAhead_idem_error hk])]

/-! ## Slices -/

/-- No item is written as nothing. -/
theorem length_le_encodeItems (its : List Item) : its.length ≤ (encodeItems its).length := by
  induction its with
  | nil => rfl
  | cons it its ih =>
    have := length_encode_pos it
    rw [encodeItems, List.length_append, List.length_cons]
    omega

theorem decodeSliceElems_succ (d : Decoder α) (fuel i : ℕ) (s : Stream) :
    decodeSliceElems d (fuel + 1) i s =
      match d s with
      | .error e s =>
        if e = .eol then .ok [] s else .error (addErrorContext ("[" ++ toString i ++ "]") e) s
      | .ok a s => (decodeSliceElems d fuel (i + 1) >>= fun as => pure (a :: as)) s := rfl

/-- A slice takes the end of its list as its own. -/
theorem noEol_sliceElems (d : Decoder α) : ∀ fuel i, NoEol (decodeSliceElems d fuel i)
  | 0, _ => noEol_throw (by simp)
  | fuel + 1, i => fun s s' h => by
      rw [decodeSliceElems_succ] at h
      split at h
      · split at h
        · cases h
        · next hne =>
          simp only [EStateM.Result.error.injEq, addErrorContext_eq_eol] at h
          exact hne h.1
      · exact ((noEol_sliceElems d fuel (i + 1)).bind fun as => noEol_pure _) _ _ h

/-- The elements up to the end of the list are read. -/
theorem Reads.sliceElems (h : Reads d f) {vs : List α}
    (hv : List.Forall₂ (fun it v => f it = some v) its vs) :
    ∀ {fuel i : ℕ} {s : Stream}, s.kind = none → s.stack ≠ [] → Ahead s (encodeItems its) rest →
      (encodeItems its).length < 2 ^ 64 → its.length < fuel →
      ∃ s', decodeSliceElems d fuel i s = .ok vs s' ∧
        After s s' (encodeItems its).length [] rest := by
  induction hv with
  | nil =>
    intro fuel i s hkind hs ha _ hfuel
    obtain ⟨fuel, rfl⟩ := Nat.exists_eq_succ_of_ne_zero (Nat.ne_zero_of_lt hfuel)
    obtain ⟨s', hs'⟩ := h.ended hkind ha hs
    obtain ⟨-, hafter⟩ := h.eol hkind ha hs'
    refine ⟨s', ?_, hafter⟩
    rw [decodeSliceElems_succ, hs']
    rfl
  | @cons it v its vs hf _ ih =>
    intro fuel i s hkind hs ha hlen hfuel
    obtain ⟨fuel, rfl⟩ := Nat.exists_eq_succ_of_ne_zero (Nat.ne_zero_of_lt hfuel)
    rw [encodeItems] at ha hlen ⊢
    rw [List.length_append] at hlen
    rw [List.length_cons] at hfuel
    obtain ⟨s₁, hs₁, hafter⟩ := h.complete hkind ha (by omega) hf
    have hne : s₁.stack ≠ [] := by
      rw [hafter.stack]
      exact fun he => hs (advance_eq_nil.mp he)
    obtain ⟨s₂, hs₂, hafter₂⟩ := ih (i := i + 1) hafter.kind hne hafter.ahead (by omega)
      (Nat.lt_of_succ_lt_succ hfuel)
    refine ⟨s₂, ?_, ?_⟩
    · rw [decodeSliceElems_succ, hs₁]
      exact bind_eq_ok.mpr ⟨vs, s₂, hs₂, rfl⟩
    · rw [List.length_append]
      exact hafter.trans hafter₂

/-- **What a slice reads are items**, one for each element. -/
theorem Reads.of_sliceElems (h : Reads d f) :
    ∀ {fuel i : ℕ} {s s' : Stream} {c : Bytes} {vs : List α}, s.kind = none → Ahead s c rest →
      decodeSliceElems d fuel i s = .ok vs s' →
      ∃ its, c = encodeItems its ∧ List.Forall₂ (fun it v => f it = some v) its vs ∧
        After s s' c.length [] rest
  | 0, i, s, s', c, vs, _, _, hr => by cases hr
  | fuel + 1, i, s, s', c, vs, hkind, ha, hr => by
      rw [decodeSliceElems_succ] at hr
      split at hr
      · next e s₁ hd =>
        split at hr
        · next he =>
          cases hr
          obtain ⟨⟨-, rfl⟩, hafter⟩ := h.eol hkind ha (he ▸ hd)
          exact ⟨[], rfl, .nil, hafter⟩
        · cases hr
      · next v s₁ hd =>
        obtain ⟨it, c₁, rfl, hf, hafter⟩ := h.sound hkind ha hd
        obtain ⟨ws, s₂, hws, hr⟩ := bind_eq_ok.mp hr
        cases hr
        obtain ⟨its, rfl, hvs, hafter₂⟩ := h.of_sliceElems hafter.kind hafter.ahead hws
        refine ⟨it :: its, by rw [encodeItems], .cons hf hvs, ?_⟩
        rw [List.length_append]
        exact hafter.trans hafter₂

/-- **Slices.** -/
theorem reads_listSlice (h : Reads d f) :
    Reads (decodeListSlice d) fun it => it.elems?.bind fun its => its.mapM f := by
  have heq : decodeListSlice d = list.mapErr wrapStreamError >>= fun size =>
      (if size = 0 then pure [] else decodeSliceElems d (size + 1) 0) >>= fun as =>
        listEnd >>= fun _ => pure as :=
    congrArg (list.mapErr wrapStreamError >>= ·) (funext fun size => by split <;> rfl)
  rw [heq]
  refine reads_list (fun size => ?_) noEol_listEnd .rfl ?_ ?_
  · exact (noEol_pure _).ite (noEol_sliceElems d _ _)
  · intro s its rest vs hkind hs ha hlen hg
    split
    · next h0 =>
      obtain rfl : its = [] := by
        by_contra hne
        exact encodeItems_ne_nil hne h0
      cases hg
      exact ⟨s, rfl, hkind, ha, (advance_zero _).symm⟩
    · exact h.sliceElems (mapM_eq_some_iff.mp hg) hkind hs ha hlen
        (Nat.lt_succ_of_le (length_le_encodeItems its))
  · intro s s' c rest vs hkind ha hr
    split at hr
    · next h0 =>
      cases hr
      obtain rfl := List.length_eq_zero_iff.mp h0
      exact ⟨[], [], rfl, rfl, hkind, ha, (advance_zero _).symm⟩
    · obtain ⟨its, rfl, hvs, hafter⟩ := h.of_sliceElems hkind ha hr
      exact ⟨its, [], (List.append_nil _).symm, mapM_eq_some_iff.mpr hvs, hafter⟩

/-! ## Byte strings -/

/-- `DecodeBytes` is a run of the decoder that leaves nothing. -/
theorem decodeBytes_eq_ok : decodeBytes d b = .ok v ↔ ∃ s, d (.new b) = .ok v s ∧ s.input = [] := by
  unfold decodeBytes
  cases d (.new b) with
  | error e s => simp
  | ok w s =>
    by_cases hend : s.input = []
    · simp [hend]
    · simp [hend, List.length_pos_iff.mpr hend]

/-- An accepted byte string is an encoding, however long it is. -/
theorem exists_item_of_decodeBytes (h : Reads d f) (hr : decodeBytes d b = .ok v) :
    ∃ it, b = encode it ∧ f it = some v := by
  obtain ⟨s, hd, hend⟩ := decodeBytes_eq_ok.mp hr
  obtain ⟨it, c', hc, hf, hafter⟩ := h.sound rfl (ahead_new b) hd
  have hnil : c' = [] := by
    have hin := hafter.ahead.input
    rwa [List.append_nil, hend, eq_comm] at hin
  exact ⟨it, by rw [hc, hnil, List.append_nil], hf⟩

/-- **What `DecodeBytes` accepts**: the encodings of the items that have a value. -/
theorem decodeBytes_eq_ok_iff (h : Reads d f) (hb : b.length < 2 ^ 64) :
    decodeBytes d b = .ok v ↔ ∃ it, b = encode it ∧ f it = some v := by
  refine ⟨exists_item_of_decodeBytes h, ?_⟩
  rintro ⟨it, rfl, hf⟩
  have ha := ahead_new (encode it)
  obtain ⟨s', hs', hafter⟩ := h.complete (c := []) rfl (by rwa [List.append_nil]) hb hf
  exact decodeBytes_eq_ok.mpr ⟨s', hs', hafter.ahead.input⟩

end Reads

end Gocoin
