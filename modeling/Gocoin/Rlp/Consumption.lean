import Gocoin.Rlp.Headers

/-!
# Rlp/Consumption — a value takes input

Whatever the limit of a stream is and whatever lists are open, reading never gives input back
(`Shrinks`), and a header takes a byte.  So a byte string that is read takes input (`Consumes`), and
a slice has no more elements than there were bytes (`length_decodeSliceElems_le`).
-/

namespace Gocoin

open Rlp Gocoin.Stream

variable {α β : Type}

/-- What is left of the input when a decoder succeeds is no more than there was. -/
def Shrinks (d : Decoder α) : Prop := ∀ ⦃s a s'⦄, d s = .ok a s' → s'.input.length ≤ s.input.length

/-- A decoder that succeeds leaves no header behind. -/
def Rearms (d : Decoder α) : Prop := ∀ ⦃s a s'⦄, d s = .ok a s' → s'.kind = none

/-- A decoder that starts without a header, and succeeds, takes input and leaves no header. -/
def Consumes (d : Decoder α) : Prop :=
  ∀ ⦃s a s'⦄, s.kind = none → d s = .ok a s' → s'.kind = none ∧ s'.input.length < s.input.length

/-! ## How they compose -/

theorem shrinks_pure (a : α) : Shrinks (pure a : Decoder α) := fun s b s' h => by
  cases h
  exact le_rfl

theorem shrinks_throw (e : StreamErr) : Shrinks (throw e : Decoder α) := fun s b s' h => by cases h

variable {x d : Decoder α} {u : Unit} {b : Bytes} {k : Kind} {size : ℕ}

theorem Shrinks.bind {f : α → Decoder β} (hx : Shrinks x) (hf : ∀ a, Shrinks (f a)) :
    Shrinks (x >>= f) := fun s b s' h => by
  obtain ⟨a, s₁, h₁, h₂⟩ := bind_eq_ok.mp h
  exact (hf a h₂).trans (hx h₁)

theorem Shrinks.ite {p : Prop} [Decidable p] {y : Decoder α} (hx : Shrinks x) (hy : Shrinks y) :
    Shrinks (if p then x else y) := by
  split
  · exact hx
  · exact hy

theorem Consumes.mapErr (hd : Consumes d) (g : StreamErr → StreamErr) :
    Consumes (d.mapErr g) := fun _ _ _ hkind h => hd hkind (mapErr_eq_ok.mp h)

/-! ## Bytes and headers -/

variable {n : ℕ} {s s' : Stream} {r : Kind × ℕ}

theorem takeLimit_ok (h : takeLimit n s = .ok u s') : s'.input = s.input ∧ s'.kind = s.kind := by
  unfold takeLimit at h
  split at h
  · cases h
  · cases h
    exact ⟨rfl, rfl⟩

theorem willRead_ok (h : willRead n s = .ok u s') : s'.input = s.input ∧ s'.kind = none := by
  unfold willRead at h
  split at h
  · exact takeLimit_ok h
  · split at h
    · cases h
    · exact takeLimit_ok h

theorem input?_ok (h : input? n s = .ok b s') :
    b.length = n ∧ s'.input.length + n = s.input.length ∧ s'.kind = s.kind := by
  unfold input? at h
  split at h
  · next hle =>
    cases h
    refine ⟨List.length_take_of_le hle, ?_, rfl⟩
    rw [List.length_drop]
    omega
  · cases h

theorem readFull_ok (h : readFull n s = .ok b s') :
    b.length = n ∧ s'.input.length + n = s.input.length ∧ s'.kind = none := by
  obtain ⟨u, s₁, h₁, h₂⟩ := bind_eq_ok.mp h
  obtain ⟨hinput, hkind⟩ := willRead_ok h₁
  obtain ⟨hlen, hrest, hkind'⟩ := input?_ok h₂
  exact ⟨hlen, hinput ▸ hrest, hkind'.trans hkind⟩

theorem readByte_ok {x : UInt8} (h : readByte s = .ok x s') : s'.input.length < s.input.length := by
  obtain ⟨u, s₁, h₁, h⟩ := bind_eq_ok.mp h
  obtain ⟨b, s₂, h₂, h⟩ := bind_eq_ok.mp h
  obtain ⟨hlen, hrest, -⟩ := input?_ok h₂
  cases b with
  | nil => cases h
  | cons y b =>
    cases h
    rw [← (willRead_ok h₁).1]
    omega

theorem shrinks_rearm : Shrinks rearm := fun s a s' h => by
  cases h
  exact le_rfl

theorem shrinks_readFull (n : ℕ) : Shrinks (readFull n) := fun s b s' h => by
  have := (readFull_ok h).2.1
  omega

theorem shrinks_readUint (size : ℕ) : Shrinks (readUint size) := by
  unfold readUint
  split
  · exact shrinks_rearm.bind fun _ => shrinks_pure 0
  · exact Shrinks.bind (fun s x s' h => (readByte_ok h).le) fun b => shrinks_pure _
  · exact (shrinks_readFull _).bind fun b => (shrinks_throw _).ite (shrinks_pure _)

theorem longKind_ok (h : (longKind k (readUint size s)).1.2.2 = none) :
    (longKind k (readUint size s)).2.input.length ≤ s.input.length := by
  cases hr : readUint size s with
  | ok v s' => exact shrinks_readUint size hr
  | error e s' =>
    rw [hr] at h
    cases h

/-- A header that is read takes a byte at least. -/
theorem readKind_ok (h : s.readKind.1.2.2 = none) : s.readKind.2.input.length < s.input.length := by
  cases hr : readByte s with
  | error e s' =>
    rw [Stream.readKind, hr] at h
    cases h
  | ok b s' =>
    have hlt := readByte_ok hr
    simp only [Stream.readKind, hr] at h ⊢
    split_ifs at h ⊢
    · exact hlt
    · exact hlt
    · exact (longKind_ok h).trans_lt hlt
    · exact hlt
    · exact (longKind_ok h).trans_lt hlt

theorem cached_ok (h : cached k s = .ok r s') : s.kinderr = none ∧ s' = s := by
  unfold cached at h
  split at h
  · next hnone =>
    cases h
    exact ⟨hnone, rfl⟩
  · cases h

theorem nextKind_ok (h : nextKind s = .ok r s') : s'.input.length < s.input.length := by
  unfold nextKind at h
  split at h
  · cases h
  · obtain ⟨hnone, rfl⟩ := cached_ok h
    exact readKind_ok (Option.or_eq_none_iff.mp hnone).1

/-- Where no header was read before, `Kind` takes a byte at least. -/
theorem kindAhead_lt (hkind : s.kind = none) (h : kindAhead s = .ok r s') :
    s'.input.length < s.input.length := by
  simp only [kindAhead, hkind] at h
  have hlt := nextKind_ok h
  exact hlt

theorem shrinks_kindAhead : Shrinks kindAhead := fun s r s' h => by
  cases hkind : s.kind with
  | none => exact (kindAhead_lt hkind h).le
  | some k =>
    rw [kindAhead, hkind] at h
    rw [(cached_ok h).2]

theorem consumes_kindAhead {k : Kind × ℕ → Decoder α} (hk : ∀ r, Shrinks (k r))
    (hrearm : ∀ r, Rearms (k r)) : Consumes (kindAhead >>= k) := fun s a s' hkind h => by
  obtain ⟨r, s₁, h₁, h₂⟩ := bind_eq_ok.mp h
  exact ⟨hrearm r h₂, (hk r h₂).trans_lt (kindAhead_lt hkind h₁)⟩

/-! ## Values -/

theorem consumes_bytes : Consumes bytes := by
  refine consumes_kindAhead (fun r => ?_) fun r => ?_
  · obtain ⟨k, size⟩ := r
    cases k with
    | byte =>
      exact Shrinks.bind (fun s a s' h => by cases h; exact le_rfl) fun b =>
        shrinks_rearm.bind fun _ => shrinks_pure _
    | string =>
      exact (shrinks_readFull size).bind fun b => (shrinks_throw _).ite (shrinks_pure _)
    | list => exact shrinks_throw _
  · obtain ⟨k, size⟩ := r
    cases k with
    | byte =>
      intro s a s' h
      cases h
      rfl
    | string =>
      intro s a s' h
      obtain ⟨b, s₁, h₁, h₂⟩ := bind_eq_ok.mp h
      split at h₂
      · cases h₂
      · cases h₂
        exact (readFull_ok h₁).2.2
    | list =>
      intro s a s' h
      cases h

theorem consumes_decodeByteSlice : Consumes decodeByteSlice := consumes_bytes.mapErr _

theorem shrinks_decodeByteArray (hn : n ≠ 1) : Shrinks (decodeByteArray n) := by
  refine shrinks_kindAhead.bind fun r => ?_
  obtain ⟨k, size⟩ := r
  cases k with
  | byte =>
    by_cases h0 : n = 0
    · exact fun s a s' h => by simp [byteArrayOf, h0] at h
    · exact fun s a s' h => by simp [byteArrayOf, h0, (by omega : 1 < n)] at h
  | string =>
    exact (shrinks_throw _).ite ((shrinks_throw _).ite ((shrinks_readFull n).bind fun b =>
      (shrinks_throw _).ite (shrinks_pure _)))
  | list => exact shrinks_throw _

/-- Entering a list. -/
theorem list_enters (h : Stream.list s = .ok size s') :
    s'.kind = none ∧ s'.input.length ≤ s.input.length ∧ s'.stack.head? = some ⟨0, size⟩ := by
  obtain ⟨⟨k, n⟩, s₁, h₁, h₂⟩ := bind_eq_ok.mp h
  cases k with
  | byte => cases h₂
  | string => cases h₂
  | list =>
    have hle := shrinks_kindAhead h₁
    cases h₂
    exact ⟨rfl, hle, rfl⟩

/-- **A slice has no more elements than there were bytes.** -/
theorem length_decodeSliceElems_le (hd : Consumes d) {fuel i : ℕ} {as : List α}
    (hkind : s.kind = none) (h : decodeSliceElems d fuel i s = .ok as s') :
    as.length ≤ s.input.length := by
  induction fuel generalizing i s as with
  | zero => cases h
  | succ fuel ih =>
    rw [decodeSliceElems] at h
    cases hr : d s with
    | error e s₁ =>
      simp only [hr] at h
      split at h
      · cases h
        exact Nat.zero_le _
      · cases h
    | ok a s₁ =>
      simp only [hr] at h
      obtain ⟨as', s₂, h₁, h₂⟩ := bind_eq_ok.mp h
      cases h₂
      obtain ⟨hkind₁, hlt⟩ := hd hkind hr
      exact (ih hkind₁ h₁).trans_lt hlt

end Gocoin
