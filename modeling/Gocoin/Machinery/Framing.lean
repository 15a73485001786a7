import Mathlib.Data.List.Infix

/-!
# Machinery/Framing — messages on a stream

A sender writes the encodings of its messages one after the other, and a connection hands the stream
on in reads, cut anywhere.  The receiver here takes every read for one message, and stops for good
at a read that is none.  It never delivers anything but an initial segment of the messages; and it
gets through exactly when the reads are the encodings, one by one (`Codec.receive_spec`).
-/

namespace Framing

variable {α β : Type*}

/-- A decoder for encodings none of which begins another one, as far as they fit. -/
structure Codec (enc : α → List β) (dec : List β → Option α) (Fits : List β → Prop) : Prop where
  ne_nil : ∀ m, enc m ≠ []
  begins : ∀ {m m' a b}, Fits (enc m) → Fits (enc m') → enc m ++ a = enc m' ++ b → m = m'
  sound : ∀ {r m}, dec r = some m → r = enc m
  complete : ∀ {m}, Fits (enc m) → dec (enc m) = some m

/-- One message for every read: what was delivered, and whether the receiver is still there. -/
def receive (dec : List β → Option α) : List (List β) → List α × Bool
  | [] => ([], true)
  | r :: reads =>
    match dec r with
    | none => ([], false)
    | some m => (m :: (receive dec reads).1, (receive dec reads).2)

variable {enc : α → List β} {dec : List β → Option α} {Fits : List β → Prop} {r : List β}
  {msgs : List α}

theorem receive_of_none (h : dec r = none) (reads : List (List β)) :
    receive dec (r :: reads) = ([], false) := by
  rw [receive, h]

theorem receive_of_some {m : α} (h : dec r = some m) (reads : List (List β)) :
    receive dec (r :: reads) = (m :: (receive dec reads).1, (receive dec reads).2) := by
  rw [receive, h]

/-- Reads that are the encodings are received. -/
theorem Codec.receive_map (hc : Codec enc dec Fits) (hmsgs : ∀ m ∈ msgs, Fits (enc m)) :
    receive dec (msgs.map enc) = (msgs, true) := by
  induction msgs with
  | nil => rfl
  | cons m msgs ih =>
    rw [List.map_cons, receive_of_some (hc.complete (hmsgs m List.mem_cons_self)),
      ih fun m' h' => hmsgs m' (List.mem_cons_of_mem _ h')]

/-- **What is received of a stream**: an initial segment of its messages, and the receiver is still
there exactly when every read was one encoding. -/
theorem Codec.receive_spec (hc : Codec enc dec Fits) {reads : List (List β)}
    (hreads : ∀ r ∈ reads, Fits r) (hmsgs : ∀ m ∈ msgs, Fits (enc m))
    (hstream : reads.flatten = (msgs.map enc).flatten) :
    (receive dec reads).1 <+: msgs ∧ ((receive dec reads).2 = true ↔ reads = msgs.map enc) := by
  induction reads generalizing msgs with
  | nil =>
    have hnil : msgs = [] := by
      cases msgs with
      | nil => rfl
      | cons m msgs => exact absurd (List.append_eq_nil_iff.mp hstream.symm).1 (hc.ne_nil m)
    subst hnil
    exact ⟨List.nil_prefix, by simp [receive]⟩
  | cons r reads ih =>
    cases hdec : dec r with
    | none =>
      rw [receive_of_none hdec]
      refine ⟨List.nil_prefix, iff_of_false Bool.false_ne_true fun hall => ?_⟩
      cases msgs with
      | nil => cases hall
      | cons m msgs =>
        rw [(List.cons.inj hall).1, hc.complete (hmsgs m List.mem_cons_self)] at hdec
        cases hdec
    | some m =>
      obtain rfl := hc.sound hdec
      rw [receive_of_some hdec]
      cases msgs with
      | nil => exact absurd (List.append_eq_nil_iff.mp hstream).1 (hc.ne_nil m)
      | cons m' msgs =>
        obtain rfl := hc.begins (hreads _ List.mem_cons_self) (hmsgs m' List.mem_cons_self) hstream
        obtain ⟨hpre, halive⟩ := ih (fun r hr => hreads r (List.mem_cons_of_mem _ hr))
          (fun m hm => hmsgs m (List.mem_cons_of_mem _ hm)) (List.append_cancel_left hstream)
        exact ⟨List.cons_prefix_cons.mpr ⟨rfl, hpre⟩, by simp [halive]⟩

end Framing
