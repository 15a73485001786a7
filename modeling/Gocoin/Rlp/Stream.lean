import Gocoin.Machinery.RlpValue

/-!
# Rlp/Stream — the reader of `rlp/decode.go`

A stream reads a byte string value by value.  `kind` reads the header of the next value once and
keeps what it said until the value is read; `list` enters a list and `listEnd` leaves it, and in
between nothing is read beyond the list's end.  The decoders of the types follow: integers, byte
strings, byte arrays, optional pointers, slices and structs.  Only the errors of `kind` stay with
the stream; every other error ends the decoding, but for the end of a list, which ends a slice.
-/

namespace Gocoin

open Rlp BigEndian

/-- The errors of the package. -/
inductive StreamErr where
  | eol
  | expectedString
  | expectedList
  | canonInt
  | canonSize
  | elemTooLarge
  | valueTooLarge
  | moreThanOneValue
  | notInList
  | notAtEOL
  | uintOverflow
  | eof
  | unexpectedEOF
  /-- `decodeError`: a message and the path to the value, innermost first. -/
  | decode (msg : String) (ctx : List String)
  deriving DecidableEq

/-- `wrapStreamError`. -/
def wrapStreamError : StreamErr → StreamErr
  | .canonInt => .decode "non-canonical integer (leading zero bytes)" []
  | .canonSize => .decode "non-canonical size information" []
  | .expectedList => .decode "expected input list" []
  | .expectedString => .decode "expected input string or byte" []
  | .uintOverflow => .decode "input string too long" []
  | .notAtEOL => .decode "input list has too many elements" []
  | e => e

/-- `addErrorContext`. -/
def addErrorContext (ctx : String) : StreamErr → StreamErr
  | .decode msg ctxs => .decode msg (ctxs ++ [ctx])
  | e => e

/-- `listpos`. -/
structure Listpos where
  pos : ℕ
  size : ℕ

/-- `Stream`, over a byte slice: what is left of it, the input limit, what `kind` read last —
nothing is `-1` — and the lists that are open, the innermost first. -/
structure Stream where
  input : Bytes
  remaining : ℕ
  kind : Option Kind
  size : ℕ
  byteval : UInt8
  kinderr : Option StreamErr
  stack : List Listpos

/-- What reads from a stream; an error leaves the stream where it happened. -/
abbrev Decoder := EStateM StreamErr Stream

/-- An error is passed through a function. -/
def Decoder.mapErr {α : Type} (f : StreamErr → StreamErr) (d : Decoder α) : Decoder α := fun s =>
  match d s with
  | .ok a s => .ok a s
  | .error e s => .error (f e) s

/-- An error is dropped, and a value taken instead. -/
def Decoder.orValue {α : Type} (d : Decoder α) (a : α) : Decoder α := fun s =>
  match d s with
  | .ok v s => .ok v s
  | .error _ s => .ok a s

namespace Stream

/-- `NewStream` on a byte slice: the limit is its length. -/
def new (b : Bytes) : Stream := ⟨b, b.length, none, 0, 0, none, []⟩

/-- The second half of `willRead`: the input limit. -/
def takeLimit (n : ℕ) : Decoder Unit := fun s =>
  if n > s.remaining then .error .valueTooLarge s
  else .ok () { s with remaining := s.remaining - n }

/-- `willRead`: the innermost list has room, and so has the input. -/
def willRead (n : ℕ) : Decoder Unit := fun s =>
  match s.stack with
  | [] => takeLimit n { s with kind := none }
  | tos :: rest =>
    if n > tos.size - tos.pos then .error .elemTooLarge { s with kind := none }
    else takeLimit n { s with kind := none, stack := ⟨tos.pos + n, tos.size⟩ :: rest }

/-- The bytes of the reader. -/
def input? (n : ℕ) : Decoder Bytes := fun s =>
  if n ≤ s.input.length then .ok (s.input.take n) { s with input := s.input.drop n }
  else .error .unexpectedEOF { s with input := [] }

/-- `readFull` into a buffer of `n` bytes. -/
def readFull (n : ℕ) : Decoder Bytes := do
  willRead n
  input? n

/-- `readByte`. -/
def readByte : Decoder UInt8 := do
  willRead 1
  let b ← input? 1
  match b with
  | x :: _ => pure x
  | [] => throw .unexpectedEOF

/-- `s.kind = -1`: the next call of `kindAhead` reads a header. -/
def rearm : Decoder Unit := fun s => .ok () { s with kind := none }

/-- `readUint`, of a number of bytes. -/
def readUint (size : ℕ) : Decoder ℕ :=
  match size with
  | 0 => do
    rearm
    pure 0
  | 1 => do
    let b ← readByte
    pure b.toNat
  | size => do
    let b ← readFull size
    if b.head? = some 0 then throw .canonSize else pure (ofBytes b)

/-- What `readKind` makes of a long size. -/
def longKind (k : Kind) : EStateM.Result StreamErr Stream ℕ → (Kind × ℕ × Option StreamErr) × Stream
  | .ok size s => ((k, size, if size < 56 then some .canonSize else none), s)
  | .error e s => ((k, 0, some e), s)

/-- `readKind`; at the top a missing byte is the end of the input. -/
def readKind (s : Stream) : (Kind × ℕ × Option StreamErr) × Stream :=
  match readByte s with
  | .error e s =>
    ((.byte, 0, some (if s.stack.isEmpty ∧ (e = .unexpectedEOF ∨ e = .valueTooLarge) then .eof
      else e)), s)
  | .ok b s =>
    let s := { s with byteval := 0 }
    if b.toNat < 0x80 then ((.byte, 0, none), { s with byteval := b })
    else if b.toNat < 0xB8 then ((.string, b.toNat - 0x80, none), s)
    else if b.toNat < 0xC0 then longKind .string (readUint (b.toNat - 0xB7) s)
    else if b.toNat < 0xF8 then ((.list, b.toNat - 0xC0, none), s)
    else longKind .list (readUint (b.toNat - 0xF7) s)

/-- The size of a value against the room there is. -/
def sizeErr (size : ℕ) (s : Stream) : Option StreamErr :=
  match s.stack with
  | [] => if size > s.remaining then some .valueTooLarge else none
  | tos :: _ => if size > tos.size - tos.pos then some .elemTooLarge else none

/-- The stream stands at the end of the innermost list. -/
def atEOL (s : Stream) : Bool := s.stack.head?.any fun tos => tos.pos == tos.size

/-- What the stream remembers of the header ahead. -/
def cached (k : Kind) : Decoder (Kind × ℕ) := fun s =>
  match s.kinderr with
  | none => .ok (k, s.size) s
  | some e => .error e s

/-- A header is kept, with its error or that of its size. -/
def remember (r : (Kind × ℕ × Option StreamErr) × Stream) :
    EStateM.Result StreamErr Stream (Kind × ℕ) :=
  cached r.1.1 { r.2 with
    kind := some r.1.1, size := r.1.2.1, kinderr := r.1.2.2.or (sizeErr r.1.2.1 r.2) }

/-- The header of the next value, unless the list has ended. -/
def nextKind : Decoder (Kind × ℕ) := fun s =>
  if s.atEOL then .error .eol s else remember (readKind s)

/-- `Kind`. -/
def kindAhead : Decoder (Kind × ℕ) := fun s =>
  match s.kind with
  | some k => cached k s
  | none => nextKind { s with kinderr := none }

/-- The single byte that was the header. -/
def byteAhead : Decoder UInt8 := fun s => .ok s.byteval s

/-- `Bytes`. -/
def bytes : Decoder Bytes := do
  let (kind, size) ← kindAhead
  match kind with
  | .byte =>
    let b ← byteAhead
    rearm
    pure [b]
  | .string =>
    let b ← readFull size
    if size = 1 ∧ b.head?.any (fun x => decide (x.toNat < 128)) then throw .canonSize else pure b
  | .list => throw .expectedString

/-- `readUint` of an integer, where a leading zero is not a matter of size. -/
def readInt (size : ℕ) : Decoder ℕ :=
  (readUint size).mapErr fun e => if e = .canonSize then .canonInt else e

/-- `uint`. -/
def uint (maxbits : ℕ) : Decoder ℕ := do
  let (kind, size) ← kindAhead
  match kind with
  | .byte =>
    let b ← byteAhead
    if b = 0 then throw .canonInt
    else
      rearm
      pure b.toNat
  | .string =>
    if size > maxbits / 8 then throw .uintOverflow
    else
      let v ← readInt size
      if size > 0 ∧ v < 128 then throw .canonSize else pure v
  | .list => throw .expectedString

/-- A list is entered. -/
def enter (size : ℕ) : Decoder Unit := fun s =>
  .ok () { s with stack := ⟨0, size⟩ :: s.stack, kind := none, size := 0 }

/-- `List`. -/
def list : Decoder ℕ := do
  let (kind, size) ← kindAhead
  match kind with
  | .list =>
    enter size
    pure size
  | _ => throw .expectedList

/-- `ListEnd`. -/
def listEnd : Decoder Unit := fun s =>
  match s.stack with
  | [] => .error .notInList s
  | tos :: rest =>
    if tos.pos ≠ tos.size then .error .notAtEOL s
    else
      match rest with
      | [] => .ok () { s with stack := [], kind := none, size := 0 }
      | outer :: rest =>
        .ok () { s with
          stack := ⟨outer.pos + tos.size, outer.size⟩ :: rest, kind := none, size := 0 }

end Stream

open Gocoin.Stream

/-! ## The decoders of the types -/

/-- `decodeBigInt`. -/
def decodeBigInt : Decoder ℕ := do
  let b ← bytes.mapErr wrapStreamError
  if b.head? = some 0 then throw (wrapStreamError .canonInt) else pure (ofBytes b)

/-- `decodeUint`. -/
def decodeUint (bits : ℕ) : Decoder ℕ := (uint bits).mapErr wrapStreamError

/-- `decodeByteSlice`. -/
def decodeByteSlice : Decoder Bytes := bytes.mapErr wrapStreamError

/-- `decodeByteArray` behind the header, into an array of `n` bytes; the single byte of an array of
one is read by `Uint`, whose error is dropped. -/
def byteArrayOf (n : ℕ) : Kind × ℕ → Decoder Bytes := fun (kind, size) => do
  match kind with
  | .byte =>
    if n = 0 then throw (.decode "input string too long" [])
    else if n > 1 then throw (.decode "input string too short" [])
    else
      let v ← (uint 64).orValue 0
      pure [UInt8.ofNat v]
  | .string =>
    if n < size then throw (.decode "input string too long" [])
    else if n > size then throw (.decode "input string too short" [])
    else
      let b ← readFull n
      if size = 1 ∧ b.head?.any (fun x => decide (x.toNat < 128)) then
        throw (wrapStreamError .canonSize)
      else pure b
  | .list => throw (wrapStreamError .expectedString)

/-- `decodeByteArray`. -/
def decodeByteArray (n : ℕ) : Decoder Bytes := kindAhead >>= byteArrayOf n

/-- The decoder of a pointer with the tag `nil`: anything empty is no value. -/
def decodeOptionalPtr {α : Type} (d : Decoder α) : Decoder (Option α) := do
  let (kind, size) ← kindAhead
  if size = 0 ∧ kind ≠ .byte then do
    rearm
    pure none
  else do
    let a ← d
    pure (some a)

/-- A field of a struct: at the end of the list there are too few elements, and another error is
told where it happened. -/
def field {α : Type} (name : String) (d : Decoder α) : Decoder α :=
  d.mapErr fun e =>
    if e = .eol then .decode "too few elements" [] else addErrorContext ("." ++ name) e

/-- The decoder of a struct. -/
def decodeStruct {α : Type} (fields : Decoder α) : Decoder α := do
  let _ ← list.mapErr wrapStreamError
  let a ← fields
  listEnd.mapErr wrapStreamError
  pure a

/-- `decodeSliceElems`, from element `i` on: elements are read up to the end of the list.  Every
element takes a byte at least, so that a fuel above the number of bytes is never used up. -/
def decodeSliceElems {α : Type} (d : Decoder α) : ℕ → ℕ → Decoder (List α)
  | 0, _ => throw .eof
  | fuel + 1, i => fun s =>
    match d s with
    | .error e s =>
      if e = .eol then .ok [] s else .error (addErrorContext ("[" ++ toString i ++ "]") e) s
    | .ok a s => (do let as ← decodeSliceElems d fuel (i + 1); pure (a :: as)) s

/-- `decodeListSlice`. -/
def decodeListSlice {α : Type} (d : Decoder α) : Decoder (List α) := do
  let size ← list.mapErr wrapStreamError
  if size = 0 then do
    listEnd
    pure []
  else do
    let as ← decodeSliceElems d (size + 1) 0
    listEnd
    pure as

/-- `DecodeBytes`: one value, and nothing behind it. -/
def decodeBytes {α : Type} (d : Decoder α) (b : Bytes) : Except StreamErr α :=
  match d (.new b) with
  | .error e _ => .error e
  | .ok a s => if s.input.length > 0 then .error .moreThanOneValue else .ok a

end Gocoin
