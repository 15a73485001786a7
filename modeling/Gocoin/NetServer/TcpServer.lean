import Gocoin.Machinery.Framing
import Gocoin.Protocol.Wire

/-!
# NetServer/TcpServer — messages from a client

`clientHandle` of `common/netserver/tcpserver.go`.  The server reads into a buffer of 4096 bytes,
takes what one read gave for one encoded message, and sends the message to its feed.  `chkError` is
`log.Fatal`: an error — of the connection, its end included, or of the decoding — ends the process.
TCP keeps the bytes in order and keeps no boundaries between writes, so the messages of a client get
through exactly when the reads happen to be the encodings, one by one (`clientHandle_delivers_iff`).
-/

namespace Gocoin

namespace NetServer

open Rlp

/-- `NewMsgEvent`. -/
structure NewMsgEvent where
  id : UInt32
  msgData : Bytes
  deriving DecidableEq

namespace NewMsgEvent

/-- The writer of a message. -/
def write (m : NewMsgEvent) : Writer := writeList [writeUint m.id.toNat, writeBytes m.msgData]

/-- The decoder of a message. -/
def decode : Decoder NewMsgEvent := decodeStruct do
  let id ← field "Id" decodeUint32
  let msgData ← field "MsgData" decodeByteSlice
  pure ⟨id, msgData⟩

/-- What `EncodeToBytes` makes of a message; a message has no integer that cannot be encoded. -/
def encoding (m : NewMsgEvent) : Bytes := (encodeToBytes m.write).getD []

end NewMsgEvent

/-- What a `Read` of the connection returns: the bytes, and whether there was an error. -/
structure ReadResult where
  data : Bytes
  err : Bool

/-- What has become of a connection: the messages sent to the feed, and whether the process is still
there. -/
structure Handled where
  delivered : List NewMsgEvent
  alive : Bool
  deriving DecidableEq

/-- The size of the buffer that `clientHandle` reads into. -/
def bufferSize : ℕ := 4096

/-- The loop of `clientHandle`, over what its reads return. -/
def clientHandle : List ReadResult → Handled
  | [] => ⟨[], true⟩
  | r :: reads =>
    if r.data = [] ∨ r.err then
      if r.err then ⟨[], false⟩ else clientHandle reads
    else
      match decodeBytes NewMsgEvent.decode r.data with
      | .error _ => ⟨[], false⟩
      | .ok msg =>
        let out := clientHandle reads
        ⟨msg :: out.delivered, out.alive⟩

/-! ## The format of a message -/

namespace NewMsgEvent

/-- The list `rlp` makes of a message. -/
def item (m : NewMsgEvent) : Item := .list [.ofNat m.id.toNat, .str m.msgData]

theorem encoding_eq (m : NewMsgEvent) : m.encoding = encode m.item := by
  have hw : Writes m.write m.item := writes_list (.cons
    (writes_uint (m.id.toNat_lt.trans (by norm_num))) (.cons (writes_bytes _) .nil))
  rw [encoding, hw.encodeToBytes, Option.getD_some]

theorem item_injective {m m' : NewMsgEvent} (h : m.item = m'.item) : m = m' := by
  simp only [item, Item.list.injEq, List.cons.injEq, Item.str.injEq, and_true] at h
  have hid : m.id = m'.id := UInt32.toNat_inj.mp (Item.ofNat_injective h.1)
  cases m
  cases m'
  simp_all

/-- The message of a list. -/
def ofItem : Item → Option NewMsgEvent
  | .list [id, msgData] => do
    let id ← id.uint32?
    let msgData ← msgData.bytes?
    some ⟨id, msgData⟩
  | _ => none

theorem ofItem_eq_some_iff {it : Item} {m : NewMsgEvent} : ofItem it = some m ↔ it = m.item := by
  constructor
  · intro h
    unfold ofItem at h
    split at h
    · simp only [bind_eq_some, Option.some.injEq] at h
      obtain ⟨id, hid, data, hdata, rfl⟩ := h
      rw [Item.eq_ofNat_of_uint32? hid, Item.eq_str_of_bytes? hdata]
      rfl
    · cases h
  · rintro rfl
    simp [ofItem, item]

theorem reads_decode : Reads decode ofItem := by
  have h := reads_struct (reads_uint32.field "Id" fun id =>
    reads_byteSlice.field "MsgData" fun msgData => readsAll_pure (⟨id, msgData⟩ : NewMsgEvent))
  refine h.congr (funext fun it => ?_)
  unfold ofItem
  split
  · rfl
  · next hne =>
    refine Takes.bind_elems? (n := 2) ?_ fun xs hlen heq => ?_
    · repeat' first | exact takes_noMore _ | refine takes_thenItems fun _ => ?_
    · exact hne _ _ (heq.trans (congrArg Item.list (eq_ofFn_of_length hlen)))

/-- **The encodings of messages** are a code: a decoded byte string is the encoding of its message,
and no encoding begins another one. -/
theorem codec : Framing.Codec encoding (fun r => (decodeBytes decode r).toOption)
    fun r => r.length < 2 ^ 64 where
  ne_nil := fun m h => by
    rw [encoding_eq] at h
    exact absurd (length_encode_pos m.item) (by simp [h])
  begins := fun {m m' a b} hm hm' h => by
    rw [encoding_eq] at hm hm' h
    rw [encoding_eq] at h
    exact item_injective (encode_append_inj hm hm' h).1
  sound := fun {r m} h => by
    cases hr : decodeBytes decode r with
    | error e =>
      rw [hr] at h
      cases h
    | ok v =>
      rw [hr] at h
      cases h
      obtain ⟨it, rfl, hit⟩ := exists_item_of_decodeBytes reads_decode hr
      rw [ofItem_eq_some_iff.mp hit, encoding_eq]
  complete := fun {m} hm => by
    rw [encoding_eq] at hm ⊢
    rw [(decodeBytes_eq_ok_iff reads_decode hm).mpr ⟨m.item, rfl, ofItem_eq_some_iff.mpr rfl⟩]
    rfl

end NewMsgEvent

/-! ## The loop -/

/-- Without errors and empty reads the loop takes every read for one message. -/
theorem clientHandle_eq_receive {reads : List Bytes} (h : ∀ r ∈ reads, r ≠ []) :
    clientHandle (reads.map (⟨·, false⟩)) =
      ⟨(Framing.receive (fun r => (decodeBytes NewMsgEvent.decode r).toOption) reads).1,
        (Framing.receive (fun r => (decodeBytes NewMsgEvent.decode r).toOption) reads).2⟩ := by
  induction reads with
  | nil => rfl
  | cons r reads ih =>
    rw [List.map_cons, clientHandle, if_neg (by simp [h r List.mem_cons_self]),
      ih fun r' h' => h r' (List.mem_cons_of_mem _ h')]
    cases hdec : decodeBytes NewMsgEvent.decode r with
    | error e => rw [Framing.receive_of_none (by rw [hdec]; rfl)]
    | ok msg => rw [Framing.receive_of_some (by rw [hdec]; rfl)]

/-- **What gets through.**  However the stream of the encodings is cut into reads of up to 4096
bytes, the server delivers an initial segment of the messages.  It delivers all of them, and is
still there, exactly when the reads are the encodings, one by one; every other segmentation ends the
process, and so does every one when an encoding is longer than the buffer. -/
theorem clientHandle_delivers_iff {msgs : List NewMsgEvent} {reads : List Bytes}
    (hmsgs : ∀ m ∈ msgs, m.encoding.length < 2 ^ 64)
    (hreads : ∀ r ∈ reads, 1 ≤ r.length ∧ r.length ≤ bufferSize)
    (hstream : reads.flatten = (msgs.map NewMsgEvent.encoding).flatten) :
    (clientHandle (reads.map (⟨·, false⟩))).delivered <+: msgs ∧
      (clientHandle (reads.map (⟨·, false⟩)) = ⟨msgs, true⟩ ↔
        reads = msgs.map NewMsgEvent.encoding) ∧
      ((clientHandle (reads.map (⟨·, false⟩))).alive = false ↔
        reads ≠ msgs.map NewMsgEvent.encoding) ∧
      ((∃ m ∈ msgs, bufferSize < m.encoding.length) →
        (clientHandle (reads.map (⟨·, false⟩))).alive = false) := by
  have hfits : ∀ r ∈ reads, r.length < 2 ^ 64 := fun r hr =>
    lt_of_le_of_lt (hreads r hr).2 (by norm_num [bufferSize])
  obtain ⟨hpre, halive⟩ := NewMsgEvent.codec.receive_spec hfits hmsgs hstream
  rw [clientHandle_eq_receive fun r hr => List.ne_nil_of_length_pos (hreads r hr).1]
  have hdead : (Framing.receive (fun r => (decodeBytes NewMsgEvent.decode r).toOption) reads).2
      = false ↔ reads ≠ msgs.map NewMsgEvent.encoding := by
    rw [ne_eq, ← halive, Bool.not_eq_true]
  refine ⟨hpre, ⟨fun h => halive.mp (congrArg Handled.alive h), ?_⟩, hdead, ?_⟩
  · rintro rfl
    rw [NewMsgEvent.codec.receive_map hmsgs]
  · rintro ⟨m, hm, hlong⟩
    refine hdead.mpr ?_
    rintro rfl
    exact absurd (hreads _ (List.mem_map_of_mem hm)).2 (not_le.mpr hlong)

end NetServer

namespace Sample

open NetServer

/-- Two short messages. -/
def messages : List NewMsgEvent := [⟨1, [5, 6]⟩, ⟨2, []⟩]

end Sample

namespace NetServer

open Sample (messages)

/-- The law applies to the two messages, each in a read of its own. -/
theorem clientHandle_delivers_messages :
    clientHandle ((messages.map NewMsgEvent.encoding).map (⟨·, false⟩)) = ⟨messages, true⟩ :=
  ((clientHandle_delivers_iff (by decide +kernel) (by decide +kernel) rfl).2.1).mpr rfl

/-- **A stream cut elsewhere ends the process**: two messages in one read, one message in two; and
so does the client when it closes the connection behind its messages. -/
theorem clientHandle_exits :
    clientHandle [⟨(messages.map NewMsgEvent.encoding).flatten, false⟩] = ⟨[], false⟩ ∧
      (∀ m ∈ messages.head?, clientHandle
        [⟨m.encoding.take 2, false⟩, ⟨m.encoding.drop 2, false⟩] = ⟨[], false⟩) ∧
      clientHandle ((messages.map fun m => ⟨m.encoding, false⟩) ++ [⟨[], true⟩])
        = ⟨messages, false⟩ := by
  decide +kernel

end NetServer

end Gocoin
