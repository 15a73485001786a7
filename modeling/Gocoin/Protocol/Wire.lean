import Gocoin.Rlp.Encbuf
import Gocoin.Rlp.Reads
import Gocoin.Protocol.Decode
import Gocoin.Common.Sample

/-!
# Protocol/Wire — consensus data as byte strings

Transactions, headers and bodies as `rlp` writes them to its buffer and reads them from a stream,
field by field.  Writing and reading are the two sides of one format: the writers write the items of
`Protocol/Block`, and the decoders read the functions of `Protocol/Decode`.  So whatever is encoded
is decoded to what it was (`consensus_data_roundTrip`).  The other way round there is one exception:
a transaction without recipient has two encodings, since an empty list passes for no recipient as an
empty string does (`reencode_iff`).
-/

namespace Gocoin

open Rlp Fold

/-! ## Writing -/

/-- `EncodeRLP` of a transaction: its fields in the order of `Txstruct`. -/
def Tx.encodeRLP (tx : Tx) : Writer :=
  writeList [writeBigInt tx.cost, writePtr (tx.recipient.map FixedBytes.bytes),
    writeBigInt tx.amount, writeUint tx.txtime.toNat, writeBytes tx.payload, writeBigInt tx.v,
    writeBigInt tx.r, writeBigInt tx.s]

/-- The writer of a header. -/
def Header.write (h : Header) : Writer :=
  writeList [writeBytes h.uncleHash.bytes, writeBigInt h.number, writeBigInt h.idIndex,
    writeUint h.walletID.toNat, writeUint h.groupID.toNat, writeBigInt h.timestamp,
    writeBigInt h.gasUsed, writeBytes h.version, writeBytes h.percent, writeBytes h.pk,
    writeBytes h.sign, writeBytes h.liquidationHash, writeBytes h.extraIndex.bytes,
    writeBytes h.spaceRoot.bytes, writeBytes h.accRoot.bytes, writeBytes h.groupRoot.bytes,
    writeBytes h.coinRoot.bytes, writeBytes h.txHash.bytes, writeBytes h.consensusGroupHash.bytes,
    writeBytes h.extraHash.bytes]

/-- The writer of a `Block_Body`. -/
def writeBody (transactions : List Tx) (extraData : Bytes) : Writer :=
  writeList [writeList (transactions.map Tx.encodeRLP), writeBytes extraData]

/-! ## Reading -/

/-- The decoder of a byte array. -/
def decodeFixed (n : ℕ) : Decoder (FixedBytes n) := do
  let b ← decodeByteArray n
  pure (FixedBytes.ofBytes n b)

/-- The decoder of a `uint64`. -/
def decodeUint64 : Decoder UInt64 := do
  let v ← decodeUint 64
  pure (UInt64.ofNat v)

/-- The decoder of a `uint32`. -/
def decodeUint32 : Decoder UInt32 := do
  let v ← decodeUint 32
  pure (UInt32.ofNat v)

/-- The decoder of the recipient, a pointer with the tag `nil`. -/
def decodeRecipient : Decoder (Option Address) := do
  let r ← decodeOptionalPtr (decodeByteArray 20)
  pure (r.map (FixedBytes.ofBytes 20))

/-- The decoder of `Txstruct`. -/
def Tx.decodeData : Decoder Tx := decodeStruct do
  let cost ← field "Cost" decodeBigInt
  let recipient ← field "Recipient" decodeRecipient
  let amount ← field "Amount" decodeBigInt
  let txtime ← field "Txtime" decodeUint64
  let payload ← field "Payload" decodeByteSlice
  let v ← field "V" decodeBigInt
  let r ← field "R" decodeBigInt
  let s ← field "S" decodeBigInt
  pure ⟨cost, recipient, amount, txtime, payload, v, r, s⟩

/-- `DecodeRLP` of a transaction: the size of the header is looked up first, and its error
dropped. -/
def Tx.decodeRLP : Decoder Tx := do
  let _ ← Stream.kindAhead.orValue (.byte, 0)
  Tx.decodeData

/-- The decoder of a header. -/
def Header.decode : Decoder Header := decodeStruct do
  let uncleHash ← field "UncleHash" (decodeFixed 32)
  let number ← field "Number" decodeBigInt
  let idIndex ← field "IdIndex" decodeBigInt
  let walletID ← field "WalletID" decodeUint64
  let groupID ← field "GroupID" decodeUint32
  let timestamp ← field "Timestamp" decodeBigInt
  let gasUsed ← field "GasUsed" decodeBigInt
  let version ← field "Version" decodeByteSlice
  let percent ← field "Percent" decodeByteSlice
  let pk ← field "PK" decodeByteSlice
  let sign ← field "Sign" decodeByteSlice
  let liquidationHash ← field "LiquidationHash" decodeByteSlice
  let extraIndex ← field "ExtraIndex" (decodeFixed 4)
  let spaceRoot ← field "SpaceRoot" (decodeFixed 32)
  let accRoot ← field "AccRoot" (decodeFixed 32)
  let groupRoot ← field "GroupRoot" (decodeFixed 32)
  let coinRoot ← field "CoinRoot" (decodeFixed 32)
  let txHash ← field "TxHash" (decodeFixed 32)
  let consensusGroupHash ← field "ConsensusGroupHash" (decodeFixed 32)
  let extraHash ← field "ExtraHash" (decodeFixed 32)
  pure
    { uncleHash, number, idIndex, walletID, groupID, timestamp, gasUsed, version, percent, pk, sign,
      liquidationHash, extraIndex, spaceRoot, accRoot, groupRoot, coinRoot, txHash,
      consensusGroupHash, extraHash }

/-- The decoder of a `Block_Body`. -/
def decodeBody : Decoder (List Tx × Bytes) := decodeStruct do
  let transactions ← field "Transactions" (decodeListSlice Tx.decodeRLP)
  let extraData ← field "ExtraData" decodeByteSlice
  pure (transactions, extraData)

/-! ## The writers write the items -/

variable {it : Item} {tx : Tx} {n : ℕ}

theorem writes_of_ofInt? {z : ℤ} (h : Item.ofInt? z = some it) : Writes (writeBigInt z) it := by
  obtain ⟨hz, rfl⟩ := Item.eq_of_ofInt? h
  exact writes_bigInt hz

theorem writes_natCast (n : ℕ) : Writes (writeBigInt n) (.ofNat n) :=
  writes_bigInt (Int.natCast_nonneg n)

theorem Tx.writes_encodeRLP (h : tx.item = some it) : Writes tx.encodeRLP it := by
  simp only [Tx.item, bind_eq_some, Option.some.injEq] at h
  obtain ⟨cost, hcost, amount, hamount, rfl⟩ := h
  exact writes_list (.cons (writes_of_ofInt? hcost) (.cons (writes_ptr _)
    (.cons (writes_of_ofInt? hamount) (.cons (writes_uint tx.txtime.toNat_lt)
    (.cons (writes_bytes _) (.cons (writes_natCast _) (.cons (writes_natCast _)
    (.cons (writes_natCast _) .nil))))))))

variable {h : Header} {r : Option Address}

theorem Header.writes_write (hit : h.item = some it) : Writes h.write it := by
  simp only [Header.item, Option.map_eq_some_iff] at hit
  obtain ⟨gas, hgas, rfl⟩ := hit
  refine writes_list ?_
  repeat' first
    | exact List.Forall₂.nil
    | refine List.Forall₂.cons ?_ ?_
    | exact writes_bytes _
    | exact writes_natCast _
    | exact writes_of_ofInt? hgas
    | exact writes_uint h.walletID.toNat_lt
    | exact writes_uint (h.groupID.toNat_lt.trans (by norm_num))

theorem writes_body {txs : List Tx} {its : List Item} (h : txs.mapM Tx.item = some its)
    (extraData : Bytes) : Writes (writeBody txs extraData) (.list [.list its, .str extraData]) := by
  refine writes_list (.cons (writes_list ?_) (.cons (writes_bytes _) .nil))
  rw [List.forall₂_map_left_iff]
  exact (mapM_eq_some_iff.mp h).imp fun _ _ => Tx.writes_encodeRLP

/-! ## The decoders read the items -/

theorem fixedBytes_ofBytes_eq {b : Bytes} (h : b.length = n) :
    FixedBytes.ofBytes n b = ⟨b, h⟩ := FixedBytes.ofBytes_bytes ⟨b, h⟩

/-- A byte array of an item, from its bytes. -/
theorem ofItem_eq_some {a : FixedBytes n} :
    FixedBytes.ofItem n it = some a ↔
      ∃ b, (it.bytes?.bind fun b => if b.length = n then some b else none) = some b ∧
        FixedBytes.ofBytes n b = a := by
  unfold FixedBytes.ofItem
  cases it with
  | list xs => simp [Item.bytes?]
  | str b =>
    simp only [Item.bytes?_str, Option.bind_some]
    by_cases h : b.length = n
    · simp [h, fixedBytes_ofBytes_eq h]
    · simp [h]

theorem reads_fixed (hn : n ≠ 1) : Reads (decodeFixed n) (FixedBytes.ofItem n) := by
  refine ((reads_byteArray hn).map (FixedBytes.ofBytes n)).congr (funext fun it => ?_)
  refine Option.ext fun a => ?_
  rw [Option.map_eq_some_iff]
  exact ofItem_eq_some.symm

theorem reads_uint64 : Reads decodeUint64 Item.uint64? := by
  refine ((reads_uint (m := 8) (by norm_num)).mapErr.map UInt64.ofNat).congr (funext fun it => ?_)
  rw [Item.uint64?]
  cases it.nat? with
  | none => rfl
  | some n =>
    rw [Option.bind_some, Option.bind_some, show 256 ^ 8 = 2 ^ 64 by norm_num]
    split <;> rfl

theorem reads_uint32 : Reads decodeUint32 Item.uint32? := by
  refine ((reads_uint (m := 4) (by norm_num)).mapErr.map UInt32.ofNat).congr (funext fun it => ?_)
  rw [Item.uint32?]
  cases it.nat? with
  | none => rfl
  | some n =>
    rw [Option.bind_some, Option.bind_some, show 256 ^ 4 = 2 ^ 32 by norm_num]
    split <;> rfl

theorem recipientOfItem_of_ne (hs : it ≠ .str []) (hl : it ≠ .list []) :
    Tx.recipientOfItem it = (FixedBytes.ofItem 20 it).map some := by
  unfold Tx.recipientOfItem
  split
  · exact absurd rfl hs
  · exact absurd rfl hl
  · rfl

/-- The recipient of an item, from its bytes. -/
theorem recipientOfItem_eq_some :
    Tx.recipientOfItem it = some r ↔
      ∃ o, optional (fun it => it.bytes?.bind fun b => if b.length = 20 then some b else none) it
        = some o ∧ o.map (FixedBytes.ofBytes 20) = r := by
  by_cases hs : it = .str []
  · subst hs
    simp [Tx.recipientOfItem, optional]
  by_cases hl : it = .list []
  · subst hl
    simp [Tx.recipientOfItem, optional]
  rw [recipientOfItem_of_ne hs hl, optional_of_ne hs hl]
  simp only [Option.map_eq_some_iff, ofItem_eq_some]
  constructor
  · rintro ⟨a, ⟨b, hb, rfl⟩, rfl⟩
    exact ⟨some b, ⟨b, hb, rfl⟩, rfl⟩
  · rintro ⟨o, ⟨b, hb, rfl⟩, rfl⟩
    exact ⟨FixedBytes.ofBytes 20 b, ⟨b, hb, rfl⟩, rfl⟩

theorem reads_recipient : Reads decodeRecipient Tx.recipientOfItem := by
  have h := (reads_byteArray (n := 20) (by norm_num)).optionalPtr (noEol_byteArrayOf 20)
  refine (h.map (Option.map (FixedBytes.ofBytes 20))).congr (funext fun it => ?_)
  refine Option.ext fun a => ?_
  rw [Option.map_eq_some_iff]
  exact recipientOfItem_eq_some.symm

theorem Tx.reads_decodeData : Reads Tx.decodeData Tx.ofItem := by
  have h := reads_struct (reads_bigInt.field "Cost" fun cost =>
    reads_recipient.field "Recipient" fun recipient => reads_bigInt.field "Amount" fun amount =>
    reads_uint64.field "Txtime" fun txtime => reads_byteSlice.field "Payload" fun payload =>
    reads_bigInt.field "V" fun v => reads_bigInt.field "R" fun r => reads_bigInt.field "S" fun s =>
      readsAll_pure (⟨cost, recipient, amount, txtime, payload, v, r, s⟩ : Tx))
  refine h.congr (funext fun it => ?_)
  unfold Tx.ofItem
  split
  · rfl
  · next hne =>
    refine Takes.bind_elems? (n := 8) ?_ fun xs hlen heq => ?_
    · repeat' first | exact takes_noMore _ | refine takes_thenItems fun _ => ?_
    · exact hne _ _ _ _ _ _ _ _ (heq.trans (congrArg Item.list (eq_ofFn_of_length hlen)))

theorem Tx.reads_decodeRLP : Reads Tx.decodeRLP Tx.ofItem := by
  have h : Tx.decodeRLP = Tx.decodeData := peek_struct _ _
  rw [h]
  exact Tx.reads_decodeData

theorem Header.reads_decode : Reads Header.decode Header.ofItem := by
  have hhash := reads_fixed (n := 32) (by norm_num)
  have h := reads_struct (hhash.field "UncleHash" fun uncleHash =>
    reads_bigInt.field "Number" fun number => reads_bigInt.field "IdIndex" fun idIndex =>
    reads_uint64.field "WalletID" fun walletID => reads_uint32.field "GroupID" fun groupID =>
    reads_bigInt.field "Timestamp" fun timestamp => reads_bigInt.field "GasUsed" fun gasUsed =>
    reads_byteSlice.field "Version" fun version => reads_byteSlice.field "Percent" fun percent =>
    reads_byteSlice.field "PK" fun pk => reads_byteSlice.field "Sign" fun sign =>
    reads_byteSlice.field "LiquidationHash" fun liquidationHash =>
    (reads_fixed (n := 4) (by norm_num)).field "ExtraIndex" fun extraIndex =>
    hhash.field "SpaceRoot" fun spaceRoot => hhash.field "AccRoot" fun accRoot =>
    hhash.field "GroupRoot" fun groupRoot => hhash.field "CoinRoot" fun coinRoot =>
    hhash.field "TxHash" fun txHash => hhash.field "ConsensusGroupHash" fun consensusGroupHash =>
    hhash.field "ExtraHash" fun extraHash => readsAll_pure
      ({ uncleHash, number, idIndex, walletID, groupID, timestamp, gasUsed, version, percent, pk,
         sign, liquidationHash, extraIndex, spaceRoot, accRoot, groupRoot, coinRoot, txHash,
         consensusGroupHash, extraHash } : Header))
  refine h.congr (funext fun it => ?_)
  unfold Header.ofItem
  split
  · rfl
  · next hne =>
    refine Takes.bind_elems? (n := 20) ?_ fun xs hlen heq => ?_
    · repeat' first | exact takes_noMore _ | refine takes_thenItems fun _ => ?_
    · exact hne _ _ _ _ _ _ _ _ _ _ _ _ _ _ _ _ _ _ _ _
        (heq.trans (congrArg Item.list (eq_ofFn_of_length hlen)))

theorem reads_body : Reads decodeBody bodyOfItem := by
  have h := reads_struct ((reads_listSlice Tx.reads_decodeRLP).field "Transactions"
    fun transactions => reads_byteSlice.field "ExtraData" fun extraData =>
      readsAll_pure (transactions, extraData))
  refine h.congr (funext fun it => ?_)
  unfold bodyOfItem
  split
  · next txs extra =>
    show ((txs.elems?.bind fun its => its.mapM Tx.ofItem).bind fun transactions =>
      extra.bytes?.bind fun extraData => some (transactions, extraData)) = _
    rw [Option.bind_assoc]
    rfl
  · next hne =>
    refine Takes.bind_elems? (n := 2) ?_ fun xs hlen heq => ?_
    · repeat' first | exact takes_noMore _ | refine takes_thenItems fun _ => ?_
    · exact hne _ _ (heq.trans (congrArg Item.list (eq_ofFn_of_length hlen)))

/-! ## Decoding what was encoded -/

/-- What a writer writes is decoded by whatever reads the item that it writes. -/
theorem decodeBytes_of_writes {α : Type} {w : Writer} {d : Decoder α} {f : Item → Option α} {v : α}
    (hw : Writes w it) (hd : Reads d f) (hv : f it = some v) :
    ∃ b, encodeToBytes w = some b ∧ b = encode it ∧ (b.length < 2 ^ 64 → decodeBytes d b = .ok v) :=
  ⟨encode it, hw.encodeToBytes, rfl, fun hb => (decodeBytes_eq_ok_iff hd hb).mpr ⟨it, rfl, hv⟩⟩

theorem Tx.exists_item (hcost : 0 ≤ tx.cost) (hamount : 0 ≤ tx.amount) :
    ∃ it, tx.item = some it := by
  rw [Tx.item, Item.ofInt?_of_nonneg hcost, Item.ofInt?_of_nonneg hamount]
  exact ⟨_, rfl⟩

/-- A transaction with a negative integer is not encoded. -/
theorem Tx.encodeToBytes_encodeRLP (tx : Tx) : encodeToBytes tx.encodeRLP = tx.item.map encode := by
  cases hit : tx.item with
  | some it => exact (Tx.writes_encodeRLP hit).encodeToBytes
  | none =>
    have hneg : tx.cost < 0 ∨ tx.amount < 0 := by
      by_contra hnonneg
      push Not at hnonneg
      obtain ⟨it, hit'⟩ := Tx.exists_item hnonneg.1 hnonneg.2
      rw [hit] at hit'
      cases hit'
    rcases hneg with h | h
    all_goals simp [Tx.encodeRLP, encodeToBytes, writeList, writeFields, writeBigInt, h]

theorem Header.exists_item (hgas : 0 ≤ h.gasUsed) : ∃ it, h.item = some it := by
  rw [Header.item, Item.ofInt?_of_nonneg hgas]
  exact ⟨_, rfl⟩

/-- **Consensus data round-trips.**  Every transaction, every header and every body without negative
integers has an encoding, and its encoding — of a length that the size field can hold — is decoded
to what was encoded; the hashes are those of the encodings. -/
theorem consensus_data_roundTrip (P : Prims) :
    (∀ tx : Tx, 0 ≤ tx.cost → 0 ≤ tx.amount → ∃ b, encodeToBytes tx.encodeRLP = some b ∧
      tx.hash P = P.keccak b ∧ (b.length < 2 ^ 64 →
        ∃ tx', decodeBytes Tx.decodeRLP b = .ok tx' ∧ tx' = tx ∧ tx'.hash P = tx.hash P)) ∧
    (∀ h : Header, 0 ≤ h.gasUsed → ∃ b, encodeToBytes h.write = some b ∧
      h.hash P.keccak = P.keccak b ∧ (b.length < 2 ^ 64 →
        ∃ h', decodeBytes Header.decode b = .ok h' ∧ h' = h ∧ h'.hash P.keccak = h.hash P.keccak)) ∧
    (∀ transactions extraData, (∀ tx ∈ transactions, 0 ≤ tx.cost ∧ 0 ≤ tx.amount) →
      ∃ b, encodeToBytes (writeBody transactions extraData) = some b ∧ (b.length < 2 ^ 64 →
        decodeBytes decodeBody b = .ok (transactions, extraData))) := by
  refine ⟨fun tx hcost hamount => ?_, fun h hgas => ?_, fun transactions extraData htxs => ?_⟩
  · obtain ⟨it, hit⟩ := Tx.exists_item hcost hamount
    obtain ⟨b, henc, rfl, hdec⟩ :=
      decodeBytes_of_writes (Tx.writes_encodeRLP hit) Tx.reads_decodeRLP (Tx.ofItem_item hit)
    refine ⟨_, henc, ?_, fun hb => ⟨tx, hdec hb, rfl, rfl⟩⟩
    rw [Tx.hash, hit]
    rfl
  · obtain ⟨it, hit⟩ := Header.exists_item hgas
    obtain ⟨b, henc, rfl, hdec⟩ :=
      decodeBytes_of_writes (Header.writes_write hit) Header.reads_decode (Header.ofItem_item hit)
    refine ⟨_, henc, ?_, fun hb => ⟨h, hdec hb, rfl, rfl⟩⟩
    rw [Header.hash, hit]
    rfl
  · obtain ⟨its, hits⟩ := exists_mapM_of_forall fun tx htx =>
      Tx.exists_item (htxs tx htx).1 (htxs tx htx).2
    obtain ⟨b, henc, -, hdec⟩ := decodeBytes_of_writes (writes_body hits extraData) reads_body
      (bodyOfItem_of_mapM hits extraData)
    exact ⟨b, henc, hdec⟩

/-- A signed transfer: a payload, a recipient and an amount of two bytes. -/
def Sample.transfer : Tx := ⟨1, some (Sample.address 7), 300, 5, [4], 27, 1, 200⟩

open Sample (transfer)

theorem transfer_roundTrip :
    0 ≤ transfer.cost ∧ 0 ≤ transfer.amount ∧
      ∃ b, encodeToBytes transfer.encodeRLP = some b ∧ b.length = 32 ∧
        decodeBytes Tx.decodeRLP b = .ok transfer := by
  refine ⟨by decide, by decide, ?_⟩
  obtain ⟨b, henc, -, hdec⟩ :=
    (consensus_data_roundTrip Sample.prims).1 transfer (by decide) (by decide)
  have hlen : (encodeToBytes transfer.encodeRLP).map List.length = some 32 := by
    decide +kernel
  rw [henc, Option.map_some, Option.some.injEq] at hlen
  obtain ⟨tx, htx, rfl, -⟩ := hdec (by rw [hlen]; norm_num)
  exact ⟨b, henc, hlen, htx⟩

/-! ## Encoding what was decoded -/

/-- A recipient is written back as it was read, unless it was an empty list. -/
theorem recipientItem_of_recipientOfItem (h : Tx.recipientOfItem it = some r) :
    (Tx.recipientItem r = it ↔ it ≠ .list []) ∧ (it = .list [] → r = none) := by
  by_cases hs : it = .str []
  · subst hs
    cases h
    simp [Tx.recipientItem]
  by_cases hl : it = .list []
  · subst hl
    cases h
    simp [Tx.recipientItem]
  rw [recipientOfItem_of_ne hs hl, Option.map_eq_some_iff] at h
  obtain ⟨a, ha, rfl⟩ := h
  obtain ⟨b, hb, ha⟩ := Option.bind_eq_some_iff.mp ha
  split at ha
  · cases ha
    rw [Item.eq_str_of_bytes? hb]
    simp [Tx.recipientItem]
  · cases ha

/-- A transaction that was read is written as the list it was read from, with its recipient
written anew. -/
theorem Tx.item_of_ofItem (h : Tx.ofItem it = some tx) :
    ∃ cost recipient rest, it = .list (cost :: recipient :: rest) ∧
      Tx.recipientOfItem recipient = some tx.recipient ∧
      tx.item = some (.list (cost :: Tx.recipientItem tx.recipient :: rest)) := by
  unfold Tx.ofItem at h
  split at h
  · simp only [bind_eq_some, Option.some.injEq] at h
    obtain ⟨cost, hcost, recipient, hrecipient, amount, hamount, txtime, htime, payload, hpayload,
      v, hv, r, hr, s, hs, rfl⟩ := h
    refine ⟨_, _, _, rfl, hrecipient, ?_⟩
    rw [Item.eq_ofNat_of_nat? hcost, Item.eq_ofNat_of_nat? hamount, Item.eq_ofNat_of_uint64? htime,
      Item.eq_str_of_bytes? hpayload, Item.eq_ofNat_of_nat? hv, Item.eq_ofNat_of_nat? hr,
      Item.eq_ofNat_of_nat? hs]
    rfl
  · cases h

/-- **When a transaction is encoded as it was decoded.**  A byte string that is accepted is the
encoding of its transaction exactly when it does not spell the recipient as an empty list; so
whenever there is a recipient, and no other byte string is then decoded to that transaction. -/
theorem reencode_iff {b : Bytes} {tx : Tx} (hb : b.length < 2 ^ 64)
    (h : decodeBytes Tx.decodeRLP b = .ok tx) :
    (∃ cost recipient rest, b = encode (.list (cost :: recipient :: rest)) ∧
      (encodeToBytes tx.encodeRLP = some b ↔ recipient ≠ .list [])) ∧
    (tx.recipient ≠ none → encodeToBytes tx.encodeRLP = some b ∧
      ∀ b' : Bytes, b'.length < 2 ^ 64 → decodeBytes Tx.decodeRLP b' = .ok tx → b' = b) := by
  have hform : ∀ {b : Bytes}, b.length < 2 ^ 64 → decodeBytes Tx.decodeRLP b = .ok tx →
      ∃ cost recipient rest, b = encode (.list (cost :: recipient :: rest)) ∧
        (encodeToBytes tx.encodeRLP = some b ↔ recipient ≠ .list []) ∧
        (recipient = .list [] → tx.recipient = none) := by
    intro b hb h
    obtain ⟨it, rfl, htx⟩ := (decodeBytes_eq_ok_iff Tx.reads_decodeRLP hb).mp h
    obtain ⟨cost, recipient, rest, rfl, hrec, hitem⟩ := Tx.item_of_ofItem htx
    obtain ⟨hiff, hnone⟩ := recipientItem_of_recipientOfItem hrec
    refine ⟨cost, recipient, rest, rfl, ?_, hnone⟩
    rw [(Tx.writes_encodeRLP hitem).encodeToBytes, Option.some.injEq, ← hiff]
    constructor
    · intro heq
      have := encode_injective hb heq.symm
      simp only [Item.list.injEq, List.cons.injEq] at this
      exact this.2.1.symm
    · intro heq
      rw [heq]
  obtain ⟨cost, recipient, rest, hbytes, hiff, hnone⟩ := hform hb h
  refine ⟨⟨cost, recipient, rest, hbytes, hiff⟩, fun hr => ?_⟩
  have henc := hiff.mpr (mt hnone hr)
  refine ⟨henc, fun b' hb' h' => ?_⟩
  obtain ⟨-, recipient', -, -, hiff', hnone'⟩ := hform hb' h'
  exact Option.some.inj ((hiff'.mpr (mt hnone' hr)).symm.trans henc)

/-- The transfer has one encoding. -/
theorem transfer_reencode : ∃ b : Bytes, b.length < 2 ^ 64 ∧
    decodeBytes Tx.decodeRLP b = .ok transfer ∧ transfer.recipient ≠ none ∧
    encodeToBytes transfer.encodeRLP = some b := by
  have hlen : (encodeToBytes transfer.encodeRLP).map List.length = some 32 := by
    decide +kernel
  obtain ⟨b, hb, hlen⟩ := Option.map_eq_some_iff.mp hlen
  have hsize : b.length < 2 ^ 64 := by
    rw [hlen]
    norm_num
  have hdec : decodeBytes Tx.decodeRLP b = .ok transfer := by
    have : (encodeToBytes transfer.encodeRLP).map (decodeBytes Tx.decodeRLP) =
        some (.ok transfer) := by decide +kernel
    rwa [hb, Option.map_some, Option.some.injEq] at this
  have hsome : transfer.recipient ≠ none := Option.some_ne_none _
  exact ⟨b, hsize, hdec, hsome, ((reencode_iff hsize hdec).2 hsome).1⟩

/-- **Two encodings of one transaction.**  With an empty list in place of the recipient the bytes
are accepted, the transaction is the one with an empty string there, and it is encoded with that. -/
theorem two_encodings_without_recipient :
    decodeBytes Tx.decodeRLP [0xC8, 0x80, 0xC0, 0x80, 0x80, 0x80, 0x80, 0x80, 0x80]
        = .ok ⟨0, none, 0, 0, [], 0, 0, 0⟩ ∧
      decodeBytes Tx.decodeRLP [0xC8, 0x80, 0x80, 0x80, 0x80, 0x80, 0x80, 0x80, 0x80]
        = .ok ⟨0, none, 0, 0, [], 0, 0, 0⟩ ∧
      encodeToBytes (Tx.encodeRLP ⟨0, none, 0, 0, [], 0, 0, 0⟩)
        = some [0xC8, 0x80, 0x80, 0x80, 0x80, 0x80, 0x80, 0x80, 0x80] := by
  decide +kernel

end Gocoin
