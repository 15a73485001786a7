import Gocoin.Common.Sample
import Gocoin.Protocol.Tx

/-!
# Protocol/Signing — transaction objects, their signatures and their senders

`protocol/tx.go` and `protocol/tx_signing.go`, with the memos of an object and the errors.  A `Tx`
keeps its contents next to a memo of the hash and one of the sender; both are filled on the first
read and never cleared.  `WithSignature` writes the two halves of a signature as big integers and
its last byte shifted by 27, and `recoverPlain` turns them back into the 65 bytes `Ecrecover` sees.
The turn loses nothing on the signatures in range, and every other signature is refused
(`signature_roundTrip`).
-/

namespace Gocoin

/-- The errors of signing and of recovering a sender. -/
inductive SigErr where
  /-- `ErrInvalidSig` -/
  | invalidSig
  /-- an error of `Ecrecover` -/
  | recovery
  /-- `invalid public key` -/
  | invalidPublicKey
  /-- an error of `crypto.Sign` -/
  | signing
  /-- a signature of the wrong size -/
  | panic
  deriving DecidableEq

/-- `Tx`: the contents with their own copy of a hash, which is not encoded, and the memos of the
hash and of the sender. -/
structure TxObject where
  data : Tx
  dataHash : Option Hash
  hash : Option Hash
  sender : Option Address
  deriving DecidableEq

namespace Tx

variable (P : Prims)

/-- The 65 bytes `recoverPlain` hands to `Ecrecover`; none is `ErrInvalidSig`. -/
def recoverSig (R S Vb : ℕ) : Option Bytes :=
  if 256 ≤ Vb then none
  else
    let V : UInt8 := (u64 Vb - 27).toUInt8
    if validateSignatureValues V R S then
      some ((FixedBytes.ofBytes 32 (BigEndian.toBytes R)).bytes ++
        (FixedBytes.ofBytes 32 (BigEndian.toBytes S)).bytes ++ [V])
    else none

/-- The address behind what `Ecrecover` returns. -/
def addressOf : Option Bytes → Except SigErr Address
  | none => .error .recovery
  | some [] => .error .invalidPublicKey
  | some (x :: pub) =>
    if x = 4 then .ok (FixedBytes.ofBytes 20 (P.keccak pub).bytes) else .error .invalidPublicKey

theorem addressOf_ne_invalidSig (out : Option Bytes) : addressOf P out ≠ .error .invalidSig := by
  intro h
  rcases out with _ | ⟨_ | ⟨x, pub⟩⟩
  · cases h
  · cases h
  · rw [addressOf] at h
    by_cases hx : x = 4
    · rw [if_pos hx] at h
      cases h
    · rw [if_neg hx] at h
      cases h

/-- `recoverPlain`, with its errors. -/
def recoverPlainErr (sighash : Hash) (R S Vb : ℕ) : Except SigErr Address :=
  match recoverSig R S Vb with
  | none => .error .invalidSig
  | some sig => addressOf P (P.ecrecover sighash sig)

/-- The range checks are the only way to `ErrInvalidSig`. -/
theorem recoverPlainErr_eq_invalidSig (sighash : Hash) (R S Vb : ℕ) :
    recoverPlainErr P sighash R S Vb = .error .invalidSig ↔ recoverSig R S Vb = none := by
  rw [recoverPlainErr]
  cases recoverSig R S Vb with
  | none => exact iff_of_true rfl rfl
  | some sig =>
    exact iff_of_false (addressOf_ne_invalidSig P _) (Option.some_ne_none sig)

/-- `FrontierSigner.Sender`, with its errors. -/
def senderErr (tx : Tx) : Except SigErr Address := recoverPlainErr P (tx.sigHash P) tx.r tx.s tx.v

/-- The contents with other signature values. -/
def signed (tx : Tx) (r s v : ℕ) : Tx := { tx with r := r, s := s, v := v }

/-- The signature is not part of what is signed. -/
theorem senderErr_signed (tx : Tx) (r s v : ℕ) :
    (tx.signed r s v).senderErr P = recoverPlainErr P (tx.sigHash P) r s v := rfl

/-- The recovery without its errors is the one transactions are executed with. -/
theorem toOption_recoverPlainErr (sighash : Hash) (R S Vb : ℕ) :
    (recoverPlainErr P sighash R S Vb).toOption = recoverPlain P sighash R S Vb := by
  by_cases hV : 256 ≤ Vb
  · simp only [recoverPlainErr, recoverSig, recoverPlain, if_pos hV]
    rfl
  cases hval : validateSignatureValues (u64 Vb - 27).toUInt8 R S with
  | false =>
    simp only [recoverPlainErr, recoverSig, recoverPlain, if_neg hV, hval]
    rfl
  | true =>
    simp only [recoverPlainErr, recoverSig, recoverPlain, if_neg hV, hval, if_true]
    generalize P.ecrecover sighash _ = out
    rcases out with _ | ⟨_ | ⟨x, pub⟩⟩
    · rfl
    · rfl
    by_cases hx : x = 4
    · subst hx
      rfl
    · simp only [addressOf, if_neg hx]
      split
      · rename_i h
        exact absurd (List.cons.inj (Option.some.inj h)).1 hx
      · rfl

theorem toOption_senderErr (tx : Tx) : (tx.senderErr P).toOption = tx.sender P :=
  toOption_recoverPlainErr P _ _ _ _

end Tx

namespace TxObject

variable (P : Prims)

/-- `&Tx{data: d}`, for data without a hash. -/
def ofData (d : Tx) : TxObject := ⟨d, none, none, none⟩

/-- `Hash`: the memo, or the hash of the contents, which becomes the memo. -/
def hashOf (t : TxObject) : Hash × TxObject :=
  match t.hash with
  | some h => (h, t)
  | none => (t.data.hash P, { t with hash := some (t.data.hash P) })

/-- `Sender`: the memo, or the recovered address, which becomes the memo.  There is one signer, so
the memo's signer is always the one asked for. -/
def senderOf (t : TxObject) : Except SigErr Address × TxObject :=
  match t.sender with
  | some a => (.ok a, t)
  | none =>
    match t.data.senderErr P with
    | .ok a => (.ok a, { t with sender := some a })
    | .error e => (.error e, t)

theorem fst_hashOf (t : TxObject) : (t.hashOf P).1 = t.hash.getD (t.data.hash P) := by
  rw [hashOf]
  cases t.hash <;> rfl

theorem fst_senderOf (t : TxObject) :
    (t.senderOf P).1 = t.sender.elim (t.data.senderErr P) .ok := by
  rw [senderOf]
  cases t.sender with
  | some a => rfl
  | none => cases t.data.senderErr P <;> rfl

/-- `FrontierSigner.SignatureValues`. -/
def signatureValues (sig : Bytes) : Except SigErr (ℕ × ℕ × ℕ) :=
  if sig.length = 65 then
    .ok (BigEndian.ofBytes (sig.take 32), BigEndian.ofBytes ((sig.drop 32).take 32),
      (sig.getD 64 0 + 27).toNat)
  else .error .panic

/-- `WithSignature`: a copy without memos. -/
def withSignature (t : TxObject) (sig : Bytes) : Except SigErr TxObject := do
  let (r, s, v) ← signatureValues sig
  return ⟨t.data.signed r s v, t.dataHash, none, none⟩

/-- `SignTx`, for a key that signs by `sign`. -/
def signTx (sign : Nodes) (t : TxObject) : Except SigErr TxObject :=
  match sign (t.data.sigHash P) with
  | none => .error .signing
  | some sig => t.withSignature sig

end TxObject

/-! ## Signatures in range -/

theorem Tx.validateSignatureValues_eq_true (v : UInt8) (r s : ℕ) :
    Tx.validateSignatureValues v r s = true ↔
      (1 ≤ r ∧ r < Tx.secp256k1N) ∧ (1 ≤ s ∧ s < Tx.secp256k1N) ∧ (v = 0 ∨ v = 1) := by
  simp only [Tx.validateSignatureValues, Bool.and_eq_true, Bool.or_eq_true, decide_eq_true_eq,
    beq_iff_eq]
  tauto

namespace Signature

variable (sig : FixedBytes 65)

/-- The first half. -/
def r : ℕ := BigEndian.ofBytes (sig.bytes.take 32)

/-- The second half. -/
def s : ℕ := BigEndian.ofBytes ((sig.bytes.drop 32).take 32)

/-- The last byte. -/
def v : UInt8 := sig.bytes.getD 64 0

/-- Both halves are below the order of the group and not zero, and the last byte is 0 or 1. -/
def Valid : Prop :=
  (1 ≤ r sig ∧ r sig < Tx.secp256k1N) ∧ (1 ≤ s sig ∧ s sig < Tx.secp256k1N) ∧
    (v sig = 0 ∨ v sig = 1)

instance (sig : FixedBytes 65) : Decidable (Valid sig) := by
  unfold Valid
  infer_instance

/-- The byte survives the shift by 27 and back, wrapping or not. -/
theorem shift_back (x : UInt8) : (u64 (x + 27).toNat - 27).toUInt8 = x := by
  apply UInt8.toNat_inj.mp
  have hx := x.toNat_lt
  have hsum : (x + 27).toNat = (x.toNat + 27) % 256 := by simp [UInt8.toNat_add]
  have hu : (u64 (x + 27).toNat).toNat = (x.toNat + 27) % 256 := by
    rw [toNat_u64 (by omega), hsum]
  have h27 : (27 : UInt64).toNat = 27 := rfl
  rw [UInt64.toNat_toUInt8, UInt64.toNat_sub, hu, h27]
  omega

/-- The three parts make the whole. -/
theorem parts : sig.bytes.take 32 ++ (sig.bytes.drop 32).take 32 ++ [v sig] = sig.bytes := by
  obtain ⟨b, hb⟩ := sig
  have hlast : (b.drop 32).drop 32 = [b.getD 64 0] := by
    rw [List.drop_drop, List.drop_eq_getElem_cons (by omega), List.drop_of_length_le (by omega)]
    rw [List.getD_eq_getElem _ _ (by omega)]
  show b.take 32 ++ (b.drop 32).take 32 ++ [b.getD 64 0] = b
  rw [← hlast, List.append_assoc, List.take_append_drop, List.take_append_drop]

/-- The halves come back from their numbers. -/
theorem padded :
    (FixedBytes.ofBytes 32 (BigEndian.toBytes (r sig))).bytes ++
      (FixedBytes.ofBytes 32 (BigEndian.toBytes (s sig))).bytes ++ [v sig] = sig.bytes := by
  have hr : (sig.bytes.take 32).length = 32 := by rw [List.length_take, sig.length_eq]; rfl
  have hs : ((sig.bytes.drop 32).take 32).length = 32 := by
    rw [List.length_take, List.length_drop, sig.length_eq]; rfl
  have hpad : ∀ (b : Bytes) (h : b.length = 32),
      (FixedBytes.ofBytes 32 (BigEndian.toBytes (BigEndian.ofBytes b))).bytes = b :=
    fun b h => congrArg FixedBytes.bytes (FixedBytes.ofBytes_toBytes_ofBytes ⟨b, h⟩)
  rw [r, s, hpad _ hr, hpad _ hs]
  exact parts sig

/-- **The bytes handed to `Ecrecover`** are the signature, when it is in range. -/
theorem recoverSig_eq :
    Tx.recoverSig (r sig) (s sig) (v sig + 27).toNat
      = if Valid sig then some sig.bytes else none := by
  have hV : ¬ 256 ≤ (v sig + 27).toNat := Nat.not_le.mpr (v sig + 27).toNat_lt
  simp only [Tx.recoverSig, if_neg hV, shift_back, Tx.validateSignatureValues_eq_true, padded]
  rfl

end Signature

theorem TxObject.withSignature_eq (t : TxObject) (sig : FixedBytes 65) :
    t.withSignature sig.bytes
      = .ok ⟨t.data.signed (Signature.r sig) (Signature.s sig) (Signature.v sig + 27).toNat,
          t.dataHash, none, none⟩ := by
  rw [TxObject.withSignature, TxObject.signatureValues, if_pos sig.length_eq]
  rfl

/-! ## Signing -/

/-- `PubkeyToAddress`, of a marshalled key. -/
def pubkeyToAddress (P : Prims) (pub : Bytes) : Address :=
  FixedBytes.ofBytes 20 (P.keccak pub.tail).bytes

/-- `crypto.Sign` with the key of `pub`: it returns 65 bytes in range, the recovery id being 0 or 1,
and `Ecrecover` finds the key in them. -/
structure SignsFor (P : Prims) (sign : Nodes) (pub : Bytes) : Prop where
  marshalled : pub.head? = some 4
  signs : ∀ h, ∃ sig : FixedBytes 65, sign h = some sig.bytes ∧ Signature.Valid sig ∧
    P.ecrecover h sig.bytes = some pub

/-- **Signature values round-trip.**  After `WithSignature`, `Ecrecover` is handed exactly the
signature when it is in range, and `Sender` returns `ErrInvalidSig` when it is not; so the sender of
a signed transaction is the address of the key. -/
theorem signature_roundTrip (P : Prims) :
    (∀ (t : TxObject) (sig : FixedBytes 65), ∃ t', t.withSignature sig.bytes = .ok t' ∧
      (Signature.Valid sig → Tx.recoverSig t'.data.r t'.data.s t'.data.v = some sig.bytes) ∧
      (¬ Signature.Valid sig → (t'.senderOf P).1 = .error .invalidSig)) ∧
    ∀ (sign : Nodes) (pub : Bytes), SignsFor P sign pub →
      ∀ t : TxObject, ∃ t', t.signTx P sign = .ok t' ∧
        (t'.senderOf P).1 = .ok (pubkeyToAddress P pub) := by
  constructor
  · intro t sig
    refine ⟨_, t.withSignature_eq sig, fun hv => ?_, fun hv => ?_⟩
    · exact (Signature.recoverSig_eq sig).trans (if_pos hv)
    · rw [TxObject.senderOf, Tx.senderErr_signed, Tx.recoverPlainErr, Signature.recoverSig_eq,
        if_neg hv]
  · intro sign pub hsign t
    obtain ⟨sig, hsig, hv, hrec⟩ := hsign.signs (t.data.sigHash P)
    obtain ⟨q, rfl⟩ : ∃ q, pub = 4 :: q := List.head?_eq_some_iff.mp hsign.marshalled
    refine ⟨_, by rw [TxObject.signTx, hsig]; exact t.withSignature_eq sig, ?_⟩
    rw [TxObject.senderOf, Tx.senderErr_signed, Tx.recoverPlainErr, Signature.recoverSig_eq,
      if_pos hv]
    simp only [hrec, Tx.addressOf]
    rfl

/-- The signature with both halves 1. -/
def Sample.signature : FixedBytes 65 :=
  ⟨List.replicate 31 0 ++ [1] ++ List.replicate 31 0 ++ [1, 0], by decide⟩

open Sample (prims signature)

theorem signature_roundTrip_sample :
    SignsFor prims (fun _ => some signature.bytes) (4 :: signature.bytes) ∧
      ∀ t : TxObject, ∃ t', t.signTx prims (fun _ => some signature.bytes) = .ok t' ∧
        (t'.senderOf prims).1
          = .ok (pubkeyToAddress prims (4 :: signature.bytes)) := by
  have hsign : SignsFor prims (fun _ => some signature.bytes)
      (4 :: signature.bytes) :=
    ⟨rfl, fun _ => ⟨signature, rfl, by decide +kernel, rfl⟩⟩
  exact ⟨hsign, (signature_roundTrip prims).2 _ _ hsign⟩

end Gocoin
