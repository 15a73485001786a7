import Gocoin.Machinery.Slice
import Gocoin.Protocol.Signing

/-!
# Protocol/EpochTx — epoch transactions and the signature added to them

`newTx`, `NewEpochTx` and `AddEpochSig` of `protocol/tx.go`.  The payload of an epoch transaction is
its type, the length of its data and the data; `AddEpochSig` builds the payload with the other type
and the signature behind, and copies it into the old payload, whose length does not change.  So the
type is written and the signature is lost, and a hash that was read before is that of the old
contents.
-/

namespace Gocoin

/-- `binary.BigEndian.PutUint32` of `uint32(n)`. -/
def putUint32 (n : ℕ) : Bytes := (FixedBytes.ofBytes 4 (BigEndian.toBytes (n % 2 ^ 32))).bytes

namespace TxObject

/-- `newTx`, at the time `now`. -/
def newTx (now : UInt64) (recipient : Option Address) (amount cost : Option ℤ) (data : Bytes) :
    TxObject :=
  ofData
    { cost := cost.getD 0
      recipient := recipient
      amount := amount.getD 0
      txtime := now
      payload := data
      v := 0
      r := 0
      s := 0 }

/-- `NewEpochTx`. -/
def newEpochTx (now : UInt64) (cost : Option ℤ) (data : Bytes) : TxObject :=
  newTx now (some (.zero 20)) (some 0) cost (6 :: (putUint32 data.length ++ data))

/-- `AddEpochSig`; an empty payload is an index out of range. -/
def addEpochSig (t : TxObject) (sig : Bytes) : Option TxObject :=
  match t.data.payload with
  | [] => none
  | x :: rest =>
    some { t with
      data := { t.data with
        payload := Slice.copyInto (x :: rest) (7 :: rest ++ (putUint32 sig.length ++ sig)) } }

/-- An epoch transaction whose hash was read, or not. -/
def epochTx (P : Prims) (read : Bool) (now : UInt64) (cost : Option ℤ) (data : Bytes) : TxObject :=
  if read then ((newEpochTx now cost data).hashOf P).2 else newEpochTx now cost data

end TxObject

/-- The payload with the data and the signature, each behind its length. -/
def signedPayload (data sig : Bytes) : Bytes :=
  7 :: (putUint32 data.length ++ data ++ putUint32 sig.length ++ sig)

open TxObject

theorem addEpochSig_eq {t : TxObject} {x : UInt8} {rest : Bytes} (h : t.data.payload = x :: rest)
    (sig : Bytes) :
    t.addEpochSig sig = some { t with data := { t.data with payload := 7 :: rest } } := by
  rw [addEpochSig, h]
  have hlen : (7 :: rest).length = (x :: rest).length := rfl
  simp only [Slice.copyInto_append hlen]

theorem data_epochTx (P : Prims) (read : Bool) (now : UInt64) (cost : Option ℤ) (data : Bytes) :
    (epochTx P read now cost data).data = (newEpochTx now cost data).data := by
  cases read <;> rfl

theorem hash_epochTx (P : Prims) (read : Bool) (now : UInt64) (cost : Option ℤ) (data : Bytes) :
    (epochTx P read now cost data).hash
      = if read then some ((newEpochTx now cost data).data.hash P) else none := by
  cases read <;> rfl

/-- **The signature is lost.**  After `AddEpochSig` the payload has the new type, the length and the
data, whatever the signature, and is never the payload with the signature; the hash is that of the
new contents only if it was not read before, or if the two contents have the same hash. -/
theorem addEpochSig_loses_sig (P : Prims) (read : Bool) (now : UInt64) (cost : Option ℤ)
    (data sig : Bytes) :
    ∃ t, (epochTx P read now cost data).addEpochSig sig = some t ∧
      t.data.payload = 7 :: (putUint32 data.length ++ data) ∧
      t.data.payload ≠ signedPayload data sig ∧
      ((t.hashOf P).1 = t.data.hash P ↔
        read = false ∨ (newEpochTx now cost data).data.hash P = t.data.hash P) := by
  have hpayload : (epochTx P read now cost data).data.payload
      = 6 :: (putUint32 data.length ++ data) := by
    rw [data_epochTx]
    rfl
  refine ⟨_, addEpochSig_eq hpayload sig, rfl, fun h => ?_, ?_⟩
  · have hlen := congrArg List.length h
    simp only [signedPayload, List.length_cons, List.length_append] at hlen
    have hsize : (putUint32 sig.length).length = 4 := FixedBytes.length_eq _
    omega
  · rw [hashOf, hash_epochTx]
    cases read with
    | false => exact iff_of_true rfl (.inl rfl)
    | true => simp

/-- A signature of one byte on data of one byte, after the hash was read. -/
theorem addEpochSig_loses_sample :
    ∃ t, (epochTx Sample.prims true 0 none [1]).addEpochSig [2] = some t ∧
      t.data.payload = [7, 0, 0, 0, 1, 1] ∧
      signedPayload [1] [2] = [7, 0, 0, 0, 1, 1, 0, 0, 0, 1, 2] ∧
      (t.hashOf Sample.prims).1 ≠ t.data.hash Sample.prims :=
  ⟨_, rfl, by decide +kernel, by decide +kernel, by decide +kernel⟩

end Gocoin
