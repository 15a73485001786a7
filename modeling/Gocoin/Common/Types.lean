import Mathlib.Data.Set.Basic
import Gocoin.Machinery.BigEndian

/-!
# Common/Types — hashes, addresses, the database and machine words

The fixed-size byte arrays of `common/types.go` carry their length, so a `Hash` always has 32 bytes
and an `Address` 20.  The database is a finite map from byte strings to byte strings seen through
its lookup function; the nodes of all tries live under their 32-byte hashes (`Db.nodes`) and every
other table under longer or shorter keys.
-/

namespace Gocoin

/-! ## Fallible code

What panics is `none`; a `do` block is taken apart one step at a time. -/

section Bind

variable {α β : Type} {f : α → Option β}

theorem some_bind (a : α) : (some a >>= f) = f a := rfl

theorem bind_eq_some {o : Option α} {b : β} :
    (o >>= f) = some b ↔ ∃ a, o = some a ∧ f a = some b := Option.bind_eq_some_iff

end Bind

/-- A Go array `[n]byte`. -/
structure FixedBytes (n : ℕ) where
  bytes : Bytes
  length_eq : bytes.length = n
  deriving DecidableEq

/-- `common.Hash`. -/
abbrev Hash := FixedBytes 32

/-- `common.Address`. -/
abbrev Address := FixedBytes 20

/-- A hash function, as Keccak-256. -/
abbrev HashFn := Bytes → Hash

/-- What a database has under the hashes of trie nodes. -/
abbrev Nodes := Hash → Option Bytes

instance : LawfulBEq Hash := inferInstance

instance : LawfulBEq Address := inferInstance

namespace FixedBytes

variable {n : ℕ}

@[ext] theorem ext_bytes {a b : FixedBytes n} (h : a.bytes = b.bytes) : a = b := by
  cases a
  cases b
  cases h
  rfl

/-- `SetBytes`: longer strings are cropped from the left, shorter ones padded there. -/
def ofBytes (n : ℕ) (b : Bytes) : FixedBytes n where
  bytes := List.replicate (n - b.length) 0 ++ b.drop (b.length - n)
  length_eq := by
    rw [List.length_append, List.length_replicate, List.length_drop]
    omega

/-- The zero array. -/
def zero (n : ℕ) : FixedBytes n := ⟨List.replicate n 0, List.length_replicate⟩

theorem bytes_ofBytes_of_le {b : Bytes} (h : b.length ≤ n) :
    (ofBytes n b).bytes = List.replicate (n - b.length) 0 ++ b := by
  show List.replicate (n - b.length) 0 ++ b.drop (b.length - n) = _
  rw [Nat.sub_eq_zero_of_le h, List.drop_zero]

theorem ofBytes_bytes (a : FixedBytes n) : ofBytes n a.bytes = a := by
  apply ext_bytes
  simp [ofBytes, a.length_eq]

/-- Through a big integer and back. -/
theorem ofBytes_toBytes_ofBytes (a : FixedBytes n) :
    ofBytes n (BigEndian.toBytes (BigEndian.ofBytes a.bytes)) = a := by
  have hlen : (BigEndian.toBytes (BigEndian.ofBytes a.bytes)).length ≤ n :=
    BigEndian.length_toBytes_le (lt_of_lt_of_eq (BigEndian.ofBytes_lt a.bytes)
      (by rw [a.length_eq]))
  have hpad := BigEndian.replicate_append_toBytes_ofBytes a.bytes
  rw [a.length_eq] at hpad
  exact ext_bytes ((bytes_ofBytes_of_le hlen).trans hpad)

end FixedBytes

/-- `(*big.Int).Uint64` on a natural number: the low 64 bits. -/
def u64 (n : ℕ) : UInt64 := UInt64.ofNat n

/-- `(*big.Int).Uint64` on an integer: the low 64 bits of the absolute value. -/
def intU64 (z : ℤ) : UInt64 := UInt64.ofNat z.natAbs

theorem u64_toNat (x : UInt64) : u64 x.toNat = x := UInt64.ofNat_toNat

theorem toNat_u64 {n : ℕ} (h : n < 2 ^ 64) : (u64 n).toNat = n := UInt64.toNat_ofNat_of_lt' h

theorem u64_inj {m n : ℕ} (hm : m < 2 ^ 64) (hn : n < 2 ^ 64) (h : u64 m = u64 n) : m = n := by
  rw [← toNat_u64 hm, h, toNat_u64 hn]

/-! ## The database -/

/-- The key-value store, through its lookup. -/
structure Db where
  get : Bytes → Option Bytes

namespace Db

/-- The empty store. -/
def empty : Db := ⟨fun _ => none⟩

variable (db : Db)

/-- `Put`. -/
def put (k v : Bytes) : Db := ⟨Function.update db.get k (some v)⟩

/-- `Delete`. -/
def delete (k : Bytes) : Db := ⟨Function.update db.get k none⟩

/-- A sequence of `Put`s, in order. -/
def putAll (ws : List (Bytes × Bytes)) : Db := ws.foldl (fun db w => db.put w.1 w.2) db

/-- What the tries see: the values under 32-byte keys. -/
def nodes (h : Hash) : Option Bytes := db.get h.bytes

@[simp] theorem get_put_self (k v : Bytes) : (db.put k v).get k = some v :=
  Function.update_self ..

variable {k v : Bytes} {ws : List (Bytes × Bytes)}

theorem get_put_of_ne {k' : Bytes} (h : k' ≠ k) (v : Bytes) :
    (db.put k v).get k' = db.get k' := Function.update_of_ne h ..

@[simp] theorem get_delete_self (k : Bytes) : (db.delete k).get k = none :=
  Function.update_self ..

theorem get_delete_of_ne {k' : Bytes} (h : k' ≠ k) :
    (db.delete k).get k' = db.get k' := Function.update_of_ne h ..

@[simp] theorem putAll_nil : db.putAll [] = db := rfl

@[simp] theorem putAll_cons (w : Bytes × Bytes) (ws : List (Bytes × Bytes)) :
    db.putAll (w :: ws) = (db.put w.1 w.2).putAll ws := rfl

/-- A key no write touches keeps its value. -/
theorem get_putAll_of_notMem (h : ∀ w ∈ ws, w.1 ≠ k) (db : Db) :
    (db.putAll ws).get k = db.get k := by
  induction ws generalizing db with
  | nil => rfl
  | cons w ws ih =>
    rw [putAll_cons, ih (fun w' hw' => h w' (List.mem_cons_of_mem w hw')),
      get_put_of_ne db (Ne.symm (h w List.mem_cons_self))]

/-- A value that agrees with every write to its key survives them. -/
theorem get_putAll_of_agree (h : ∀ w ∈ ws, w.1 = k → w.2 = v) {db : Db} (hdb : db.get k = some v) :
    (db.putAll ws).get k = some v := by
  induction ws generalizing db with
  | nil => exact hdb
  | cons w ws ih =>
    refine ih (fun w' hw' => h w' (List.mem_cons_of_mem w hw')) ?_
    by_cases hw : k = w.1
    · rw [hw, get_put_self, h w List.mem_cons_self hw.symm]
    · rw [get_put_of_ne db hw, hdb]

/-- A written value is there afterwards when all writes to its key agree. -/
theorem get_putAll_of_mem (hmem : (k, v) ∈ ws) (h : ∀ w ∈ ws, w.1 = k → w.2 = v) (db : Db) :
    (db.putAll ws).get k = some v := by
  induction ws generalizing db with
  | nil => exact absurd hmem List.not_mem_nil
  | cons w ws ih =>
    rcases List.mem_cons.mp hmem with rfl | hmem
    · exact get_putAll_of_agree (fun w' hw' => h w' (List.mem_cons_of_mem _ hw'))
        (get_put_self db k v)
    · exact ih hmem (fun w' hw' => h w' (List.mem_cons_of_mem _ hw')) _

/-- What is there after the writes was written or was there before. -/
theorem mem_or_get_of_get_putAll {db : Db} (h : (db.putAll ws).get k = some v) :
    (k, v) ∈ ws ∨ db.get k = some v := by
  induction ws generalizing db with
  | nil => exact .inr h
  | cons w ws ih =>
    rcases ih h with hmem | hget
    · exact .inl (List.mem_cons_of_mem w hmem)
    · by_cases hk : k = w.1
      · rw [hk, get_put_self] at hget
        obtain rfl := Option.some.inj hget
        exact .inl (hk ▸ List.mem_cons_self)
      · rw [get_put_of_ne db hk] at hget
        exact .inr hget

/-! ### Frames -/

/-- The two stores agree on every key outside `T`. -/
def SameOff (T : Set Bytes) (db db' : Db) : Prop := ∀ k, k ∉ T → db'.get k = db.get k

variable {T T' : Set Bytes} {db db' db'' : Db}

theorem SameOff.refl (T : Set Bytes) (db : Db) : SameOff T db db := fun _ _ => rfl

theorem SameOff.trans (h : SameOff T db db') (h' : SameOff T db' db'') : SameOff T db db'' :=
  fun k hk => (h' k hk).trans (h k hk)

theorem SameOff.mono (h : SameOff T db db') (hT : T ⊆ T') : SameOff T' db db' :=
  fun k hk => h k fun hk' => hk (hT hk')

theorem sameOff_put (hk : k ∈ T) (db : Db) (v : Bytes) : SameOff T db (db.put k v) :=
  fun k' hk' => get_put_of_ne db (fun h : k' = k => hk' (h ▸ hk)) v

theorem sameOff_delete (hk : k ∈ T) (db : Db) : SameOff T db (db.delete k) :=
  fun k' hk' => Function.update_of_ne (fun h : k' = k => hk' (h ▸ hk)) ..

theorem sameOff_putAll (h : ∀ w ∈ ws, w.1 ∈ T) (db : Db) : SameOff T db (db.putAll ws) :=
  fun k hk => get_putAll_of_notMem (fun w hw (hwk : w.1 = k) => hk (hwk ▸ h w hw)) db

end Db

end Gocoin
