import Gocoin.BlsGroup.Announcement
import Gocoin.Protocol.Wire

/-!
# BlsGroup/Restart — a group after a restart

When its key is there, a group is saved: everything about it under its hash, and its hash under its
number.  After a restart `LoadBlsInfo` looks the hash up under the numbers 0, 1 and 2, decodes what
is stored under the hash, and copies it into a group that was created anew.  Number, size,
threshold, identifier and keys come back (`loadBlsInfo_saved`).  The members are copied into the
slice that the new group has, as far as it goes, and the hash is not copied at all; so everything is
restored exactly when the slice has the right length and the hash is the zero hash of a new group
(`restart_restores_iff`).

The hexadecimal strings of identifiers and keys enter through `HexStrings`, with the assumption that
they come back as they were.
-/

namespace Gocoin.Bls

open Rlp

variable {F G₁ G₂ ρ : Type}

/-- The hexadecimal strings of the curve library: `GetHexString` and `SetHexString`. -/
structure HexStrings (F G₂ : Type) where
  ofID : F → Bytes
  toID : Bytes → Option F
  ofSec : F → Bytes
  toSec : Bytes → Option F
  ofPub : G₂ → Bytes
  toPub : Bytes → Option G₂
  toID_ofID : ∀ x, toID (ofID x) = some x
  toSec_ofSec : ∀ x, toSec (ofSec x) = some x
  toPub_ofPub : ∀ x, toPub (ofPub x) = some x

/-! ## Copying -/

section Copy

variable {α : Type} {dst src : List α}

/-- `copy` into a slice: as far as it goes. -/
def copyInto (dst src : List α) : List α := src.take dst.length ++ dst.drop src.length

theorem length_copyInto : (copyInto dst src).length = dst.length := by
  rw [copyInto, List.length_append, List.length_take, List.length_drop]
  omega

theorem copyInto_of_length_eq (h : dst.length = src.length) : copyInto dst src = src := by
  rw [copyInto, h, List.take_length, List.drop_eq_nil_of_le h.le, List.append_nil]

end Copy

/-! ## The record -/

/-- `BlsGroupInfo`. -/
structure BlsGroupInfo where
  gid : UInt64
  hash : Hash
  members : List Address
  id : Bytes
  pub : Bytes
  sec : Bytes
  gsize : UInt64
  gthreshold : UInt64

namespace BlsGroupInfo

/-- The list `rlp` makes of a record. -/
def item (info : BlsGroupInfo) : Item :=
  .list [.ofNat info.gid.toNat, .str info.hash.bytes,
    .list (info.members.map fun a => .str a.bytes),
    .str info.id, .str info.pub, .str info.sec, .ofNat info.gsize.toNat,
    .ofNat info.gthreshold.toNat]

/-- The decoder of a record. -/
def decode : Decoder BlsGroupInfo := decodeStruct do
  let gid ← field "GID" decodeUint64
  let hash ← field "Hash" (decodeFixed 32)
  let members ← field "Members" (decodeListSlice (decodeFixed 20))
  let id ← field "ID" decodeByteSlice
  let pub ← field "Pub" decodeByteSlice
  let sec ← field "Sec" decodeByteSlice
  let gsize ← field "Gsize" decodeUint64
  let gthreshold ← field "Gthreshold" decodeUint64
  pure ⟨gid, hash, members, id, pub, sec, gsize, gthreshold⟩

/-- **A record is read back.** -/
theorem exists_decode (info : BlsGroupInfo) (hsize : (encode info.item).length < 2 ^ 64) :
    ∃ s, decode (.new (encode info.item)) = .ok info s := by
  have hreads := reads_struct (reads_uint64.field "GID" fun gid =>
    (reads_fixed (n := 32) (by norm_num)).field "Hash" fun hash =>
    (reads_listSlice (reads_fixed (n := 20) (by norm_num))).field "Members" fun members =>
    reads_byteSlice.field "ID" fun id => reads_byteSlice.field "Pub" fun pub =>
    reads_byteSlice.field "Sec" fun sec => reads_uint64.field "Gsize" fun gsize =>
    reads_uint64.field "Gthreshold" fun gthreshold =>
      readsAll_pure (⟨gid, hash, members, id, pub, sec, gsize, gthreshold⟩ : BlsGroupInfo))
  have hmembers : (info.members.map fun a => Item.str a.bytes).mapM (FixedBytes.ofItem 20)
      = some info.members := by
    rw [Fold.mapM_eq_some_iff, List.forall₂_map_left_iff]
    exact List.forall₂_same.mpr fun a _ => FixedBytes.ofItem_str a
  have hahead := Stream.ahead_new (encode info.item)
  obtain ⟨s, hs, -⟩ :=
    hreads.complete (c := []) (v := info) rfl (by rwa [List.append_nil]) hsize (by
    simp only [item, Item.elems?_list, Option.bind_some, thenItems, noMore, Item.uint64?_ofNat,
      FixedBytes.ofItem_str, hmembers, Item.bytes?_str])
  exact ⟨s, hs⟩

end BlsGroupInfo

section

variable [Field F] [AddCommGroup G₁] [Module F G₁] [AddCommGroup G₂] [Module F G₂]

/-- The record of a group whose key is there. -/
def NamedGroup.info (lib : Library F G₁ G₂) (hex : HexStrings F G₂) (g : NamedGroup F G₂) :
    BlsGroupInfo where
  gid := u64 g.gid
  hash := g.hash
  members := g.members
  id := hex.ofID (lib.setLittleEndian g.self)
  pub := hex.ofPub g.pub
  sec := hex.ofSec g.sec
  gsize := u64 g.n
  gthreshold := u64 g.k

/-- `saveBlsInfo`. -/
def saveBlsInfo (db : Db) (info : BlsGroupInfo) : Db :=
  (db.put info.hash.bytes (encode info.item)).put (formatUint info.gid.toNat) info.hash.bytes

/-- `NewBlsgroup`: the identifier is read from the bytes of the address, and the public key from a
text that stands for none. -/
def newBlsgroup (hex : HexStrings F G₂) (self : Address) (members : List Address) (k gid : ℕ) :
    NamedGroup F G₂ where
  self := self
  selfID := (hex.toID self.bytes).getD 0
  gid := gid
  members := members
  k := k
  n := members.length
  sec := 0
  pub := (hex.toPub [0x61, 0x61, 0x61, 0x61]).getD 0
  isCreate := false
  collector := none
  pending := 0
  hash := .zero 32

/-- The groups of an address that were created, and perhaps `Set`, since the program started. -/
inductive Fresh (lib : Library F G₁ G₂) (hex : HexStrings F G₂) : Address → NamedGroup F G₂ → Prop
  | new (self : Address) (members : List Address) (k gid : ℕ) :
      Fresh lib hex self (newBlsgroup hex self members k gid)
  | set {a : Address} {f : NamedGroup F G₂} (self : Address) (members : List Address) (k : ℕ)
      (hf : Fresh lib hex a f) :
      Fresh lib hex self { f with toBlsGroup := f.toBlsGroup.set lib self members k }

/-- What `LoadBlsInfo` copies into the group. -/
def NamedGroup.restore (hex : HexStrings F G₂) (g : NamedGroup F G₂) (info : BlsGroupInfo) :
    NamedGroup F G₂ :=
  { g with
    members := copyInto g.members info.members
    gid := info.gid.toNat
    selfID := (hex.toID info.id).getD g.selfID
    n := info.gsize.toNat
    k := info.gthreshold.toNat
    pub := (hex.toPub info.pub).getD g.pub
    sec := (hex.toSec info.sec).getD g.sec
    isCreate := true }

/-- The errors of `LoadBlsInfo`. -/
inductive LoadErr where
  | notFound
  | decode (e : StreamErr)
  | notMember
  deriving DecidableEq

/-- The loop of `LoadBlsInfo` over the numbers 0, 1 and 2: every hash that is found is entered into
the maps, and the last one counts. -/
def lookupIds (db : Db) (this : ρ) (registry : Registry ρ) : Hash × Registry ρ :=
  [0, 1, 2].foldl (fun r v =>
    match db.get (formatUint v) with
    | none => r
    | some h =>
      let hash := FixedBytes.ofBytes 32 h
      (hash,
        { idHash := Function.update r.2.idHash v (some hash)
          blsHashGroups := Function.update r.2.blsHashGroups hash (some this)
          blsGroups := Function.update r.2.blsGroups v (some this) }))
    (.zero 32, registry)

/-- `LoadBlsInfo`: its error, and what it leaves. -/
def Worker.loadBlsInfo (hex : HexStrings F G₂) (w : Worker F G₂ ρ) :
    Except LoadErr Unit × Worker F G₂ ρ :=
  let r := lookupIds w.db w.this w.registry
  let w := { w with registry := r.2 }
  match w.db.get r.1.bytes with
  | none => (.error .notFound, w)
  | some data =>
    match BlsGroupInfo.decode (.new data) with
    | .error e _ => (.error (.decode e), w)
    | .ok info _ =>
      if w.group.self ∉ info.members then (.error .notMember, w)
      else
        (.ok (),
          { w with
            group := w.group.restore hex info
            registry :=
              { w.registry with
                blsGroups := Function.update w.registry.blsGroups info.gid.toNat (some w.this) } })

end

/-! ## Keys of the database -/

theorem formatUint_injective : Function.Injective formatUint := by
  intro m n h
  have hread := congrArg (Numeral.read 10) h
  rw [formatUint, formatUint, Numeral.read_write (by norm_num) (by norm_num),
    Numeral.read_write (by norm_num) (by norm_num)] at hread
  exact Option.some.inj hread

theorem formatUint_ne_hash {id : ℕ} (hid : id < 2 ^ 64) (hash : Hash) :
    formatUint id ≠ hash.bytes := by
  intro h
  have hlen : (formatUint id).length ≤ 20 :=
    (Numeral.length_write_le_iff (by norm_num) (by norm_num)).mpr (hid.trans (by norm_num))
  rw [h, hash.length_eq] at hlen
  exact absurd hlen (by norm_num)

variable {db : Db} {info : BlsGroupInfo}

theorem get_hash_saveBlsInfo (db : Db) (info : BlsGroupInfo) :
    (saveBlsInfo db info).get info.hash.bytes = some (encode info.item) := by
  rw [saveBlsInfo, Db.get_put_of_ne _ (formatUint_ne_hash info.gid.toNat_lt _).symm,
    Db.get_put_self]

theorem get_formatUint_saveBlsInfo (db : Db) (info : BlsGroupInfo) {v : ℕ} (hv : v < 2 ^ 64) :
    (saveBlsInfo db info).get (formatUint v) =
      if v = info.gid.toNat then some info.hash.bytes else db.get (formatUint v) := by
  rw [saveBlsInfo]
  split
  · next h => rw [h, Db.get_put_self]
  · next h =>
    rw [Db.get_put_of_ne _ fun heq => h (formatUint_injective heq),
      Db.get_put_of_ne _ (formatUint_ne_hash hv _)]

/-- The hash that is found when no other group was saved: that of the group, if its number is one of
those that are looked up. -/
theorem lookupIds_saved (hdb : ∀ v ∈ [0, 1, 2], v ≠ info.gid.toNat → db.get (formatUint v) = none)
    (this : ρ) (registry : Registry ρ) :
    (lookupIds (saveBlsInfo db info) this registry).1
      = if info.gid.toNat ≤ 2 then info.hash else FixedBytes.zero 32 := by
  have hget : ∀ v ∈ [0, 1, 2], (saveBlsInfo db info).get (formatUint v)
      = if v = info.gid.toNat then some info.hash.bytes else none := by
    intro v hv
    have hlt : v < 2 ^ 64 := by
      simp only [List.mem_cons, List.not_mem_nil, or_false] at hv
      omega
    rw [get_formatUint_saveBlsInfo db info hlt]
    split
    · rfl
    · next h => exact hdb v hv h
  simp only [lookupIds, List.foldl_cons, List.foldl_nil, hget 0 (by simp), hget 1 (by simp),
    hget 2 (by simp)]
  generalize info.gid.toNat = i
  rcases (by omega : i = 0 ∨ i = 1 ∨ i = 2 ∨ 2 < i) with rfl | rfl | rfl | h
  · simp [FixedBytes.ofBytes_bytes]
  · simp [FixedBytes.ofBytes_bytes]
  · simp [FixedBytes.ofBytes_bytes]
  · rw [if_neg (by omega), if_neg (by omega), if_neg (by omega), if_neg (by omega)]

/-! ## Loading -/

section Loading

variable [Field F] [AddCommGroup G₁] [Module F G₁] [AddCommGroup G₂] [Module F G₂]
  {lib : Library F G₁ G₂} {hex : HexStrings F G₂} {g f : NamedGroup F G₂}

theorem Fresh.self_and_hash {self : Address} (hf : Fresh lib hex self f) :
    f.self = self ∧ f.hash = FixedBytes.zero 32 := by
  induction hf with
  | new self members k gid => exact ⟨rfl, rfl⟩
  | set self members k _ ih => exact ⟨rfl, ih.2⟩

omit [Field F] [AddCommGroup G₂] in
/-- Loading leaves the group as it is, or restores some record. -/
theorem Worker.group_loadBlsInfo (hex : HexStrings F G₂) (w : Worker F G₂ ρ) :
    (w.loadBlsInfo hex).2.group = w.group ∨
      ∃ info, (w.loadBlsInfo hex).2.group = w.group.restore hex info := by
  simp only [loadBlsInfo]
  split
  · exact .inl rfl
  · split
    · exact .inl rfl
    · split
      · exact .inl rfl
      · exact .inr ⟨_, rfl⟩

omit [Field F] [AddCommGroup G₂] in
/-- Whatever is loaded, the hash of the group and the length of its members stay. -/
theorem Worker.loadBlsInfo_keeps (hex : HexStrings F G₂) (w : Worker F G₂ ρ) :
    (w.loadBlsInfo hex).2.group.hash = w.group.hash ∧
      (w.loadBlsInfo hex).2.group.members.length = w.group.members.length := by
  rcases w.group_loadBlsInfo hex with h | ⟨info, h⟩
  · rw [h]
    exact ⟨rfl, rfl⟩
  · rw [h]
    exact ⟨rfl, length_copyInto⟩

omit [Field F] [AddCommGroup G₂] in
/-- Loading, when the hash of a saved record is found. -/
theorem Worker.loadBlsInfo_eq_restore {w : Worker F G₂ ρ} {hash : Hash} {info : BlsGroupInfo}
    (hhash : (lookupIds w.db w.this w.registry).1 = hash)
    (hget : w.db.get hash.bytes = some (encode info.item))
    (hsize : (encode info.item).length < 2 ^ 64) (hself : w.group.self ∈ info.members) :
    (w.loadBlsInfo hex).1 = .ok () ∧ (w.loadBlsInfo hex).2.group = w.group.restore hex info := by
  obtain ⟨s, hs⟩ := info.exists_decode hsize
  simp only [loadBlsInfo, hhash, hget, hs, not_not.mpr hself, if_false, and_self]

/-- What comes back of a group. -/
theorem NamedGroup.restore_info (hgid : g.gid < 2 ^ 64) (hn : g.n < 2 ^ 64) (hk : g.k < 2 ^ 64) :
    f.restore hex (g.info lib hex) =
      { f with
        members := copyInto f.members g.members
        gid := g.gid
        selfID := lib.setLittleEndian g.self
        n := g.n
        k := g.k
        pub := g.pub
        sec := g.sec
        isCreate := true } := by
  simp only [restore, info, hex.toID_ofID, hex.toPub_ofPub, hex.toSec_ofSec, Option.getD_some,
    toNat_u64 hgid, toNat_u64 hn, toNat_u64 hk]

/-- A saved group is loaded when no other group was saved under the numbers that are looked up, and
its own number is one of them; the zero hash is found without a number. -/
theorem loadBlsInfo_saved (hself : g.self ∈ g.members) (hgid : g.gid < 2 ^ 64)
    (hsize : (encode (g.info lib hex).item).length < 2 ^ 64) (hf : f.self = g.self)
    (hdb : ∀ v ∈ [0, 1, 2], v ≠ g.gid → db.get (formatUint v) = none)
    (hfound : g.gid ≤ 2 ∨ g.hash = FixedBytes.zero 32) (this : ρ) (registry : Registry ρ) :
    (Worker.loadBlsInfo hex ⟨f, this, registry, saveBlsInfo db (g.info lib hex)⟩).1 = .ok () ∧
      (Worker.loadBlsInfo hex ⟨f, this, registry, saveBlsInfo db (g.info lib hex)⟩).2.group =
        f.restore hex (g.info lib hex) := by
  have hnumber : (g.info lib hex).gid.toNat = g.gid := toNat_u64 hgid
  have hhash : (lookupIds (saveBlsInfo db (g.info lib hex)) this registry).1 = g.hash := by
    rw [lookupIds_saved (by rwa [hnumber]) this registry, hnumber]
    split
    · rfl
    · next h => exact (hfound.resolve_left h).symm
  exact Worker.loadBlsInfo_eq_restore hhash (get_hash_saveBlsInfo db (g.info lib hex)) hsize
    (show f.self ∈ g.members by rwa [hf])

/-- What is to be the same after a restart. -/
structure Restored (g g' : NamedGroup F G₂) : Prop where
  members : g'.members = g.members
  hash : g'.hash = g.hash
  gid : g'.gid = g.gid
  n : g'.n = g.n
  k : g'.k = g.k
  selfID : g'.selfID = g.selfID
  pub : g'.pub = g.pub
  sec : g'.sec = g.sec

/-- **What a restart restores.**  A group of which the node is a member is saved, and loaded into a
fresh group of the same address.

* Whatever else the database holds: all of it comes back only if the hash is the zero hash and the
  fresh group has as many members.
* When no other group is saved under the numbers 0, 1 and 2, a group with one of these numbers is
  loaded: number, size, threshold and keys come back, the identifier is that of the address, the
  members are copied as far as the fresh ones go, and the hash stays zero.
* When no other group is saved under these numbers, all of it comes back exactly if the hash is the
  zero hash, the fresh group has as many members, and the identifier was that of the address. -/
theorem restart_restores_iff (hself : g.self ∈ g.members) (hgid : g.gid < 2 ^ 64)
    (hn : g.n < 2 ^ 64) (hk : g.k < 2 ^ 64)
    (hsize : (encode (g.info lib hex).item).length < 2 ^ 64) (hf : Fresh lib hex g.self f)
    (db : Db) (this : ρ) (registry : Registry ρ) :
    let r := Worker.loadBlsInfo hex ⟨f, this, registry, saveBlsInfo db (g.info lib hex)⟩
    (Restored g r.2.group → g.hash = FixedBytes.zero 32 ∧ f.members.length = g.members.length) ∧
    ((∀ v ∈ [0, 1, 2], v ≠ g.gid → db.get (formatUint v) = none) →
      (g.gid ≤ 2 → r.1 = .ok () ∧ r.2.group.gid = g.gid ∧ r.2.group.n = g.n ∧
        r.2.group.k = g.k ∧ r.2.group.pub = g.pub ∧ r.2.group.sec = g.sec ∧
        r.2.group.selfID = lib.setLittleEndian g.self ∧
        r.2.group.members = copyInto f.members g.members ∧
        r.2.group.hash = FixedBytes.zero 32) ∧
      (r.1 = .ok () ∧ Restored g r.2.group ↔
        g.hash = FixedBytes.zero 32 ∧ f.members.length = g.members.length ∧
          g.selfID = lib.setLittleEndian g.self)) := by
  obtain ⟨hfself, hfhash⟩ := hf.self_and_hash
  intro r
  have honly : Restored g r.2.group →
      g.hash = FixedBytes.zero 32 ∧ f.members.length = g.members.length := by
    intro h
    obtain ⟨hhash, hlen⟩ := Worker.loadBlsInfo_keeps hex
      (⟨f, this, registry, saveBlsInfo db (g.info lib hex)⟩ : Worker F G₂ ρ)
    exact ⟨h.hash.symm.trans (hhash.trans hfhash), hlen.symm.trans (congrArg List.length h.members)⟩
  refine ⟨honly, fun hdb => ?_⟩
  have hload := fun hfound => loadBlsInfo_saved hself hgid hsize hfself hdb hfound this registry
  rw [NamedGroup.restore_info hgid hn hk] at hload
  constructor
  · intro hnumber
    obtain ⟨hok, hgroup⟩ := hload (.inl hnumber)
    refine ⟨hok, ?_⟩
    rw [hgroup]
    exact ⟨rfl, rfl, rfl, rfl, rfl, rfl, rfl, hfhash⟩
  · constructor
    · rintro ⟨-, h⟩
      obtain ⟨hzero, hlen⟩ := honly h
      have hgroup := (hload (.inr hzero)).2
      exact ⟨hzero, hlen, h.selfID.symm.trans (congrArg (fun g => g.selfID) hgroup)⟩
    · rintro ⟨hzero, hlen, hid⟩
      obtain ⟨hok, hgroup⟩ := hload (.inr hzero)
      refine ⟨hok, ?_⟩
      rw [hgroup]
      exact ⟨copyInto_of_length_eq hlen, hfhash.trans hzero.symm, rfl, rfl, rfl, hid.symm, rfl, rfl⟩

end Loading

namespace Sample

/-- Identifiers and keys modulo five, written as one byte. -/
def hexStrings : HexStrings (ZMod 5) (ZMod 5) where
  ofID x := [UInt8.ofNat x.val]
  toID s := s.head?.map fun b => (b.toNat : ZMod 5)
  ofSec x := [UInt8.ofNat x.val]
  toSec s := s.head?.map fun b => (b.toNat : ZMod 5)
  ofPub x := [UInt8.ofNat x.val]
  toPub s := s.head?.map fun b => (b.toNat : ZMod 5)
  toID_ofID := by decide
  toSec_ofSec := by decide
  toPub_ofPub := by decide

/-- The group of the first two addresses, with its key. -/
def keyed (hash : Hash) : NamedGroup (ZMod 5) (ZMod 5) :=
  { group 0 (peer 1) [peer 1, peer 2] with hash, sec := (3 : ℕ), pub := (4 : ℕ), isCreate := true }

/-- The group that the console makes when the program starts. -/
def started (members : List Address) : NamedGroup (ZMod 5) (ZMod 5) :=
  let f := newBlsgroup hexStrings (.zero 20) [] 0 0
  { f with toBlsGroup := f.toBlsGroup.set curve (peer 1) members 0 }

theorem fresh_started (members : List Address) :
    Fresh curve hexStrings (peer 1) (started members) :=
  .set (peer 1) members 0 (.new (.zero 20) [] 0 0)

/-- What a restart leaves of a group. -/
def restart (hash : Hash) (members : List Address) :
    Except LoadErr Unit × Worker (ZMod 5) (ZMod 5) Unit :=
  Worker.loadBlsInfo hexStrings ⟨started members, (), ⟨fun _ => none, fun _ => none, fun _ => none⟩,
    saveBlsInfo .empty ((keyed hash).info curve hexStrings)⟩

/-- A group with the zero hash comes back when the fresh one has two members. -/
theorem restart_restores_zero : (restart (.zero 32) [peer 3, peer 4]).1 = .ok () ∧
    Restored (keyed (.zero 32))
      (restart (.zero 32) [peer 3, peer 4]).2.group := by
  have h := restart_restores_iff (g := keyed (.zero 32)) (by decide +kernel)
    (by decide +kernel) (by decide +kernel) (by decide +kernel) (by decide +kernel)
    (fresh_started [peer 3, peer 4]) .empty () ⟨fun _ => none, fun _ => none, fun _ => none⟩
  rw [restart]
  exact ((h.2 fun _ _ _ => rfl).2).mpr (by decide +kernel)

/-- **A restart loses members and hash.**  The console's group has no members when it loads. -/
theorem restart_loses_members : let hash : Hash := FixedBytes.ofBytes 32 [7]
    (restart hash []).1 = .ok () ∧ (restart hash []).2.group.isCreate = true ∧
      (keyed hash).members = [peer 1, peer 2] ∧ (restart hash []).2.group.members = [] ∧
      (restart hash []).2.group.hash ≠ (keyed hash).hash := by
  decide +kernel

end Sample

end Gocoin.Bls
