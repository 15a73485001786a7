import Gocoin.Machinery.Fold
import Gocoin.State.Objects
import Gocoin.ValidateGroup.Group

/-!
# ValidateGroup/Tables — the groups in the database

The `Get…` and `Write…` functions of `validategroup/validategroup.go` and `NewValidateGroup`, which
reads every list back.  A list is written and read back unchanged when no member of it has a
negative time (`getMembers_writeMembers`); a list with a negative time is not written at all, and
the key keeps what it had.
-/

namespace Gocoin.ValidateGroup

open State Rlp Fold

/-! ## Reading the groups back -/

/-- The member of an item. -/
def memberOfItem : Item → Option GroupMember
  | .list [addr, time] => do
    let address ← addressOfItem addr
    let time ← time.nat?
    some ⟨address, time⟩
  | _ => none

/-- The `Get…` functions: no data, or data that cannot be decoded, is no member. -/
def getMembers (db : Db) (key : Bytes) : List GroupMember :=
  match db.get key with
  | some (b :: bs) => do
    (((Rlp.decode (b :: bs)).bind Item.elems?).bind fun xs => xs.mapM memberOfItem).getD []
  | _ => []

/-- A group read from its three keys. -/
def newMemberGroup (members newmembers threshold : List GroupMember) : MemberGroup where
  groupmembers := members
  newgroupmembers := newmembers
  thresholdgroupmembers := threshold
  selected := []
  membersAddress := (members ++ threshold ++ newmembers).map GroupMember.address

/-- `NewValidateGroup`. -/
def newValidateGroup (P : Prims) (db : Db) (hash : Hash) : ValidateGroup where
  space := newMemberGroup (P.sortByTime (getMembers db hash.bytes))
    (getMembers db groupMembersKey) (getMembers db thresholdMembersKey)
  coin := newMemberGroup (getMembers db coinMembersKey) (getMembers db coingroupMembersKey)
    (getMembers db thresholdCoinMembersKey)
  transaction := newMemberGroup (getMembers db transactionMembersKey)
    (getMembers db newTxMembersKey) (getMembers db thresholdTxMembersKey)
  stellgroupmembers := getMembers db stellMembersKey
  stellAddresses := (getMembers db stellMembersKey).map GroupMember.address

/-! ## Which keys are touched -/

variable {T : Set Bytes} {key : Bytes} {ms : List GroupMember}

theorem writeMembers_sameOff (hkey : key ∈ T) (db : Db) (ms : List GroupMember) :
    db.SameOff T (writeMembers db key ms) := by
  unfold writeMembers
  split
  · exact Db.sameOff_put hkey db _
  · exact .refl T db

theorem addMember_sameOff (key : Bytes) (hkey : key ∈ T) (db : Db) (ms : List GroupMember)
    (seen : List Address) (m : GroupMember) :
    db.SameOff T (addMember db key ms seen m).2.2 := by
  unfold addMember
  split
  · exact .refl T db
  · split
    · split
      · exact writeMembers_sameOff hkey db _
      · exact .refl T db
    · exact writeMembers_sameOff hkey db _

theorem MemberGroup.reset_sameOff (thresholdKey newKey : Bytes) (ht : thresholdKey ∈ T)
    (hn : newKey ∈ T) (sort : List GroupMember → List GroupMember) (g : MemberGroup) (db : Db) :
    db.SameOff T (g.reset sort db thresholdKey newKey).2.2 := by
  unfold MemberGroup.reset
  split
  · exact (writeMembers_sameOff ht db _).trans (Db.sameOff_delete hn _)
  · exact .refl T db

/-! ## What is read back -/

/-- No member has a negative time. -/
def Timely (ms : List GroupMember) : Prop := ∀ m ∈ ms, 0 ≤ m.time

instance (ms : List GroupMember) : Decidable (Timely ms) :=
  inferInstanceAs (Decidable (∀ m ∈ ms, 0 ≤ m.time))

/-- The encoding, if there is one, is shorter than `2 ^ 64` bytes. -/
def Fits (ms : List GroupMember) : Prop :=
  ∀ it, membersItem ms = some it → (Rlp.encode it).length < 2 ^ 64

instance (ms : List GroupMember) : Decidable (Fits ms) :=
  decidable_of_iff ((membersItem ms).all fun it => decide ((Rlp.encode it).length < 2 ^ 64)) (by
    cases h : membersItem ms <;> simp [Fits, h])

theorem timely_nil : Timely [] := nofun

variable {ms' : List GroupMember} {m : GroupMember} {db : Db}

theorem timely_append : Timely (ms ++ ms') ↔ Timely ms ∧ Timely ms' := List.forall_mem_append

theorem timely_perm (h : ms.Perm ms') : Timely ms ↔ Timely ms' := by
  simp only [Timely, h.mem_iff]

/-- The item of a member with a nonnegative time. -/
theorem ofInt?_time (h : 0 ≤ m.time) :
    ((Item.ofInt? m.time).map fun t => Item.list [.str m.address.bytes, t])
      = some (.list [.str m.address.bytes, .ofNat m.time.toNat]) := by
  rw [Item.ofInt?_of_nonneg h, Option.map_some]

theorem membersItem_eq_none (h : ¬ Timely ms) : membersItem ms = none := by
  simp only [Timely, not_forall, not_le] at h
  obtain ⟨m, hm, hneg⟩ := h
  rw [membersItem, mapM_eq_none_of_mem hm (by rw [Item.ofInt?_eq_none.mpr hneg]; rfl)]
  rfl

theorem membersItem_of_timely (h : Timely ms) :
    membersItem ms
      = some (.list (ms.map fun m => .list [.str m.address.bytes, .ofNat m.time.toNat])) := by
  have hmap : (ms.mapM fun m =>
      (Item.ofInt? m.time).map fun t => Item.list [.str m.address.bytes, t])
      = some (ms.map fun m => .list [.str m.address.bytes, .ofNat m.time.toNat]) := by
    rw [mapM_eq_some_iff, List.forall₂_map_right_iff]
    exact List.forall₂_same.mpr fun m hm => ofInt?_time (h m hm)
  rw [membersItem, hmap, Option.map_some]

theorem memberOfItem_list (h : 0 ≤ m.time) :
    memberOfItem (.list [.str m.address.bytes, .ofNat m.time.toNat]) = some m := by
  have haddr : addressOfItem (.str m.address.bytes) = some m.address := by
    simp only [addressOfItem, Item.bytes?_str, Option.bind_some, dif_pos m.address.length_eq]
  simp only [memberOfItem, haddr, Item.nat?_ofNat, some_bind, Int.toNat_of_nonneg h]

/-- **The encoding of a list is read back.** -/
theorem getMembers_put {it : Item} (hit : membersItem ms = some it)
    (hfits : (Rlp.encode it).length < 2 ^ 64) (hdb : db.get key = some (Rlp.encode it)) :
    getMembers db key = ms := by
  have htimely : Timely ms := by
    by_contra hneg
    rw [membersItem_eq_none hneg] at hit
    cases hit
  rw [membersItem_of_timely htimely, Option.some.injEq] at hit
  have hread : (ms.map fun m => Item.list [.str m.address.bytes, .ofNat m.time.toNat]).mapM
      memberOfItem = some ms := by
    rw [mapM_eq_some_iff, List.forall₂_map_left_iff]
    exact List.forall₂_same.mpr fun m hm => memberOfItem_list (htimely m hm)
  obtain ⟨b, bs, hbytes⟩ := List.exists_cons_of_length_pos (length_encode_pos it)
  have hdec := decode_encode hfits
  rw [hbytes] at hdec hdb
  rw [getMembers, hdb]
  simp only [hdec, ← hit, Option.bind_some, Item.elems?_list, hread, Option.getD_some]

/-- Only members without negative times are ever read. -/
theorem timely_getMembers (db : Db) (key : Bytes) : Timely (getMembers db key) := by
  intro m hm
  unfold getMembers at hm
  split at hm
  · next b bs _ =>
    cases hread : ((Rlp.decode (b :: bs)).bind Item.elems?).bind fun xs => xs.mapM memberOfItem with
    | none =>
      rw [hread] at hm
      exact absurd hm List.not_mem_nil
    | some ms =>
      rw [hread, Option.getD_some] at hm
      obtain ⟨xs, -, hxs⟩ := Option.bind_eq_some_iff.mp hread
      obtain ⟨x, -, hx⟩ := (mem_of_mapM_eq_some hxs).2 m hm
      unfold memberOfItem at hx
      split at hx
      · simp only [bind_eq_some, Option.some.injEq] at hx
        obtain ⟨_, -, n, -, rfl⟩ := hx
        exact Int.natCast_nonneg n
      · cases hx
  · exact absurd hm List.not_mem_nil

theorem getMembers_congr {db' : Db} (h : db'.get key = db.get key) :
    getMembers db' key = getMembers db key := by
  rw [getMembers, h, getMembers]

/-- **What a key holds after a write**: the list, unless it cannot be encoded. -/
theorem getMembers_writeMembers (hfits : Fits ms) (db : Db) (key : Bytes) :
    getMembers (writeMembers db key ms) key = if Timely ms then ms else getMembers db key := by
  split
  · next h =>
    obtain ⟨it, hit⟩ : ∃ it, membersItem ms = some it := ⟨_, membersItem_of_timely h⟩
    have hdb : (writeMembers db key ms).get key = some (Rlp.encode it) := by
      rw [writeMembers, hit, Db.get_put_self]
    exact getMembers_put hit (hfits it hit) hdb
  · next h => rw [writeMembers, membersItem_eq_none h]

theorem getMembers_delete (db : Db) (key : Bytes) : getMembers (db.delete key) key = [] := by
  rw [getMembers, Db.get_delete_self]

end Gocoin.ValidateGroup
