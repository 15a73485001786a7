import Gocoin.Space.Counters
import Gocoin.ValidateGroup.Distinct

/-!
# Space/Founding — the first block and the first group on two nodes

Two nodes that start from the same configuration make the same first block: the configured accounts
have no attributes, so that no order of a map shows in the roots (`currentBlock_genesisChain_eq`).
Their groups differ, since the only member gets the time of the local clock, and the hash of the
group covers that time.  The hashes agree exactly when the clocks do — or when both are before 1970,
where the time has no encoding and no group is stored (`genesis_same_iff`).
-/

namespace Gocoin

open State Trie Rlp ValidateGroup

namespace Space

namespace BlockChain

variable {P : Prims} {accounts : List AccountConfig} {now : ℤ} {ord : IterOrder}

/-! ## What is hashed -/

/-- The string whose hash is the hash of a group. -/
def groupBytes (ms : List GroupMember) : Bytes := ((membersItem ms).map Rlp.encode).getD []

theorem hash_eq_keccak (keccak : HashFn) (vg : ValidateGroup) :
    vg.hash keccak = keccak (groupBytes vg.space.groupmembers) := rfl

/-- The members of the group that a node has which initialises at a time. -/
def firstMembers (accounts : List AccountConfig) (now : ℤ) : List GroupMember :=
  if 0 ≤ now then [⟨founder accounts, now⟩] else []

variable (P) in
/-- The strings that are hashed when nodes initialise at some times: those of the commits in all
orders, the address of the only member, and the groups. -/
def hashedAtGenesis (accounts : List AccountConfig) (times : Set ℤ) : Set Bytes :=
  {b | ∃ s₀ r, blankState = .ok s₀ ∧ configureAll P Db.empty.nodes s₀ accounts = some r ∧
      b ∈ hashedByCommits P.keccak Db.empty Contents.nothing r.2} ∪
    {Rlp.encode (.str (founder accounts).bytes)} ∪
      {b | ∃ t ∈ times, b = groupBytes (firstMembers accounts t)}

/-! ## The block -/

variable {times : Set ℤ} {r : UInt64 × StateDB} {s₀ : StateDB}

/-- The roots of the configured accounts do not depend on the orders. -/
theorem roots_configured (hD : CollisionFree P.keccak (hashedAtGenesis P accounts times))
    (hs₀ : blankState = .ok s₀) (hr : configureAll P Db.empty.nodes s₀ accounts = some r)
    (ord : IterOrder) :
    (r.2.commitTo P.keccak ord Db.empty).map StateDB.Committed.roots
      = (r.2.commitTo P.keccak .plain Db.empty).map StateDB.Committed.roots := by
  obtain ⟨hgood, hno⟩ := exists_configured hs₀ hr
  by_cases hun : r.2.Unencodable
  · rw [hun.commitTo, hun.commitTo]
  · exact hgood.roots_eq_plain (hD.mono fun b hb => .inl (.inl ⟨s₀, r, hs₀, hr, hb⟩)) hun
      hno.fewAttributes ord

/-- The first block does not depend on the orders. -/
theorem toBlock_eq_plain (hD : CollisionFree P.keccak (hashedAtGenesis P accounts times))
    (ord : IterOrder) :
    (toBlock P ord Db.empty accounts).map Prod.fst
      = (toBlock P .plain Db.empty accounts).map Prod.fst := by
  unfold toBlock
  split
  · rfl
  · next s₀ hs₀ =>
    simp only [Option.bind_eq_bind]
    cases hr : configureAll P Db.empty.nodes s₀ accounts with
    | none => rfl
    | some r =>
      have hroots := roots_configured hD hs₀ hr ord
      simp only [Option.bind_some]
      cases hc : r.2.commitTo P.keccak ord Db.empty with
      | none =>
        rw [hc] at hroots
        rw [Option.map_eq_none_iff.mp hroots.symm]
      | some c =>
        rw [hc] at hroots
        obtain ⟨c', hc', heq⟩ := Option.map_eq_some_iff.mp hroots.symm
        obtain ⟨hspace, haccount⟩ := Prod.mk.inj heq
        rw [hc']
        simp only [Option.bind_some, Option.map_some, hspace, haccount]

/-- Whether a block can be written does not depend on the database. -/
theorem writeBlock_map_eq (keccak : HashFn) (db db' : Db) (b : Block) :
    (writeBlock keccak db b).map (fun _ => b) = (writeBlock keccak db' b).map fun _ => b := by
  unfold writeBlock writeBody writeHeader
  cases b.bodyItem with
  | none => rfl
  | some body =>
    cases b.header.item with
    | none => rfl
    | some head => rfl

theorem currentBlock_genesisChain (P : Prims) (ord : IterOrder) (accounts : List AccountConfig)
    (now : ℤ) : (genesisChain P ord accounts now).map currentBlock
      = ((toBlock P ord Db.empty accounts).map Prod.fst).bind fun b =>
          (writeBlock P.keccak Db.empty b).map fun _ => b := by
  unfold genesisChain
  cases toBlock P ord Db.empty accounts with
  | none => rfl
  | some r =>
    simp only [Option.bind_eq_bind, Option.bind_some, Option.map_some]
    rw [writeBlock_map_eq P.keccak Db.empty r.2.2 r.1]
    cases writeBlock P.keccak r.2.2 r.1 with
    | none => rfl
    | some db => rfl

/-- **Every node makes the same first block**, whatever its clock says. -/
theorem currentBlock_genesisChain_eq
    (hD : CollisionFree P.keccak (hashedAtGenesis P accounts times)) (ord₁ ord₂ : IterOrder)
    (t₁ t₂ : ℤ) : (genesisChain P ord₁ accounts t₁).map currentBlock
      = (genesisChain P ord₂ accounts t₂).map currentBlock := by
  rw [currentBlock_genesisChain, currentBlock_genesisChain, toBlock_eq_plain hD ord₁,
    toBlock_eq_plain hD ord₂]

/-! ## The group -/

theorem timely_firstMembers (accounts : List AccountConfig) (now : ℤ) :
    Timely (firstMembers accounts now) := by
  unfold firstMembers
  split
  · next h => exact fun m hm => by rwa [List.mem_singleton.mp hm]
  · exact timely_nil

theorem length_encode_member_lt (a : Address) {t : ℕ} (ht : t < 2 ^ 64) :
    (Rlp.encode (.list [.list [.str a.bytes, .ofNat t]])).length < 2 ^ 64 := by
  have haddr : (Rlp.encode (.str a.bytes)).length ≤ 29 := by
    have h := Rlp.length_encodeString_le (b := a.bytes) (by rw [a.length_eq]; norm_num)
    rw [a.length_eq] at h
    exact h
  have htime := Rlp.length_encode_ofNat_le ht
  have hitems : (Rlp.encodeItems [.str a.bytes, .ofNat t]).length ≤ 46 := by
    simp only [Rlp.encodeItems, List.length_append, List.length_nil]
    omega
  have hinner := Rlp.length_encode_list_le (hitems.trans_lt (by norm_num))
  have houter : (Rlp.encodeItems [.list [.str a.bytes, .ofNat t]]).length ≤ 55 := by
    simp only [Rlp.encodeItems, List.length_append, List.length_nil]
    omega
  have hlist := Rlp.length_encode_list_le (houter.trans_lt (by norm_num))
  omega

theorem fits_member (a : Address) {now : ℤ} (hnow : now < 2 ^ 63) : Fits [⟨a, now⟩] := by
  intro it hit
  by_cases h : 0 ≤ now
  · rw [membersItem_of_timely fun m hm => by rwa [List.mem_singleton.mp hm]] at hit
    cases hit
    exact length_encode_member_lt a (t := now.toNat) (by omega)
  · rw [membersItem_eq_none fun ht => h (ht _ List.mem_cons_self)] at hit
    cases hit

/-- **The first member of an empty group** is stored under the hash of its address, unless its time
has no encoding. -/
theorem getMembers_resetInit_add (hsort : P.Sorts) (vg : ValidateGroup)
    (db : Db) {m : GroupMember} (hmembers : vg.space.groupmembers = [])
    (hnew : vg.space.newgroupmembers = []) (hseen : vg.space.membersAddress = [])
    {hash : Hash} (hhash : hash = rlpHash P.keccak (some (.str m.address.bytes)))
    (habsent : getMembers db hash.bytes = []) (hfits : Fits [m]) :
    getMembers ((vg.add db m).1.resetInit P (vg.add db m).2 hash).2 hash.bytes
      = if Timely [m] then [m] else [] := by
  have hadd : vg.space.add db groupMembersKey m
      = ({ vg.space with newgroupmembers := [m], membersAddress := [m.address] },
          writeMembers db groupMembersKey [m]) := by
    simp only [MemberGroup.add, addMember, hnew, hseen, List.not_mem_nil, if_false,
      List.getLast?_nil, List.nil_append]
  have hsorted : P.sortByTime [m] = [m] := (hsort [m]).eq_singleton
  have hdb : getMembers ((writeMembers db groupMembersKey [m]).delete groupMembersKey) hash.bytes
      = [] := by
    refine Eq.trans (getMembers_congr ?_) habsent
    exact ((writeMembers_sameOff (Set.mem_singleton groupMembersKey) db [m]).trans
      (Db.sameOff_delete (Set.mem_singleton groupMembersKey) _)) hash.bytes
        fun h => absurd (h ▸ hash.length_eq) (by decide)
  simp only [ValidateGroup.add, hadd, resetInit, ne_eq, List.cons_ne_self, not_false_eq_true,
    if_true, hmembers, List.nil_append, hsorted, List.head?_cons, Option.map_some, ← hhash,
    writeGroupConst]
  rw [getMembers_writeMembers hfits, hdb]

/-- No string of the first block lies under the hash of the founder. -/
theorem nodes_founder_eq_none (hD : CollisionFree P.keccak (hashedAtGenesis P accounts times))
    {c : StateDB.Committed} (hs₀ : blankState = .ok s₀)
    (hr : configureAll P Db.empty.nodes s₀ accounts = some r)
    (hc : r.2.commitTo P.keccak ord Db.empty = some c) :
    c.db.nodes (P.keccak (Rlp.encode (.str (founder accounts).bytes))) = none := by
  obtain ⟨hgood, -⟩ := exists_configured hs₀ hr
  obtain ⟨es, as, hes, has⟩ := exists_entries hc
  set D := nodesOf P.keccak (writeAll P.keccak Contents.nothing.space es) ∪
    nodesOf P.keccak (writeAll P.keccak Contents.nothing.account as) with hDdef
  have hsub : D ⊆ hashedAtGenesis P accounts times := by
    rintro e (he | he)
    · exact .inl (.inl ⟨s₀, r, hs₀, hr, .inr ⟨ord, .inl ⟨es, hes, he⟩⟩⟩)
    · exact .inl (.inl ⟨s₀, r, hs₀, hr, .inr ⟨ord, .inr ⟨as, has, he⟩⟩⟩)
  obtain ⟨c', hc', -, -, -, -, -, -, -, -, -, -, -, hgrows⟩ :=
    hgood.exists_commitTo (hD.mono hsub) (by rintro e ⟨⟩) hes has Set.subset_union_left
      Set.subset_union_right
  obtain rfl : c = c' := Option.some.inj (hc.symm.trans hc')
  cases hget : c.db.nodes (P.keccak (Rlp.encode (.str (founder accounts).bytes))) with
  | none => rfl
  | some v =>
    obtain hold | ⟨hkey, hv⟩ := hgrows _ v hget
    · cases hold
    · have heq := hD.injOn (.inl (.inr rfl)) (hsub hv) hkey
      rcases hv with hv | hv
      · exact absurd heq.symm (ne_encode_address hv _)
      · exact absurd heq.symm (ne_encode_address hv _)

/-- **The group of a node** that initialises at a time: the founder with that time. -/
theorem exists_group_genesisChain (hsort : P.Sorts)
    (hD : CollisionFree P.keccak (hashedAtGenesis P accounts times)) (hnow : now < 2 ^ 63)
    {bc : BlockChain} (h : genesisChain P ord accounts now = some bc) :
    ∃ vg, bc.validateGroup = some vg ∧ vg.space.groupmembers = firstMembers accounts now := by
  obtain ⟨s₀, r, c, db, hf⟩ := exists_founded h
  obtain ⟨d, hwrite, hdb⟩ := hf.written
  obtain ⟨vg, db', hadd, hstored⟩ := hf.stored
  set hash := bc.currentBlock.header.consensusGroupHash with hhash
  have hoff : ∀ k : Bytes, k.length = 16 ∨ k.length = 32 → db.get k = c.db.get k := fun k hk => by
    rw [hdb]
    exact writeFirst_sameOff hwrite _ k fun hne => hk.elim hne.1 hne.2
  have hkey : ∀ k : Bytes, k.length = 16 → getMembers db k = [] := fun k hk => by
    rw [← getMembers_empty k]
    refine getMembers_congr ((hoff k (.inl hk)).trans (commitTo_sameOff hf.committed k ?_))
    rintro (hk' | hk')
    · exact absurd (hk.symm.trans hk') (by decide)
    · obtain ⟨x, rfl⟩ := hk'
      simp [SecureTrie.secKey, FixedBytes.length_eq] at hk
  have habsent : getMembers db hash.bytes = [] := by
    have hnode := nodes_founder_eq_none hD hf.opened hf.configured hf.committed
    rw [← getMembers_empty hash.bytes]
    refine getMembers_congr ((hoff hash.bytes (.inr hash.length_eq)).trans ?_)
    rw [hhash, hf.groupHash]
    exact hnode
  have hnil : P.sortByTime [] = [] := (hsort []).eq_nil
  have hgroup : getMembers bc.db hash.bytes = firstMembers accounts now := by
    have hm := getMembers_resetInit_add hsort (newValidateGroup P db hash) db
      (m := ⟨founder accounts, now⟩) (by simp [newValidateGroup, newMemberGroup, habsent, hnil])
      (hkey _ rfl)
      (by simp [newValidateGroup, newMemberGroup, habsent, hnil, hkey groupMembersKey rfl,
        hkey thresholdMembersKey rfl])
      hf.groupHash habsent (fits_member _ hnow)
    rw [hadd, hstored] at hm
    rw [hm]
    simp [Timely, firstMembers]
  refine ⟨_, hf.group, ?_⟩
  show P.sortByTime (getMembers bc.db hash.bytes) = _
  rw [hgroup]
  unfold firstMembers
  split
  · exact (hsort _).eq_singleton
  · exact hnil

/-- **The hash of a first group** tells the times apart, but for those before 1970. -/
theorem groupBytes_firstMembers_eq_iff {t₁ t₂ : ℤ} (h₁ : t₁ < 2 ^ 63) :
    groupBytes (firstMembers accounts t₁) = groupBytes (firstMembers accounts t₂) ↔
      t₁ = t₂ ∨ t₁ < 0 ∧ t₂ < 0 := by
  have hitem : ∀ t, groupBytes (firstMembers accounts t) = Rlp.encode (if 0 ≤ t then
      .list [.list [.str (founder accounts).bytes, .ofNat t.toNat]] else .list []) := fun t => by
    rw [groupBytes, membersItem_of_timely (timely_firstMembers accounts t), firstMembers]
    split <;> rfl
  have hlen : (Rlp.encode (if 0 ≤ t₁ then .list [.list [.str (founder accounts).bytes,
      .ofNat t₁.toNat]] else .list [])).length < 2 ^ 64 := by
    split
    · exact length_encode_member_lt _ (by omega)
    · decide
  rw [hitem, hitem]
  constructor
  · intro h
    have h := Rlp.encode_injective hlen h
    split at h <;> split at h
    · simp only [Item.list.injEq, List.cons.injEq, and_true, true_and] at h
      have := Item.ofNat_injective h
      omega
    · cases h
    · cases h
    · omega
  · rintro (rfl | ⟨hneg₁, hneg₂⟩)
    · rfl
    · rw [if_neg (by omega), if_neg (by omega)]

/-! ## Two nodes -/

/-- **Two nodes with one configuration** make the same first block, whatever their clocks say; the
hashes of their groups, and of the groups in the blocks they build on it, agree exactly when the
clocks do or both are before 1970. -/
theorem genesis_same_iff (hsort : P.Sorts) {t₁ t₂ : ℤ} (h₁ : t₁ < 2 ^ 63)
    (h₂ : t₂ < 2 ^ 63) (hD : CollisionFree P.keccak (hashedAtGenesis P accounts {t₁, t₂}))
    (ord₁ ord₂ : IterOrder) :
    (genesisChain P ord₁ accounts t₁).map currentBlock
        = (genesisChain P ord₂ accounts t₂).map currentBlock ∧
      ∀ bc₁ bc₂, genesisChain P ord₁ accounts t₁ = some bc₁ →
        genesisChain P ord₂ accounts t₂ = some bc₂ →
        bc₁.currentBlock.hash P.keccak = bc₂.currentBlock.hash P.keccak ∧
        ∃ vg₁ vg₂, bc₁.validateGroup = some vg₁ ∧ bc₂.validateGroup = some vg₂ ∧
          (vg₁.hash P.keccak = vg₂.hash P.keccak ↔ t₁ = t₂ ∨ t₁ < 0 ∧ t₂ < 0) ∧
          ∀ ord who txs b bc ord' who' txs' b' bc',
            buildBlock P ord bc₁ who txs = some (some b, bc) →
            buildBlock P ord' bc₂ who' txs' = some (some b', bc') →
            (b.header.consensusGroupHash = b'.header.consensusGroupHash ↔
              t₁ = t₂ ∨ t₁ < 0 ∧ t₂ < 0) := by
  have hblock := currentBlock_genesisChain_eq hD ord₁ ord₂ t₁ t₂
  refine ⟨hblock, fun bc₁ bc₂ hbc₁ hbc₂ => ?_⟩
  rw [hbc₁, hbc₂] at hblock
  obtain ⟨vg₁, hvg₁, hm₁⟩ := exists_group_genesisChain hsort hD h₁ hbc₁
  obtain ⟨vg₂, hvg₂, hm₂⟩ := exists_group_genesisChain hsort hD h₂ hbc₂
  have hhash : vg₁.hash P.keccak = vg₂.hash P.keccak ↔ t₁ = t₂ ∨ t₁ < 0 ∧ t₂ < 0 := by
    rw [hash_eq_keccak, hash_eq_keccak, hm₁, hm₂, ← groupBytes_firstMembers_eq_iff h₁]
    exact hD.injOn.eq_iff (.inr ⟨t₁, .inl rfl, rfl⟩) (.inr ⟨t₂, .inr rfl, rfl⟩)
  refine ⟨congrArg _ (Option.some.inj hblock), vg₁, vg₂, hvg₁, hvg₂, hhash, ?_⟩
  intro ord who txs b bc ord' who' txs' b' bc' hb hb'
  obtain ⟨_, _, v, -, hv, -, -, -, -, hg⟩ := buildBlock_cases P hb
  obtain ⟨_, _, v', -, hv', -, -, -, -, hg'⟩ := buildBlock_cases P hb'
  obtain rfl := Option.some.inj (hvg₁.symm.trans hv)
  obtain rfl := Option.some.inj (hvg₂.symm.trans hv')
  rw [hg, hg', hhash]

end BlockChain

end Space

namespace Sample

open Space BlockChain

/-- What the small chain hashes at two times has no collisions. -/
theorem collisionFree_hashedAtGenesis : CollisionFree keccak
    (hashedAtGenesis prims (oneAccount (address 1)) {5, 6}) := by
  have hshort : ∀ s₀ ∈ blankState.toOption,
    ∀ r ∈ configureAll prims Db.empty.nodes s₀ (oneAccount (address 1)),
        r.2.spaceObjectsDirty.all fun i =>
          decide (∀ obj ∈ r.2.spaceObjects i, (BigEndian.toBytes obj.id).length ≤ 31) := by
    decide +kernel
  refine collisionFree_firstNodes.mono ?_
  rintro e ((⟨s₀, r, hs₀, hr, ((he | ⟨a, rfl⟩) | ⟨i, hi, obj, hobj, rfl⟩) | ⟨ord, he⟩⟩ | rfl) |
    ⟨t, rfl | rfl, rfl⟩)
  · cases he
  · exact .inl (by simp [a.length_eq])
  · have hall := hshort s₀ (by rw [hs₀]; rfl) r hr
    exact .inl (of_decide_eq_true (List.all_eq_true.mp hall i hi) obj hobj)
  · exact .inr (committedNodes_first ord s₀ r hs₀ hr he)
  · exact .inl (by show List.length _ ≤ 31; decide)
  · exact .inl (by show List.length _ ≤ 31; decide)
  · exact .inl (by show List.length _ ≤ 31; decide)

/-- Two nodes that initialise the small chain at two times, and the blocks they build. -/
theorem genesis_same_iff_small :
    ∃ bc₁ ∈ chainAt 5,
    ∃ bc₂ ∈ chainAt 6,
    ∃ r₁ ∈ buildBlock prims .plain bc₁ firstProposer [epochEnd], ∃ b₁ ∈ r₁.1,
    ∃ r₂ ∈ buildBlock prims .plain bc₂ firstProposer [epochEnd], ∃ b₂ ∈ r₂.1,
      bc₁.currentBlock.hash keccak = bc₂.currentBlock.hash keccak ∧
      (b₁.header.consensusGroupHash = b₂.header.consensusGroupHash ↔
        (5 : ℤ) = 6 ∨ (5 : ℤ) < 0 ∧ (6 : ℤ) < 0) := by
  have hrun : ∃ bc₁ ∈ chainAt 5, ∃ bc₂ ∈ chainAt 6,
      ∃ r₁ ∈ buildBlock prims .plain bc₁ firstProposer [epochEnd], ∃ b₁ ∈ r₁.1,
      ∃ r₂ ∈ buildBlock prims .plain bc₂ firstProposer [epochEnd], ∃ b₂ ∈ r₂.1, True := by
    decide +kernel
  obtain ⟨bc₁, hbc₁, bc₂, hbc₂, ⟨_, c₁⟩, hr₁, b₁, hb₁, ⟨_, c₂⟩, hr₂, b₂, hb₂, -⟩ := hrun
  obtain rfl := Option.mem_def.mp hb₁
  obtain rfl := Option.mem_def.mp hb₂
  obtain ⟨-, hall⟩ := genesis_same_iff sorts_prims (show (5 : ℤ) < 2 ^ 63 by norm_num)
    (show (6 : ℤ) < 2 ^ 63 by norm_num) collisionFree_hashedAtGenesis .plain .plain
  obtain ⟨hhash, vg₁, vg₂, -, -, -, hbuilt⟩ := hall bc₁ bc₂ hbc₁ hbc₂
  exact ⟨bc₁, hbc₁, bc₂, hbc₂, _, hr₁, b₁, rfl, _, hr₂, b₂, rfl, hhash,
    hbuilt _ _ _ _ _ _ _ _ _ _ hr₁ hr₂⟩

/-- Two nodes that initialise the small chain one nanosecond apart have the same first block, but
groups with different hashes, and the blocks they build carry these. -/
theorem clock_changes_group_hash :
    ∃ bc₁ ∈ chainAt 5,
    ∃ bc₂ ∈ chainAt 6,
    ∃ vg₁ ∈ bc₁.validateGroup, ∃ vg₂ ∈ bc₂.validateGroup,
    ∃ r₁ ∈ buildBlock prims .plain bc₁ firstProposer [epochEnd], ∃ b₁ ∈ r₁.1,
    ∃ r₂ ∈ buildBlock prims .plain bc₂ firstProposer [epochEnd], ∃ b₂ ∈ r₂.1,
      bc₁.currentBlock.hash keccak = bc₂.currentBlock.hash keccak ∧
      vg₁.hash keccak ≠ vg₂.hash keccak ∧
      b₁.header.consensusGroupHash ≠ b₂.header.consensusGroupHash := by
  decide +kernel

end Sample

end Gocoin
