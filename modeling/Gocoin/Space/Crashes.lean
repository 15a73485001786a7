import Gocoin.Protocol.Wire
import Gocoin.Space.Authority
import Gocoin.Space.Keyholders
import Gocoin.Space.Roots
import Gocoin.Space.TxPool

/-!
# Space/Crashes — what a peer can crash

A peer sends byte strings.  Those that decode to a transaction reach `TxPool.add`, those that decode
to a header and a body reach `validateBlock`, `BlockSigerVerifier` and `Insert`; over a head whose
state is stored, the ones that crash are exactly (`decoded_data_crashes_iff`):

* a transaction that is admitted without a payload, and a settlement report whose payload is shorter
  than its type and a key;
* a signed header without key, or with an empty group key;
* a block with a transaction that crashes of itself — no payload, or no recipient where the type
  needs one — once it comes to be executed.

What is set aside is in `Storable`: the state that a block leaves can be encoded, and the strings
that are hashed do not collide.
-/

namespace Gocoin

open State Trie ValidateGroup Fold

/-! ## What was decoded can be encoded -/

theorem Tx.length_toBytes_of_valid {v : UInt8} {r s : ℕ}
    (h : validateSignatureValues v r s = true) :
    (BigEndian.toBytes r).length ≤ 32 ∧ (BigEndian.toBytes s).length ≤ 32 := by
  have hN : secp256k1N < 256 ^ 32 := by norm_num [secp256k1N]
  simp only [validateSignatureValues, Bool.and_eq_true, decide_eq_true_eq] at h
  exact ⟨BigEndian.length_toBytes_le (h.1.1.2.trans hN), BigEndian.length_toBytes_le
    (h.1.2.trans hN)⟩

theorem Header.gasUsed_nonneg_of_ofItem (it : Rlp.Item) :
    ∀ h, Header.ofItem it = some h → 0 ≤ h.gasUsed := by
  have hfield : ∀ {α : Type} {x : Option α} {f : α → Option Header},
      (∀ a h, f a = some h → 0 ≤ h.gasUsed) → ∀ h, x >>= f = some h → 0 ≤ h.gasUsed :=
    fun hf h hx => by
      obtain ⟨a, -, ha⟩ := Option.bind_eq_some_iff.mp hx
      exact hf a h ha
  unfold Header.ofItem
  split
  · iterate 20 refine hfield fun _ => ?_
    rintro h ⟨⟩
    exact Int.natCast_nonneg _
  · rintro h ⟨⟩

theorem Header.exists_item_of_decode {bytes : Bytes} {h : Header}
    (hdec : decodeBytes Header.decode bytes = .ok h) : ∃ it, h.item = some it := by
  obtain ⟨it, -, hit⟩ := exists_item_of_decodeBytes Header.reads_decode hdec
  exact Header.exists_item (Header.gasUsed_nonneg_of_ofItem it h hit)

theorem exists_bodyItem_of_decode {bytes extraData : Bytes} {txs : List Tx}
    (hdec : decodeBytes decodeBody bytes = .ok (txs, extraData)) (header : Header) :
    ∃ it, (⟨header, txs, extraData⟩ : Block).bodyItem = some it := by
  obtain ⟨it, -, hit⟩ := exists_item_of_decodeBytes reads_body hdec
  unfold bodyOfItem at hit
  split at hit
  · simp only [bind_eq_some, Option.some.injEq, Prod.mk.injEq] at hit
    obtain ⟨its, -, txs', hmap, _, -, rfl, -⟩ := hit
    have hitems : ∀ tx ∈ txs', ∃ it, tx.item = some it := fun tx htx => by
      obtain ⟨it, -, hit⟩ := (mem_of_mapM_eq_some hmap).2 tx htx
      obtain ⟨_, _, _, -, -, hitem⟩ := Tx.item_of_ofItem hit
      exact ⟨_, hitem⟩
    obtain ⟨its', hits'⟩ := exists_mapM_of_forall hitems
    exact ⟨_, by rw [Block.bodyItem, hits']; rfl⟩
  · cases hit

namespace Space

/-! ## The pool -/

section

variable {P : Prims} {D : Set Bytes} {bc : BlockChain} {C : Contents}

/-- Over a stored state `validateTx` returns. -/
theorem BlockChain.Holds.exists_validateTx (h : bc.Holds P D C) (tx : Tx) :
    ∃ r, TxPool.validateTx P bc.db bc.currentBlock tx = some r := by
  obtain ⟨s, (hs : stateAt _ _ = _), hgood, -⟩ := exists_new h.space h.account fun _ => True
  unfold TxPool.validateTx
  split
  · exact ⟨_, rfl⟩
  split
  · exact ⟨_, rfl⟩
  split
  · exact ⟨_, rfl⟩
  cases tx.sender P with
  | none => exact ⟨_, rfl⟩
  | some sender =>
    obtain ⟨s', hget, -⟩ := Good.exists_getAccountObject hgood sender
    simp only [hs, hget, some_bind]
    cases s.accountAt P.keccak C sender with
    | failed | absent | found => exact ⟨_, rfl⟩

/-- **`add` crashes on the transactions that it admits without a payload**, and on no others. -/
theorem BlockChain.Holds.add_eq_none_iff (h : bc.Holds P D C) (pool : TxPool) (tx : Tx) :
    TxPool.add P bc.db bc.currentBlock pool tx = none ↔
      pool.all.lookup (tx.hash P) = none ∧
        (∃ sender, TxPool.validateTx P bc.db bc.currentBlock tx = some (.ok sender)) ∧
        tx.payload = [] := by
  obtain ⟨r, hr⟩ := h.exists_validateTx tx
  unfold TxPool.add
  cases hknown : pool.all.lookup (tx.hash P) with
  | some _ => simp
  | none =>
    rw [hr]
    cases r with
    | error e => simp
    | ok sender =>
      cases hpay : tx.payload with
      | nil => simp [Tx.ptype, hpay]
      | cons x rest =>
        simp only [Tx.ptype, hpay, List.head?_cons, Option.map_some, some_bind, reduceCtorEq,
          and_false, iff_false]
        split
        · next h => simp at h
        · split <;> simp

/-- **The download crashes on the payloads that are too short** for a key behind the type, and on
the files whose decoding makes a slice that cannot be allocated. -/
theorem TxPool.downLoadTx_eq_none_iff (fetch : Bytes → Option Bytes) (bc : BlockChain)
    (pool : TxPool) (tx : Tx) :
    TxPool.downLoadTx P fetch bc pool tx = none ↔ tx.payload.length < 47 ∨
      ∃ report file, fetch ((tx.payload.drop 1).take 46) = some report ∧
        fetch (tx.payload.drop 47) = some file ∧ TxPool.reportSigns P file = none := by
  unfold TxPool.downLoadTx
  by_cases hlen : tx.payload.length < 1 + 46
  · rw [if_pos hlen]
    exact iff_of_true rfl (.inl hlen)
  rw [if_neg hlen, or_iff_right hlen]
  cases fetch ((tx.payload.drop 1).take 46) with
  | none => simp
  | some report =>
    cases fetch (tx.payload.drop (1 + 46)) with
    | none => simp
    | some file =>
      simp only [Option.bind_eq_bind, Option.bind_eq_none_iff]
      constructor
      · intro h
        refine ⟨report, file, rfl, rfl, Option.eq_none_iff_forall_ne_some.mpr fun signs hs => ?_⟩
        have := h signs hs
        split at this <;> cases this
      · rintro ⟨_, _, -, ⟨⟩, hnone⟩ signs hs
        rw [hnone] at hs
        cases hs

end

namespace BlockChain

variable {P : Prims} {D : Set Bytes} {bc : BlockChain} {C : Contents} {b : Block}

/-! ## Processing -/

/-- Every other list of transactions is applied, and leaves a good state. -/
theorem Healthy.exists_applyAll {get : Nodes} {env : Surroundings}
    (hdb : env.db.nodes = get) {acc : Totals} (h : Healthy P get C acc.state)
    {txs : List Tx} (htxs : ∀ tx ∈ txs, ¬ tx.Crashes) :
    ∃ env' acc', applyAll P env acc txs = some (env', acc') ∧ Healthy P get C acc'.state := by
  induction txs generalizing env acc with
  | nil => exact ⟨env, acc, rfl, h⟩
  | cons tx txs ih =>
    obtain ⟨acc₁, hacc₁, hdid⟩ := h.exists_validateTransaction hdb (htxs tx List.mem_cons_self)
    obtain ⟨env', acc', happly, h'⟩ := ih ((nodes_sideEffect P env tx).trans hdb) (h.goes hdid.goes)
      fun tx' h' => htxs tx' (List.mem_cons_of_mem _ h')
    exact ⟨env', acc', by rw [applyAll_cons, hacc₁, Option.bind_some, happly], h'⟩

theorem exists_announce (gid : ℕ) (g : MemberGroup) (number : UInt64) :
    ∃ evs, announce P gid g number = some evs := by
  unfold announce
  split
  · next hlen =>
    obtain ⟨addrs, haddrs, -⟩ := exists_selectMembers P.keccak
      (List.ne_nil_of_length_pos (Nat.lt_of_lt_of_le (by norm_num) hlen))
      (number / blockNumberLimet + 1)
    rw [MemberGroup.selectThresholds, haddrs]
    exact ⟨_, rfl⟩
  · exact ⟨_, rfl⟩

/-- The groups are reset without a crash. -/
theorem exists_resetGroups (env : Surroundings) (hash : Hash) (number : UInt64) :
    ∃ r, resetGroups P env hash number = some r := by
  unfold resetGroups
  cases env.validateGroup with
  | none => exact ⟨_, rfl⟩
  | some vg =>
    choose ev hev using fun gid g => exists_announce (P := P) gid g number
    simp only [hev, some_bind]
    exact ⟨_, rfl⟩

/-- **Processing crashes on the blocks with a crashing transaction**, and leaves a good state
otherwise. -/
theorem Holds.exists_process (h : Holds P D bc C) {s : StateDB}
    (hs : stateAt bc.db bc.currentBlock = .ok s) (htxs : ∀ tx ∈ b.transactions, ¬ tx.Crashes) :
    ∃ env s' evs, BlockChain.process P bc b s = some (env, s', evs) ∧
      Healthy P bc.db.nodes C s' := by
  obtain ⟨s₀, (hs₀ : stateAt _ _ = _), hgood, -⟩ := exists_new h.space h.account fun _ => True
  obtain rfl : s₀ = s := Except.ok.inj (hs₀.symm.trans hs)
  obtain ⟨env, acc, happly, hgood'⟩ := Healthy.exists_applyAll
    (show (⟨bc.db, bc.validateGroup⟩ : Surroundings).db.nodes = bc.db.nodes from rfl)
    (show Healthy P bc.db.nodes C (start bc.currentBlock s₀).state from hgood) htxs
  unfold BlockChain.process
  rw [happly, some_bind]
  simp only
  split
  · obtain ⟨⟨env', evs⟩, hreset⟩ :=
      exists_resetGroups (P := P) env b.header.consensusGroupHash b.numberU64
    rw [hreset]
    exact ⟨_, _, _, rfl, hgood'⟩
  · exact ⟨_, _, _, rfl, hgood'⟩

theorem process_of_crashes (h : ∃ tx ∈ b.transactions, tx.Crashes) (bc : BlockChain)
    (s : StateDB) : process P bc b s = none := by
  unfold process
  rw [applyAll_of_crashes h]
  rfl

/-! ## Committing -/

variable (P D) in
/-- A state can be encoded, and its nodes are known. -/
structure Encodes (C : Contents) (s : StateDB) : Prop where
  spaces : ∀ ord, s.spaceEntries ord ≠ none
  accounts : ∀ ord, s.accountEntries ord ≠ none
  nodes : ∀ ord, committedNodes P.keccak ord C s ⊆ D

variable (P D) in
/-- **What is set aside**: the states that a block leaves in `validateBlock` and in `Insert` can be
encoded, with known nodes, and no trie node lies where the block writes its group. -/
structure Storable (bc : BlockChain) (C : Contents) (b : Block) : Prop where
  groups : ∀ w ∈ groupWrites P bc b, w.2 ∈ D
  apart : ∀ w ∈ groupWrites P bc b, ∀ buf ∈ bc.db.nodes w.1, decodeNode none buf 0 ≠ none →
    buf = w.2
  checked : ∀ s acc, stateAt bc.db bc.currentBlock = .ok s →
    validateAll P bc.db (start bc.currentBlock s) b.transactions = some acc →
    Encodes P D C acc.state
  processed : ∀ s env s' evs, stateAt bc.db bc.currentBlock = .ok s →
    process P bc b s = some (env, s', evs) → Encodes P D C s'

/-- A good state that can be encoded is committed. -/
theorem Encodes.exists_commitTo (hD : CollisionFree P.keccak D) {db : Db} {s : StateDB}
    (h : Encodes P D C s) (hdb : storedNodes P.keccak db ⊆ D) (hgood : Healthy P db.nodes C s)
    (ord : IterOrder) : ∃ c, s.commitTo P.keccak ord db = some c := by
  obtain ⟨es, hes⟩ := Option.ne_none_iff_exists'.mp (h.spaces ord)
  obtain ⟨as, has⟩ := Option.ne_none_iff_exists'.mp (h.accounts ord)
  obtain ⟨c, hc, -⟩ := hgood.exists_commitTo hD hdb hes has
    (fun e he => h.nodes ord (.inl ⟨es, hes, he⟩)) fun e he => h.nodes ord (.inr ⟨as, has, he⟩)
  exact ⟨c, hc⟩

/-! ## Blocks -/

/-- **`validateBlock` crashes on the children of the head with a crashing transaction**, and on no
other block. -/
theorem Holds.validateBlock_eq_none_iff (hD : CollisionFree P.keccak D) (h : Holds P D bc C)
    (hb : Storable P D bc C b) (ord : IterOrder) :
    validateBlock P ord bc.db bc.currentBlock b = none ↔
      b.header.uncleHash = bc.currentBlock.hash P.keccak ∧
        bc.currentBlock.numberU64 < b.numberU64 ∧ ∃ tx ∈ b.transactions, tx.Crashes := by
  obtain ⟨s, (hs : stateAt _ _ = _), hgood, -, haccounts, -⟩ :=
    exists_new h.space h.account fun _ => True
  unfold validateBlock
  split
  · next hskip =>
    refine iff_of_false (Option.some_ne_none _) ?_
    rintro ⟨huncle, hnumber, -⟩
    exact hskip.elim (fun hne => hne huncle) fun hle => absurd hnumber (UInt64.not_lt.mpr hle)
  · next hskip =>
    push Not at hskip
    rw [and_iff_right hskip.1, and_iff_right (UInt64.not_le.mp hskip.2)]
    unfold replay
    simp only [hs]
    by_cases htxs : ∃ tx ∈ b.transactions, tx.Crashes
    · rw [validateAll_of_crashes htxs]
      exact iff_of_true rfl htxs
    · refine iff_of_false ?_ htxs
      push Not at htxs
      have hu : Unbroken P C s := fun addr _ => congrFun haccounts addr
      obtain ⟨acc, hacc, hgoes, -⟩ := Healthy.exists_validateAll rfl
        (show Healthy P bc.db.nodes C (start bc.currentBlock s).state from hgood) hu htxs
      obtain ⟨c, hc⟩ := (hb.checked s acc hs hacc).exists_commitTo hD h.stored
        (Healthy.goes hgood hgoes) ord
      simp [hacc, hc]

/-- **`Insert` crashes in the verifier, or on a block that it executes** with a crashing
transaction. -/
theorem Holds.insert_eq_none_iff (hD : CollisionFree P.keccak D) (h : Holds P D bc C)
    (hb : Storable P D bc C b) (hhead : ∃ it, b.header.item = some it)
    (hbody : ∃ it, b.bodyItem = some it) (ord : IterOrder) :
    BlockChain.insert P ord bc b = none ↔ blockSigerVerifier P b = none ∨
      blockSigerVerifier P b = some true ∧ b.numberU64 ≠ bc.currentBlock.numberU64 ∧
        getCanonicalHash bc.db b.numberU64 ≠ b.hash P.keccak ∧
        ∃ tx ∈ b.transactions, tx.Crashes := by
  obtain ⟨s, (hs : stateAt _ _ = _), -⟩ := exists_new h.space h.account fun _ => True
  have hins : insertHead P ord bc b = none ↔ ∃ tx ∈ b.transactions, tx.Crashes := by
    unfold insertHead
    simp only [hs]
    by_cases htxs : ∃ tx ∈ b.transactions, tx.Crashes
    · rw [process_of_crashes htxs]
      exact iff_of_true rfl htxs
    · refine iff_of_false ?_ htxs
      push Not at htxs
      obtain ⟨env, s', evs, hp, hgood⟩ := h.exists_process hs htxs
      have hover := overwrites_process P hp
      obtain ⟨c, hc⟩ := (hb.processed s env s' evs hs hp).exists_commitTo hD
        (storedNodes_groupWrites hb.groups hover h.stored)
        (hgood.monoOn (keepsOn_groupWrites hb.apart hover h.space)
          (keepsOn_groupWrites hb.apart hover h.account)) ord
      obtain ⟨head, hhead⟩ := hhead
      obtain ⟨body, hbody⟩ := hbody
      simp [hp, hc, writeHead, writeBlock, writeBody, writeHeader, hhead, hbody]
  unfold BlockChain.insert
  cases hv : blockSigerVerifier P b with
  | none => simp
  | some ok =>
    cases ok with
    | false => simp
    | true =>
      by_cases hnumber : b.numberU64 = bc.currentBlock.numberU64
      · simp [hnumber]
      · by_cases hcanon : getCanonicalHash bc.db b.numberU64 = b.hash P.keccak
        · simp [hnumber, hcanon]
        · simp [hnumber, hcanon, hins]

/-- **What crashes a node, of the data that decodes.**  Over a head whose state is stored: of the
transactions, those that are admitted without a payload crash `add`, and those with a payload below
47 bytes, or with a file of signatures that declares more than can be allocated, crash the download
of a report; of the headers and bodies, a signed header without key crashes the verifier and
`Insert`, and a crashing transaction crashes `validateBlock` in a child of the head and `Insert` in
a block that is executed.  On all others these functions return. -/
theorem decoded_data_crashes_iff (hD : CollisionFree P.keccak D) (h : Holds P D bc C) :
    (∀ bytes tx, decodeBytes Tx.decodeRLP bytes = .ok tx →
      (∀ pool, TxPool.add P bc.db bc.currentBlock pool tx = none ↔
        pool.all.lookup (tx.hash P) = none ∧
          (∃ sender, TxPool.validateTx P bc.db bc.currentBlock tx = some (.ok sender)) ∧
          tx.payload = []) ∧
      (∀ fetch pool, TxPool.downLoadTx P fetch bc pool tx = none ↔ tx.payload.length < 47 ∨
        ∃ report file, fetch ((tx.payload.drop 1).take 46) = some report ∧
          fetch (tx.payload.drop 47) = some file ∧ TxPool.reportSigns P file = none) ∧
      ∀ v, Tx.validateSignatureValues v tx.r tx.s = true →
        (BigEndian.toBytes tx.r).length ≤ 32 ∧ (BigEndian.toBytes tx.s).length ≤ 32) ∧
    ∀ head body header txs extraData, decodeBytes Header.decode head = .ok header →
      decodeBytes decodeBody body = .ok (txs, extraData) →
      Storable P D bc C ⟨header, txs, extraData⟩ → ∀ ord,
      (blockSigerVerifier P ⟨header, txs, extraData⟩ = none ↔
        header.sign ≠ [] ∧ (header.pk = [] ∨ header.pk = [2])) ∧
      (validateBlock P ord bc.db bc.currentBlock ⟨header, txs, extraData⟩ = none ↔
        header.uncleHash = bc.currentBlock.hash P.keccak ∧
          bc.currentBlock.numberU64 < u64 header.number ∧ ∃ tx ∈ txs, tx.Crashes) ∧
      (insert P ord bc ⟨header, txs, extraData⟩ = none ↔
        blockSigerVerifier P ⟨header, txs, extraData⟩ = none ∨
          blockSigerVerifier P ⟨header, txs, extraData⟩ = some true ∧
            u64 header.number ≠ bc.currentBlock.numberU64 ∧
            getCanonicalHash bc.db (u64 header.number) ≠ header.hash P.keccak ∧
            ∃ tx ∈ txs, tx.Crashes) := by
  refine ⟨fun bytes tx _ => ⟨fun pool => h.add_eq_none_iff pool tx,
    fun fetch pool => TxPool.downLoadTx_eq_none_iff fetch bc pool tx,
    fun v hv => Tx.length_toBytes_of_valid hv⟩, ?_⟩
  intro head body header txs extraData hhead hbody hb ord
  exact ⟨blockSigerVerifier_eq_none_iff P _, h.validateBlock_eq_none_iff hD hb ord,
    h.insert_eq_none_iff hD hb (Header.exists_item_of_decode hhead)
      (exists_bodyItem_of_decode hbody header) ord⟩

/-- A state without changes is encoded as the maps of the head. -/
theorem Holds.encodes_of_clean (h : Holds P D bc C) {s : StateDB}
    (hspace : s.spaceObjectsDirty = []) (haccount : s.accountObjectsDirty = []) :
    Encodes P D C s where
  spaces := fun ord => by
    rw [StateDB.spaceEntries, hspace, List.perm_nil.mp (ord.spaces_perm [])]
    exact Option.some_ne_none _
  accounts := fun ord => by
    rw [StateDB.accountEntries, haccount, List.perm_nil.mp (ord.accounts_perm [])]
    exact Option.some_ne_none _
  nodes := fun _ => (committedNodes_of_clean hspace haccount).trans
    (Set.union_subset h.spaceNodes h.accountNodes)

theorem Holds.storable_of_nil (h : Holds P D bc C) (htxs : b.transactions = [])
    (hnumber : ¬ (b.numberU64 % epoch = 0 ∧ b.numberU64 ≠ 0)) : Storable P D bc C b := by
  have hwrites : groupWrites P bc b = [] := if_neg hnumber
  refine ⟨?_, ?_, fun s acc hs hacc => ?_, fun s env s' evs hs hp => ?_⟩
  · rw [hwrites]
    exact fun _ hw => absurd hw List.not_mem_nil
  · rw [hwrites]
    exact fun _ hw => absurd hw List.not_mem_nil
  · rw [htxs] at hacc
    cases hacc
    have hclean := StateDB.untouched_new hs
    exact h.encodes_of_clean hclean.spaceDirty hclean.accountDirty
  · unfold BlockChain.process at hp
    rw [htxs, applyAll_nil, some_bind] at hp
    simp only [hnumber, if_false] at hp
    cases hp
    have hclean := StateDB.untouched_new hs
    exact h.encodes_of_clean hclean.spaceDirty hclean.accountDirty

end BlockChain

end Space

/-! ## Crashes of the small chain -/

namespace Sample

open Space

/-- A signed transaction that costs nothing and says nothing. -/
def mute : Tx := ⟨0, none, 0, 0, [], 27, 1, 1⟩

/-- A settlement report without keys. -/
def keyless : Tx := ⟨0, none, 0, 0, [9], 27, 1, 1⟩

/-- A settlement report with its keys. -/
def keyed : Tx := ⟨0, none, 0, 0, 9 :: List.replicate 46 1, 27, 1, 1⟩

/-- A file of signatures that declares one of `2 ^ 56` bytes, and ends. -/
def hoard : Bytes :=
  [0xFF, 0x04, 0, 0, 0, 0, 0, 0, 0, 0xA0] ++ List.replicate 32 7 ++
    [0xFF, 0x02, 0, 0, 0, 0, 0, 0, 0] ++ [0xBF, 0x01, 0, 0, 0, 0, 0, 0, 0]

/-- The creation of a space for nobody. -/
def aimless : Tx := ⟨0, none, 0, 0, [1], 0, 0, 0⟩

/-- A signed child with another key. -/
def withKey (pk : Bytes) (head : Block) : Block :=
  { child head 1 [] with header := { (child head 1 []).header with pk } }

/-- A child whose accounts are stored nowhere. -/
def lost (head : Block) : Block :=
  { child head 1 [] with
    header := { (child head 1 []).header with accRoot := FixedBytes.ofBytes 32 [1] } }

/-- A header goes through its encoding. -/
def Travels (h : Header) : Prop :=
  ∃ bytes ∈ encodeToBytes h.write, decodeBytes Header.decode bytes = .ok h

instance (h : Header) : Decidable (Travels h) :=
  inferInstanceAs (Decidable (∃ bytes ∈ encodeToBytes h.write, _))

end Sample

namespace Space

namespace BlockChain

open Sample (prims chain child mute keyless keyed hoard aimless withKey lost Travels)

/-- The law applies to a transfer and to a child of the first block: none of them crashes. -/
theorem decoded_data_crashes_iff_child :
    ∃ bc ∈ chain, TxPool.add prims bc.db bc.currentBlock .empty Sample.transfer ≠ none ∧
      blockSigerVerifier prims (child bc.currentBlock 1 []) ≠ none ∧
      validateBlock prims .plain bc.db bc.currentBlock (child bc.currentBlock 1 []) ≠ none ∧
      insert prims .plain bc (child bc.currentBlock 1 []) ≠ none := by
  have hfacts : ∃ bc ∈ chain, Travels (child bc.currentBlock 1 []).header ∧
      (∀ v ∈ bc.db.nodes bc.currentBlock.header.consensusGroupHash, v.length ≤ 31) ∧
      (child bc.currentBlock 1 []).numberU64 = 1 := by
    decide +kernel
  obtain ⟨bc, hbc, ⟨head, -, hhead⟩, hgroup, hone⟩ := hfacts
  obtain ⟨body, hbody⟩ : ∃ body, decodeBytes decodeBody body = .ok ([], []) :=
    ⟨[0xC2, 0xC0, 0x80], by decide +kernel⟩
  obtain ⟨bytes, htx⟩ : ∃ bytes, decodeBytes Tx.decodeRLP bytes = .ok Sample.transfer :=
    ⟨(encodeToBytes Sample.transfer.encodeRLP).getD [], by decide +kernel⟩
  have hgenesis := Sample.genesisWithin_first hgroup
  obtain ⟨_, _, _, _, -, -, -, -, hC⟩ :=
    exists_holds_genesisChain Sample.collisionFree_firstNodes hbc hgenesis
  have hstorable := hC.storable_of_nil (b := child bc.currentBlock 1 []) rfl
    (by rw [hone]; decide)
  obtain ⟨hpool, hblocks⟩ := decoded_data_crashes_iff Sample.collisionFree_firstNodes hC
  obtain ⟨hsig, hval, hins⟩ := hblocks head body _ [] [] hhead hbody hstorable .plain
  have hok : blockSigerVerifier prims (child bc.currentBlock 1 []) ≠ none :=
    fun hnone => (hsig.mp hnone).2.elim (List.cons_ne_nil _ _) fun he =>
      absurd (List.cons.inj he).1 (by decide)
  refine ⟨bc, hbc, fun hnone => ?_, hok, fun hnone => ?_, fun hnone => ?_⟩
  · exact absurd (((hpool bytes _ htx).1 _).mp hnone).2.2 (by decide)
  · obtain ⟨-, -, _, htx, -⟩ := hval.mp hnone
    cases htx
  · obtain hnone | ⟨-, -, -, _, htx, -⟩ := hins.mp hnone
    · exact hok hnone
    · cases htx

/-- **Well-formed data that crashes a node**: a transaction without payload, in the pool; a report
without keys, and one whose file declares a long signature, in their downloads; a signed header
without key or with an empty group key, in the verifier; a block that creates a space for nobody;
and, after a block whose accounts are stored nowhere has become the head, every child of it. -/
theorem decoded_data_crashes :
    ∃ bc ∈ chain,
      (decodeBytes Tx.decodeRLP [0xC8, 0x80, 0x80, 0x80, 0x80, 0x80, 0x1B, 0x01, 0x01] = .ok mute ∧
        (TxPool.add prims bc.db bc.currentBlock .empty mute).isNone) ∧
      (decodeBytes Tx.decodeRLP [0xC8, 0x80, 0x80, 0x80, 0x80, 0x09, 0x1B, 0x01, 0x01]
          = .ok keyless ∧
        ∃ r ∈ TxPool.add prims bc.db bc.currentBlock .empty keyless, keyless ∈ r.2.downloading ∧
          (TxPool.downLoadTx prims (fun _ => none) bc r.2 keyless).isNone) ∧
      (∃ bytes ∈ encodeToBytes keyed.encodeRLP, decodeBytes Tx.decodeRLP bytes = .ok keyed ∧
        ∃ r ∈ TxPool.add prims bc.db bc.currentBlock .empty keyed, keyed ∈ r.2.downloading ∧
          (TxPool.downLoadTx prims (fun _ => some hoard) bc r.2 keyed).isNone) ∧
      (∀ pk ∈ [[], [2]], Travels (withKey pk bc.currentBlock).header ∧
        blockSigerVerifier prims (withKey pk bc.currentBlock) = none ∧
        (insert prims .plain bc (withKey pk bc.currentBlock)).isNone) ∧
      (Travels (child bc.currentBlock 1 [aimless]).header ∧
        decodeBytes decodeBody
            [0xCB, 0xC9, 0xC8, 0x80, 0x80, 0x80, 0x80, 0x01, 0x80, 0x80, 0x80, 0x80]
          = .ok ([aimless], []) ∧
        (validateBlock prims .plain bc.db bc.currentBlock
          (child bc.currentBlock 1 [aimless])).isNone ∧
        (insert prims .plain bc (child bc.currentBlock 1 [aimless])).isNone) ∧
      Travels (lost bc.currentBlock).header ∧
      ∃ r ∈ insert prims .plain bc (lost bc.currentBlock),
        Travels (child r.1.currentBlock 1 []).header ∧
        (validateBlock prims .plain r.1.db r.1.currentBlock
          (child r.1.currentBlock 1 [])).isNone := by
  decide +kernel

end BlockChain

end Space

end Gocoin
