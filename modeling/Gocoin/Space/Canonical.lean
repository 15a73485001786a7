import Gocoin.Space.Genesis
import Gocoin.Space.Run

/-!
# Space/Canonical — the canonical chain and its links

`Insert` writes the canonical hash of its block's number and the block, and nothing else of the
block tables changes.  When every inserted block is the child of the head (`Extends`) the canonical
chain stays linked down to the first block and the head never falls back; `Insert` itself asks for
neither the number nor the parent, so a signed block with any other number breaks the chain.
-/

namespace Gocoin.Space

open State ValidateGroup
open Sample (chain prims child)

/-! ## The block tables -/

/-- The shape of the keys of canonical hashes, headers and bodies. -/
def ChainKey (k : Bytes) : Prop :=
  k.length ≠ 32 ∧ ∃ rest, k = 0x73 :: 0x68 :: rest ∨ k = 0x73 :: 0x62 :: rest

theorem chainKey_canonicalKey (n : UInt64) : ChainKey (canonicalKey n) :=
  ⟨by simp [canonicalKey, headerPrefix, numSuffix], _, .inl rfl⟩

theorem chainKey_headerKey (h : Hash) (n : UInt64) : ChainKey (headerKey h n) :=
  ⟨by simp [headerKey, headerPrefix, h.length_eq], _, .inl rfl⟩

theorem chainKey_blockBodyKey (h : Hash) (n : UInt64) : ChainKey (blockBodyKey h n) :=
  ⟨by simp [blockBodyKey, bodyPrefix, h.length_eq], _, .inr rfl⟩

/-- The execution of a block and its commit stay off the block tables. -/
theorem ChainKey.notMem {k : Bytes} (h : ChainKey k) : k ∉ executedKeys := by
  obtain ⟨hlen, rest, hk⟩ := h
  rintro (((hg | ⟨hash, hr⟩) | hn) | ⟨hash, hp⟩)
  · rcases hk with rfl | rfl <;>
      simp [groupKeys, groupMembersKey, thresholdMembersKey, coinMembersKey, coingroupMembersKey,
        thresholdCoinMembersKey, transactionMembersKey, newTxMembersKey, thresholdTxMembersKey,
        stellMembersKey] at hg
  · rcases hk with rfl | rfl <;> simp [liquidationKey, liquidationfix] at hr
  · exact hlen hn
  · rcases hk with rfl | rfl <;> simp [SecureTrie.secKey, SecureTrie.secureKeyPrefix] at hp

theorem canonicalKey_injective : Function.Injective canonicalKey := by
  intro m n h
  have h' := List.append_cancel_left h
  exact encodeBlockNumber_injective (List.append_inj_left h' (by simp))

variable {h h' : Hash} {m n : UInt64}

theorem number_eq_of_headerKey (he : headerKey h m = headerKey h' n) : m = n := by
  have h' := List.append_cancel_left he
  exact encodeBlockNumber_injective (List.append_inj_left h' (by simp))

theorem number_eq_of_blockBodyKey (he : blockBodyKey h m = blockBodyKey h' n) : m = n := by
  have h' := List.append_cancel_left he
  exact encodeBlockNumber_injective (List.append_inj_left h' (by simp))

/-! ## The entries of a new head -/

namespace BlockChain

/-- A block is stored under its hash and a number. -/
def StoredAt (keccak : HashFn) (db : Db) (n : UInt64) (b : Block) : Prop :=
  ∃ head body, b.header.item = some head ∧ b.bodyItem = some body ∧
    getHeaderRLP db (b.hash keccak) n = some (Rlp.encode head) ∧
    getBodyRLP db (b.hash keccak) n = some (Rlp.encode body)

variable (P : Prims) {db : Db} {n : UInt64} {ord : IterOrder} {bc bc' : BlockChain} {b : Block}
  {accounts : List AccountConfig} {now : ℤ}

/-- The writes that make a block the head, one after the other. -/
theorem writeHead_eq {db' : Db} (h : writeHead P db b = some db') :
    ∃ head body, b.header.item = some head ∧ b.bodyItem = some body ∧
      db' = (((((db.put (canonicalKey b.numberU64) (b.hash P.keccak).bytes).put headBlockKey
        (b.hash P.keccak).bytes).put headHeaderKey (b.hash P.keccak).bytes).put
        (blockBodyKey (b.hash P.keccak) b.numberU64) (Rlp.encode body)).put
        (numberKey (b.hash P.keccak)) (encodeBlockNumber b.numberU64)).put
        (headerKey (b.hash P.keccak) b.numberU64) (Rlp.encode head) := by
  simp only [writeHead, writeBlock, writeBody, writeHeader, bind_eq_some,
    Option.map_eq_some_iff] at h
  obtain ⟨_, ⟨body, hbody, rfl⟩, head, hhead, rfl⟩ := h
  exact ⟨head, body, hhead, hbody, rfl⟩

theorem exists_bytes_eq_cons (h : Hash) : ∃ x xs, h.bytes = x :: xs :=
  List.exists_cons_of_length_pos (by rw [h.length_eq]; decide)

theorem getCanonicalHash_of_get {h : Hash} (hget : db.get (canonicalKey n) = some h.bytes) :
    getCanonicalHash db n = h := by
  obtain ⟨x, xs, hb⟩ := exists_bytes_eq_cons h
  rw [getCanonicalHash, hget, hb]
  show FixedBytes.ofBytes 32 (x :: xs) = h
  rw [← hb, FixedBytes.ofBytes_bytes]

variable {P} {db db' : Db} {b : Block}

/-- A new head is canonical at its number and every other number keeps its canonical hash. -/
theorem getCanonicalHash_writeHead (h : writeHead P db b = some db') (n : UInt64) :
    getCanonicalHash db' n
      = if n = b.numberU64 then b.hash P.keccak else getCanonicalHash db n := by
  obtain ⟨head, body, -, -, rfl⟩ := writeHead_eq P h
  have hlast : ∀ (d : Db) (v w x y z : Bytes),
      (((((d.put headBlockKey v).put headHeaderKey w).put
        (blockBodyKey (b.hash P.keccak) b.numberU64) x).put (numberKey (b.hash P.keccak)) y).put
        (headerKey (b.hash P.keccak) b.numberU64) z).get (canonicalKey n)
        = d.get (canonicalKey n) := by
    intro d v w x y z
    have hlen : (canonicalKey n).length = 12 := by simp [canonicalKey, headerPrefix, numSuffix]
    have hne : canonicalKey n ≠ headerKey (b.hash P.keccak) b.numberU64 := fun he => by
      have := congrArg List.length he
      simp [hlen, headerKey, headerPrefix, FixedBytes.length_eq] at this
    rw [Db.get_put_of_ne _ hne, Db.get_put_of_ne, Db.get_put_of_ne, Db.get_put_of_ne,
      Db.get_put_of_ne] <;>
      simp [canonicalKey, headerPrefix, headBlockKey, headHeaderKey, blockBodyKey, bodyPrefix,
        numberKey, blockHashPrefix]
  split
  · next hn =>
    refine getCanonicalHash_of_get ?_
    rw [hlast, hn, Db.get_put_self]
  · next hn =>
    unfold getCanonicalHash
    rw [hlast, Db.get_put_of_ne _ fun he => hn (canonicalKey_injective he)]

/-- A new head is stored. -/
theorem storedAt_writeHead (h : writeHead P db b = some db') :
    StoredAt P.keccak db' b.numberU64 b := by
  obtain ⟨head, body, hhead, hbody, rfl⟩ := writeHead_eq P h
  refine ⟨head, body, hhead, hbody, Db.get_put_self .., ?_⟩
  unfold getBodyRLP
  rw [Db.get_put_of_ne, Db.get_put_of_ne, Db.get_put_self] <;>
    simp [blockBodyKey, bodyPrefix, headerKey, headerPrefix, numberKey, blockHashPrefix]

/-- The blocks stored under other numbers stay. -/
theorem StoredAt.writeHead {b' : Block} (h : writeHead P db b = some db')
    (hb : StoredAt P.keccak db n b') (hn : n ≠ b.numberU64) : StoredAt P.keccak db' n b' := by
  obtain ⟨head', body', hhead', hbody', hgh, hgb⟩ := hb
  obtain ⟨head, body, -, -, rfl⟩ := writeHead_eq P h
  refine ⟨head', body', hhead', hbody', ?_, ?_⟩
  · unfold getHeaderRLP at hgh ⊢
    have hlen : headerKey (b'.hash P.keccak) n ≠ canonicalKey b.numberU64 := fun he => by
      have := congrArg List.length he
      simp [canonicalKey, numSuffix, headerKey, headerPrefix, FixedBytes.length_eq] at this
    rw [Db.get_put_of_ne _ fun he => hn (number_eq_of_headerKey he), Db.get_put_of_ne,
      Db.get_put_of_ne, Db.get_put_of_ne, Db.get_put_of_ne, Db.get_put_of_ne _ hlen, hgh] <;>
      simp [headerKey, headerPrefix, headBlockKey, headHeaderKey, blockBodyKey, bodyPrefix,
        numberKey, blockHashPrefix]
  · unfold getBodyRLP at hgb ⊢
    rw [Db.get_put_of_ne, Db.get_put_of_ne,
      Db.get_put_of_ne _ fun he => hn (number_eq_of_blockBodyKey he), Db.get_put_of_ne,
      Db.get_put_of_ne, Db.get_put_of_ne, hgb] <;>
      simp [canonicalKey, headerKey, headerPrefix, headBlockKey, headHeaderKey, blockBodyKey,
        bodyPrefix, numberKey, blockHashPrefix]

/-- The block tables depend on the keys outside the other tables only. -/
theorem getCanonicalHash_sameOff (h : db.SameOff executedKeys db') (n : UInt64) :
    getCanonicalHash db' n = getCanonicalHash db n := by
  unfold getCanonicalHash
  rw [h _ (chainKey_canonicalKey n).notMem]

theorem StoredAt.sameOff {keccak : HashFn} (h : db.SameOff executedKeys db')
    (hb : StoredAt keccak db n b) : StoredAt keccak db' n b := by
  obtain ⟨head, body, hhead, hbody, hgh, hgb⟩ := hb
  refine ⟨head, body, hhead, hbody, ?_, ?_⟩
  · exact (h _ (chainKey_headerKey _ _).notMem).trans hgh
  · exact (h _ (chainKey_blockBodyKey _ _).notMem).trans hgb

/-! ## Links -/

variable (P)

/-- The canonical hash of a number is that of a stored block with this number, whose parent is the
canonical hash before it. -/
def Link (db : Db) (n : ℕ) : Prop :=
  ∃ b, StoredAt P.keccak db (u64 n) b ∧ getCanonicalHash db (u64 n) = b.hash P.keccak ∧
    b.header.number = n ∧ b.header.uncleHash = getCanonicalHash db (u64 (n - 1))

/-- The canonical chain ends in the head and is linked from there down to the first block. -/
structure Linked (bc : BlockChain) : Prop where
  head : getCanonicalHash bc.db bc.currentBlock.numberU64 = bc.currentBlock.hash P.keccak
  link : ∀ n, 1 ≤ n → n ≤ bc.currentBlock.header.number → Link P bc.db n

/-- The chain holds the first block only. -/
structure GenesisOnly (bc : BlockChain) : Prop where
  number : bc.currentBlock.header.number = 0
  head : getCanonicalHash bc.db 0 = bc.currentBlock.hash P.keccak

/-- A block that passes the checks of `Insert` on an open state is the child of the head. -/
def Extends (bc : BlockChain) (b : Block) : Prop :=
  blockSigerVerifier P b = some true → b.numberU64 ≠ bc.currentBlock.numberU64 →
    getCanonicalHash bc.db b.numberU64 ≠ b.hash P.keccak →
    (∃ s, stateAt bc.db bc.currentBlock = .ok s) →
    b.header.number = bc.currentBlock.header.number + 1 ∧ b.header.number < 2 ^ 64 ∧
      b.header.uncleHash = bc.currentBlock.hash P.keccak

variable {P}

/-- An insertion that extends the head does nothing or puts a child on the head. -/
theorem insert_child {evs : List CreatethresholdEvent} (hC : Extends P bc b)
    (h : insert P ord bc b = some (bc', evs)) :
    bc' = bc ∨ ∃ db, bc.db.SameOff executedKeys db ∧
      writeHead P db b = some bc'.db ∧ bc'.currentBlock = b ∧
      b.header.number = bc.currentBlock.header.number + 1 ∧ b.header.number < 2 ^ 64 ∧
      b.header.uncleHash = bc.currentBlock.hash P.keccak := by
  obtain h | ⟨hv, hn, hh, hhead⟩ := insert_cases P h
  · exact .inl h
  obtain h | ⟨db, hoff, hw, hb⟩ := insertHead_sameOff P hhead
  · exact .inl h
  obtain h | ⟨s, -, -, -, -, hs, -⟩ := insertHead_cases P hhead
  · exact .inl h
  · exact .inr ⟨db, hoff, hw, hb, hC hv hn hh ⟨s, hs⟩⟩

/-- A link survives the writes of a head with a higher number. -/
theorem Link.writeHead {n : ℕ} (hl : Link P db n) (h : writeHead P db b = some db')
    (hn : n < b.header.number) (hb : b.header.number < 2 ^ 64) : Link P db' n := by
  obtain ⟨b', hs, hc, hnum, hu⟩ := hl
  have hne : ∀ m, m ≤ n → u64 m ≠ b.numberU64 := fun m hm he =>
    absurd (u64_inj (by omega) hb he) (by omega)
  refine ⟨b', hs.writeHead h (hne n le_rfl), ?_, hnum, ?_⟩
  · rw [getCanonicalHash_writeHead h, if_neg (hne n le_rfl), hc]
  · rw [getCanonicalHash_writeHead h, if_neg (hne (n - 1) (Nat.sub_le n 1)), hu]

theorem Link.sameOff {n : ℕ} (hl : Link P db n)
    (h : db.SameOff executedKeys db') : Link P db' n := by
  obtain ⟨b', hs, hc, hnum, hu⟩ := hl
  refine ⟨b', hs.sameOff h, ?_, hnum, ?_⟩
  · rw [getCanonicalHash_sameOff h, hc]
  · rw [getCanonicalHash_sameOff h, hu]

/-- **The step**: putting a child on the head keeps the chain linked. -/
theorem Linked.child (hl : Linked P bc) (hoff : bc.db.SameOff executedKeys db)
    (hw : writeHead P db b = some bc'.db) (hb : bc'.currentBlock = b)
    (hn : b.header.number = bc.currentBlock.header.number + 1) (hlt : b.header.number < 2 ^ 64)
    (hu : b.header.uncleHash = bc.currentBlock.hash P.keccak) : Linked P bc' := by
  refine ⟨?_, fun n h1 hle => ?_⟩
  · rw [hb, getCanonicalHash_writeHead hw, if_pos rfl]
  rw [hb, hn] at hle
  rcases Nat.lt_or_ge n (bc.currentBlock.header.number + 1) with hlow | htop
  · have hlink := (hl.link n h1 (Nat.lt_succ_iff.mp hlow)).sameOff hoff
    exact hlink.writeHead hw (by omega) hlt
  · have hnb : n = b.header.number := by omega
    have hpred : u64 (n - 1) ≠ b.numberU64 := fun he =>
      absurd (u64_inj (by omega) hlt he) (by omega)
    subst hnb
    refine ⟨b, storedAt_writeHead hw, ?_, rfl, ?_⟩
    · rw [getCanonicalHash_writeHead hw]
      exact if_pos rfl
    · rw [getCanonicalHash_writeHead hw, if_neg hpred, getCanonicalHash_sameOff hoff, hu, ← hl.head,
        hn]
      rfl

/-- A report changes no link. -/
theorem report_sameOff (db : Db) (hash : Hash) (data : Bytes) :
    db.SameOff executedKeys
      (writeLiquidationHash db hash data) :=
  Db.sameOff_put (.inl (.inl (.inr ⟨hash, rfl⟩))) db data

theorem Linked.sameOff (hl : Linked P bc) (h : bc.db.SameOff executedKeys db') :
    Linked P { bc with db := db' } where
  head := (getCanonicalHash_sameOff h _).trans hl.head
  link n h1 hn := (hl.link n h1 hn).sameOff h

variable (P)

/-! ## The first block -/

/-- `Reset` at genesis touches the group tables and one hash. -/
theorem resetInit_sameOff (P : Prims) (vg : ValidateGroup) (db : Db) (hash : Hash) :
    db.SameOff executedKeys (vg.resetInit P db hash).2 := by
  have hd : db.SameOff executedKeys
      (db.delete groupMembersKey) :=
    Db.sameOff_delete (.inl (.inl (.inl (by simp [groupKeys])))) db
  unfold resetInit
  split
  · simp only
    split
    · exact hd.trans (writeMembers_sameOff (.inl (.inr hash.length_eq)) _ _)
    · exact hd
  · exact .refl _ _

/-- The first group is stored beside the first block. -/
theorem Founded.sameOff {s₀ : StateDB} {r : UInt64 × StateDB} {c : StateDB.Committed}
    (h : Founded P ord accounts now bc s₀ r c db) :
    db.SameOff executedKeys bc.db := by
  obtain ⟨vg, db', hadd, hstored⟩ := h.stored
  have henters := enters_add (newValidateGroup P db bc.currentBlock.header.consensusGroupHash) db
    ⟨founder accounts, now⟩
  rw [hadd] at henters
  rw [← hstored]
  exact (henters.mono fun k hk => .inl (.inl (.inl hk))).trans (resetInit_sameOff P _ _ _)

/-- The first block is stored. -/
theorem Founded.storedAt {s₀ : StateDB} {r : UInt64 × StateDB} {c : StateDB.Committed}
    (h : Founded P ord accounts now bc s₀ r c db) :
    StoredAt P.keccak bc.db bc.currentBlock.numberU64 bc.currentBlock := by
  refine StoredAt.sameOff (h.sameOff P) ?_
  obtain ⟨d, hwrite, rfl⟩ := h.written
  simp only [writeBlock, writeBody, writeHeader, bind_eq_some, Option.map_eq_some_iff] at hwrite
  obtain ⟨_, ⟨body, hbody, rfl⟩, head, hhead, rfl⟩ := hwrite
  have hlen : headerKey (bc.currentBlock.hash P.keccak) bc.currentBlock.numberU64
      ≠ canonicalKey bc.currentBlock.numberU64 := fun he => by
    have := congrArg List.length he
    simp [canonicalKey, numSuffix, headerKey, headerPrefix, FixedBytes.length_eq] at this
  refine ⟨head, body, hhead, hbody, ?_, ?_⟩
  · rw [getHeaderRLP, writeHeadHeaderHash, Db.get_put_of_ne, writeHeadBlockHash, Db.get_put_of_ne,
      writeCanonicalHash, Db.get_put_of_ne _ hlen]
    · exact Db.get_put_self ..
    all_goals simp [headBlockKey, headHeaderKey, headerKey, headerPrefix]
  · rw [getBodyRLP, writeHeadHeaderHash, Db.get_put_of_ne, writeHeadBlockHash, Db.get_put_of_ne,
      writeCanonicalHash, Db.get_put_of_ne, Db.get_put_of_ne, Db.get_put_of_ne, Db.get_put_self]
    all_goals
      simp [headBlockKey, headHeaderKey, canonicalKey, headerKey, headerPrefix, numberKey,
        blockHashPrefix, blockBodyKey, bodyPrefix]

/-- A genesis chain holds the first block only. -/
theorem genesisOnly_genesisChain (h : genesisChain P ord accounts now = some bc) :
    GenesisOnly P bc := by
  obtain ⟨s₀, r, c, db, hf⟩ := exists_founded h
  obtain ⟨d, -, hdb⟩ := hf.written
  have hzero : bc.currentBlock.numberU64 = 0 := by
    rw [Block.numberU64, hf.number]
    rfl
  have hcanon : getCanonicalHash db 0 = bc.currentBlock.hash P.keccak := by
    refine getCanonicalHash_of_get ?_
    rw [hdb, hzero, writeHeadHeaderHash, Db.get_put_of_ne, writeHeadBlockHash, Db.get_put_of_ne,
      writeCanonicalHash, Db.get_put_self] <;>
      simp [canonicalKey, headerPrefix, headBlockKey, headHeaderKey]
  refine ⟨hf.number, ?_⟩
  rw [← hcanon]
  exact getCanonicalHash_sameOff hf.sameOff 0

/-! ## Runs -/

variable {P} in
/-- Runs that extend the head keep the canonical chain linked. -/
theorem linked_of_run {bc₀ bc : BlockChain} (h₀ : GenesisOnly P bc₀)
    (hr : Run P (Extends P) bc₀ bc) : Linked P bc := by
  refine hr.invariant ⟨?_, fun n h1 hn => ?_⟩ ?_ ?_
  · rw [← h₀.head, Block.numberU64, h₀.number]
    rfl
  · rw [h₀.number] at hn
    exact absurd h1 (by omega)
  · intro bc bc' ord b evs hl hC h
    obtain rfl | ⟨db, hoff, hw, hb, hn, hlt, hu⟩ := insert_child hC h
    · exact hl
    · exact hl.child hoff hw hb hn hlt hu
  · exact fun hash data hl => hl.sameOff (report_sameOff _ hash data)

/-- **The canonical chain stays linked** in every run from the first block whose insertions extend
the head, and the head's number never falls. -/
theorem run_linked {bc₀ bc : BlockChain} (h₀ : GenesisOnly P bc₀) (hr : Run P (Extends P) bc₀ bc) :
    Linked P bc ∧ ∀ bc', Run P (Extends P) bc bc' →
      bc.currentBlock.header.number ≤ bc'.currentBlock.header.number := by
  refine ⟨linked_of_run h₀ hr, fun bc' hr' => ?_⟩
  refine hr'.invariant
    (I := fun bc' => bc.currentBlock.header.number ≤ bc'.currentBlock.header.number)
    le_rfl ?_ fun _ _ hle => hle
  intro bc₁ bc₂ ord b evs hle hC h
  obtain rfl | ⟨db, -, -, hb, hn, -⟩ := insert_child hC h
  · exact hle
  · rw [hb, hn]
    exact hle.trans (Nat.le_succ _)

/-- …on the run that adds a child to the small chain. -/
theorem run_linked_sample :
    ∃ bc₀ ∈ chain, ∃ r ∈ insert prims .plain bc₀ (child bc₀.currentBlock 1 []),
      r.1.currentBlock.header.number = 1 ∧ Linked prims r.1 := by
  have hrun : ∃ bc₀ ∈ chain,
      ∃ r ∈ insert prims .plain bc₀ (child bc₀.currentBlock 1 []),
        r.1.currentBlock.header.number = 1 := by
    decide +kernel
  obtain ⟨bc₀, h₀, ⟨bc, evs⟩, h, hn⟩ := hrun
  have hg : GenesisOnly prims bc₀ := genesisOnly_genesisChain prims h₀
  have hC : Extends prims bc₀ (child bc₀.currentBlock 1 []) := by
    refine fun _ _ _ _ => ⟨rfl, ?_, rfl⟩
    show bc₀.currentBlock.header.number + 1 < 2 ^ 64
    rw [hg.number]
    norm_num
  exact ⟨bc₀, h₀, (bc, evs), h, hn, (run_linked prims hg (.single (.insert hC h))).1⟩

/-- A signed block with the number five becomes the head of the small chain, and then nothing is
stored at number one. -/
theorem gap_breaks_link :
    ∃ bc₀ ∈ chain, GenesisOnly prims bc₀ ∧ ∃ b, blockSigerVerifier prims b = some true ∧
      ∃ r ∈ insert prims .plain bc₀ b,
        r.1.currentBlock.header.number = 5 ∧ ¬ Link prims r.1.db 1 := by
  have hrun : ∃ bc₀ ∈ chain, blockSigerVerifier prims (Sample.gap bc₀.currentBlock) = some true ∧
      ∃ r ∈ insert prims .plain bc₀ (Sample.gap bc₀.currentBlock),
        r.1.currentBlock.header.number = 5 ∧
          getHeaderRLP r.1.db (getCanonicalHash r.1.db (u64 1)) (u64 1) = none := by
    decide +kernel
  obtain ⟨bc₀, h₀, hv, r, h, hn, hnone⟩ := hrun
  refine ⟨bc₀, h₀, genesisOnly_genesisChain prims h₀, _, hv, r, h, hn, ?_⟩
  rintro ⟨b, ⟨head, -, -, -, hhead, -⟩, hc, -, -⟩
  rw [hc, hhead] at hnone
  cases hnone

end BlockChain

end Gocoin.Space
