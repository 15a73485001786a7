import Gocoin.Protocol.Size
import Gocoin.Space.Overdraft

/-!
# Space/Admission — what the pool compares

Cost, amount and balance are integers of any size, and `validateTx` compares their low 64 bits: the
cost with a limit, and the balance with the sum of cost and amount, which wraps.  Cutting off a
balance only makes it smaller; so an admitted transaction is within the limit and covered as soon as
cost and amount together fit into 64 bits.  Beyond that there is a head on which the transaction is
admitted and not covered, unless it is refused on every head (`admission_exact`).

The limit on the size of a transaction sees the length of its encoding, whether the transaction
remembers it from the bytes it was decoded from or counts it (`received_size`).
-/

namespace Gocoin.Space

open State Trie

variable {P : Prims}

theorem toNat_intU64 (z : ℤ) : (intU64 z).toNat = z.natAbs % 2 ^ 64 := UInt64.toNat_ofNat ..

/-- The sum that is compared. -/
theorem toNat_needed (tx : Tx) :
    (TxPool.needed tx).toNat = (tx.cost.natAbs + tx.amount.natAbs) % 2 ^ 64 := by
  rw [TxPool.needed, UInt64.toNat_add, toNat_intU64, toNat_intU64, ← Nat.add_mod]

variable {get : Nodes} {rootSpace rootAccount : Hash} {s : StateDB}

/-- Nothing is cached in a state just opened. -/
theorem accountObjects_of_new (h : State.new get rootSpace rootAccount = .ok s) (addr : Address) :
    s.accountObjects addr = none := by
  unfold State.new at h
  cases hs : SecureTrie.newSecure get rootSpace 0 with
  | error e =>
    rw [hs] at h
    cases h
  | ok ts =>
    cases ha : SecureTrie.newSecure get rootAccount 0 with
    | error e =>
      rw [hs, ha] at h
      cases h
    | ok ta =>
      rw [hs, ha] at h
      cases h
      rfl

/-- A balance found in a state just opened is not negative. -/
theorem balance_nonneg_of_new {s' : StateDB} (hnew : State.new get rootSpace rootAccount = .ok s)
    {addr : Address} {obj : AccountObject}
    (h : s.getAccountObject P.keccak get addr = some (.found obj, s')) :
    0 ≤ obj.data.balance := by
  unfold StateDB.getAccountObject at h
  rw [accountObjects_of_new hnew addr] at h
  simp only at h
  cases ht : s.trieAccount.tryGet P.keccak get addr.bytes with
  | error e =>
    rw [ht] at h
    cases e <;> cases h
  | ok r =>
    rw [ht] at h
    simp only at h
    split at h
    · cases h
    next hlen =>
    cases hdec : Account.decode r.1 with
    | none =>
      rw [hdec] at h
      cases h
    | some acc =>
      rw [hdec] at h
      cases h
      have hread : readAccount addr r.1 = .found (newAccountObject addr acc) := by
        rw [readAccount, if_neg hlen, hdec]
      exact balance_nonneg_of_readAccount hread

/-- The balance that a validated transaction was compared with. -/
theorem exists_balance_of_validateTx {db : Db} {head : Block} {tx : Tx} {sender : Address}
    (h : TxPool.validateTx P db head tx = some (.ok sender)) :
    ∃ s b, stateAt db head = .ok s ∧
      balanceOf P db.nodes s sender = some b ∧ 0 ≤ b ∧ ¬ intU64 b < TxPool.needed tx := by
  obtain ⟨-, -, -, s, hs, ⟨s', hr, hneeded⟩ | ⟨obj, s', hr, hneeded⟩⟩ :=
    TxPool.validateTx_eq_ok h
  · refine ⟨s, 0, hs, ?_, le_rfl, hneeded⟩
    rw [balanceOf, StateDB.getBalance, hr]
    rfl
  · refine ⟨s, obj.data.balance, hs, ?_, balance_nonneg_of_new hs hr, hneeded⟩
    rw [balanceOf, StateDB.getBalance, hr]
    rfl

/-! ## The size -/

/-- A transaction is refused for its size when the size is above the limit, and only then. -/
theorem validateTx_eq_oversized_iff (db : Db) (head : Block) (tx : Tx) :
    TxPool.validateTx P db head tx = some (.error .oversizedData) ↔ 32 * 1024 < tx.size := by
  unfold TxPool.validateTx
  split
  · next h => exact iff_of_true rfl h
  · next h =>
    refine iff_of_false ?_ h
    split
    · simp
    split
    · simp
    split
    · simp
    split
    · simp
    · simp
    · intro hr
      simp only [bind_eq_some, Prod.exists] at hr
      obtain ⟨r, s', -, hr⟩ := hr
      split at hr
      · cases hr
      · split at hr <;> cases hr
      · split at hr <;> cases hr

/-- **The limit sees the real size.**  For every byte string that is decoded to a transaction, the
size that `DecodeRLP` stores is the length of the string, and so is the one that `Size` counts for a
fresh copy; the limit of `validateTx` gives the same answer for both. -/
theorem received_size {b : Bytes} {tx : SizedTx} (hb : b.length < 2 ^ 64)
    (h : decodeBytes SizedTx.decodeRLP b = .ok tx) :
    tx.size = some b.length ∧ tx.getSize.1 = b.length ∧
      (SizedTx.fresh tx.data).getSize.1 = b.length ∧ ∀ (db : Db) (head : Block),
        (TxPool.validateTx P db head tx.data = some (.error .oversizedData)
          ↔ 32 * 1024 < tx.getSize.1) ∧
        (TxPool.validateTx P db head tx.data = some (.error .oversizedData)
          ↔ 32 * 1024 < (SizedTx.fresh tx.data).getSize.1) := by
  obtain ⟨hmemo, hsize⟩ := SizedTx.size_of_decodeBytes hb h
  have hreceived : tx.getSize.1 = b.length := by rw [SizedTx.getSize, hmemo]
  have hfresh : (SizedTx.fresh tx.data).getSize.1 = b.length :=
    (Tx.countSize_eq tx.data).trans hsize
  refine ⟨hmemo, hreceived, hfresh, fun db head => ?_⟩
  rw [hreceived, hfresh, validateTx_eq_oversized_iff, hsize]
  exact ⟨Iff.rfl, Iff.rfl⟩

/-- A transaction of nine bytes that spells its missing recipient as an empty list. -/
theorem received_size_nine :
    ∃ tx, decodeBytes SizedTx.decodeRLP [0xC8, 0x80, 0xC0, 0x80, 0x80, 0x80, 0x1B, 1, 1] = .ok tx ∧
      tx.size = some 9 ∧ (SizedTx.fresh tx.data).getSize.1 = 9 := by
  have h : decodeBytes SizedTx.decodeRLP [0xC8, 0x80, 0xC0, 0x80, 0x80, 0x80, 0x1B, 1, 1]
      = .ok ⟨⟨0, none, 0, 0, [], 27, 1, 1⟩, some 9⟩ := by
    decide +kernel
  obtain ⟨hmemo, -, hfresh, -⟩ := received_size (P := Sample.prims) (by decide) h
  exact ⟨_, h, hmemo, hfresh⟩

/-! ## Cost and amount -/

/-- An account with nothing but a balance is encoded to a value. -/
theorem exists_encoded_balance {b : ℕ} (hb : b < 2 ^ 64) :
    ∃ data, Value data ∧ Account.decode data = some ⟨0, b, 0, [], [], []⟩ := by
  let items : List Rlp.Item := [.ofNat 0, .ofNat b, .ofNat 0, .str [], .ofStrings [], .ofStrings []]
  have hitems : (Rlp.encodeItems items).length ≤ 22 := by
    have hnat := Rlp.length_encode_ofNat_le hb
    have hstr : (Rlp.encode (.str [])).length = 1 := by decide
    have hlist : (Rlp.encode (.list [])).length = 1 := by decide
    simp [items, Rlp.length_encodeItems, Rlp.Item.ofNat, Rlp.Item.ofStrings, hstr, hlist] at hnat ⊢
    omega
  have hhead := Rlp.length_puthead_le 0xC0 0xF7 (lt_of_le_of_lt hitems (by norm_num))
  have hlen : (Rlp.encode (.list items)).length < 2 ^ 63 := by
    rw [Rlp.encode, List.length_append]
    omega
  have hitem : Account.item ⟨0, b, 0, [], [], []⟩ = some (.list items) := by
    rw [Account.item, Rlp.Item.ofInt?_of_nonneg (Int.natCast_nonneg b)]
    rfl
  refine ⟨Rlp.encode (.list items), ⟨List.length_pos_iff.mp (Rlp.length_encode_pos _), hlen⟩, ?_⟩
  rw [Account.decode, Rlp.decode_encode (lt_trans hlen (by norm_num)), Option.bind_some,
    ofItem_of_item hitem]

/-- **Any balance is somebody's on some head**: one leaf with an account, stored at a root.  What is
stored at a root is read without being hashed, so any root will do. -/
theorem exists_head_balance (P : Prims) (addr : Address) {b : ℕ} (hb : b < 2 ^ 64) :
    ∃ (db : Db) (head : Block) (s s' : StateDB) (obj : AccountObject), stateAt db head = .ok s ∧
      s.getAccountObject P.keccak db.nodes addr = some (.found obj, s') ∧
      obj.data.balance = b := by
  obtain ⟨data, hval, hdec⟩ := exists_encoded_balance hb
  let root : Hash := FixedBytes.ofBytes 32 [1]
  let leaf : PTree := .short (path (P.keccak addr.bytes)) (.value data)
  let db : Db := Db.empty.put root.bytes (enc (fun _ => root) leaf)
  have haccount : StoredAt (fun _ => root) db.nodes root
      (Function.update (fun _ => none) (P.keccak addr.bytes) (some data)) :=
    LeafAt.storedAt ⟨hval, rfl, by decide, by decide, Db.get_put_self ..⟩
  have hspace : StoredAt (fun _ => root) db.nodes emptyRoot (fun _ => none) :=
    ⟨.nil, .nil, .inl ⟨rfl, .inl rfl⟩⟩
  obtain ⟨ts, hts, -⟩ := SecureTrie.exists_newSecure hspace 0
  obtain ⟨ta, hta, hm⟩ := SecureTrie.exists_newSecure haccount 0
  obtain ⟨t', ht', -⟩ := hm.exists_tryGet (P.keccak addr.bytes)
  rw [Function.update_self, Option.getD_some] at ht'
  have htry : ta.tryGet P.keccak db.nodes addr.bytes = .ok (data, { ta with trie := t' }) := by
    rw [SecureTrie.tryGet, ht']
    rfl
  have hnew : State.new db.nodes emptyRoot root
      = .ok ⟨ts, ta, fun _ => none, fun _ => none, [], []⟩ := by
    rw [State.new, hts, hta]
    rfl
  have hget : ∃ s', StateDB.getAccountObject P.keccak db.nodes
      ⟨ts, ta, fun _ => none, fun _ => none, [], []⟩ addr
        = some (.found (newAccountObject addr ⟨0, b, 0, [], [], []⟩), s') := by
    simp only [StateDB.getAccountObject, htry, if_neg (length_ne_zero_of_value hval), hdec]
    exact ⟨_, rfl⟩
  obtain ⟨s', hget⟩ := hget
  exact ⟨db, { emptyHead with header := { emptyHead.header with accRoot := root } }, _, s', _, hnew,
    hget, rfl⟩

/-- **When admission is exact.**  Whatever the head, a transaction that is accepted costs no more
than the limit and is covered by its sender's balance there — exactly if cost and amount together
are below `2 ^ 64`, or the transaction is refused on every head: for its size, for the low 64 bits
of its cost, or for want of a sender. -/
theorem admission_exact {tx : Tx} (hcost : 0 ≤ tx.cost) (hamount : 0 ≤ tx.amount) :
    (∀ (db : Db) (head : Block) (sender : Address),
      TxPool.validateTx P db head tx = some (.ok sender) →
        tx.cost ≤ TxPool.currentMaxCost.toNat ∧
          ∃ s b, stateAt db head = .ok s ∧
            balanceOf P db.nodes s sender = some b ∧ tx.cost + tx.amount ≤ b) ↔
      tx.cost + tx.amount < 2 ^ 64 ∨ 32 * 1024 < tx.size ∨
        TxPool.currentMaxCost < intU64 tx.cost ∨ tx.sender P = none := by
  constructor
  · intro h
    by_contra hno
    simp only [not_or, not_lt, UInt64.not_lt] at hno
    obtain ⟨hwrap, hsize, hlimit, hsome⟩ := hno
    obtain ⟨sender, hsender⟩ := Option.ne_none_iff_exists'.mp hsome
    obtain ⟨db, head, s, s', obj, hs, hget, hbal⟩ :=
      exists_head_balance P sender (TxPool.needed tx).toNat_lt
    have hpass : ¬ intU64 obj.data.balance < TxPool.needed tx := by
      rw [UInt64.lt_iff_toNat_lt, toNat_intU64, hbal, Int.natAbs_natCast,
        Nat.mod_eq_of_lt (TxPool.needed tx).toNat_lt]
      exact lt_irrefl _
    have hok : TxPool.validateTx P db head tx = some (.ok sender) := by
      rw [TxPool.validateTx, if_neg (Nat.not_lt.mpr hsize), if_neg (not_lt.mpr hamount),
        if_neg (UInt64.not_lt.mpr hlimit), hsender]
      simp only [hs, hget, some_bind, if_neg hpass]
    obtain ⟨-, s₁, b, hs₁, hb, hcovers⟩ := h db head sender hok
    rw [hs] at hs₁
    cases hs₁
    have hb' : b = (TxPool.needed tx).toNat := by
      rw [balanceOf, StateDB.getBalance, hget] at hb
      exact (Option.some.inj hb).symm.trans hbal
    have hlt := (TxPool.needed tx).toNat_lt
    omega
  · intro hexact db head sender h
    obtain ⟨s, b, hs, hb, hnn, hneeded⟩ := exists_balance_of_validateTx h
    obtain ⟨-, hlimit, hsender, -⟩ := TxPool.validateTx_eq_ok h
    rcases hexact with hsum | hsize | hover | hnone
    · have hlimit := UInt64.le_iff_toNat_le.mp hlimit
      rw [toNat_intU64] at hlimit
      rw [UInt64.lt_iff_toNat_lt, toNat_intU64, toNat_needed] at hneeded
      exact ⟨by omega, s, b, hs, hb, by omega⟩
    · rw [(validateTx_eq_oversized_iff db head tx).mpr hsize] at h
      cases h
    · exact absurd hlimit (UInt64.not_le.mpr hover)
    · rw [hsender] at hnone
      cases hnone

/-- The signer of the sample transactions. -/
def signer : Address := (signedTx 4 1 0 0).senderOrZero Sample.prims

/-- The law applies to a transaction with a cost and an amount that the signer's ten units cover. -/
theorem admission_exact_signerChain :
    ∃ bc ∈ signerChain,
      TxPool.validateTx Sample.prims bc.db bc.currentBlock (signedTx 4 1 6 3) = some (.ok signer) ∧
      ∃ s b, stateAt bc.db bc.currentBlock
          = .ok s ∧ balanceOf Sample.prims bc.db.nodes s signer = some b ∧ 9 ≤ b := by
  have hrun : ∃ bc ∈ signerChain,
      TxPool.validateTx Sample.prims bc.db bc.currentBlock (signedTx 4 1 6 3)
        = some (.ok signer) := by
    decide +kernel
  obtain ⟨bc, hbc, hok⟩ := hrun
  exact ⟨bc, hbc, hok, ((admission_exact (by decide) (by decide)).mpr (.inl (by decide)) bc.db
    bc.currentBlock signer hok).2⟩

/-- The signer has nothing on the head, and the pool accepts a cost of `2 ^ 64`, an amount of
`2 ^ 64`, and a cost and an amount that only together are `2 ^ 64`. -/
theorem admission_wraps :
    (stateAt Db.empty emptyHead).toOption.bind
        (fun s => balanceOf Sample.prims Db.empty.nodes s signer) = some 0 ∧
      ∀ tx ∈ [signedTx 4 1 (2 ^ 64) 0, signedTx 4 1 0 (2 ^ 64), signedTx 4 1 1 (2 ^ 64 - 1)],
        0 ≤ tx.cost ∧ 0 ≤ tx.amount ∧ 0 < tx.cost + tx.amount ∧
          TxPool.validateTx Sample.prims Db.empty emptyHead tx = some (.ok signer) := by
  decide +kernel

end Gocoin.Space
