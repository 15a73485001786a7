import Gocoin.State.Ids
import Gocoin.Space.Roots
import Gocoin.Space.Spending
import Gocoin.Space.Execution
import Gocoin.Space.Worker

/-!
# Space/Counters — the ids that the next space and the next account get

A header carries the id of the next space and the wallet id of the next account.  `buildBlock`
counts them up as it executes, and as long as they are ahead of everything that is stored they stay
ahead: every creation gets a space that was not there, and no two accounts share a wallet id
(`counters_stay_ahead`).  But the first block sets the id of the next space to one, whatever space
ids the configuration has used, and the wallet index to what the last configured account returned: a
configured space with the id one is what the first creation gets (`configured_space_is_next`).
-/

namespace Gocoin

open State Trie

namespace Space

/-! ## What a transaction adds -/

theorem ids_chargeReports (reports : List LiquidationReport) (B : Book) :
    (reports.foldl chargeReport B).ids = B.ids := by
  induction reports generalizing B with
  | nil => rfl
  | cons report reports ih => rw [List.foldl_cons, ih, chargeReport, Book.ids_onSpace]

/-- **What a transaction does to the ids**: nothing, or — a creation — it adds the space with the
next id and at most one account, with the next wallet id. -/
theorem tallyAfter_ids (P : Prims) (reports : List LiquidationReport) (T : Tally) (tx : Tx) :
    let T' := tallyAfter P reports T tx
    (T'.spaceid = T.spaceid ∧ T'.walletid = T.walletid ∧ T'.book.ids = T.book.ids) ∨
      (T'.spaceid = T.spaceid + 1 ∧
        ((T'.walletid = T.walletid ∧ T'.book.ids = T.book.ids.addSpace (u64 T.spaceid)) ∨
          ∃ r, T.book.ids.account r = .absent ∧ T'.walletid = T.walletid + 1 ∧
            T'.book.ids = (T.book.ids.addAccount r T.walletid).addSpace (u64 T.spaceid))) := by
  have hpay : ∀ B : Book, (chargeSender P tx B).ids = B.ids := fun B =>
    Book.ids_onAccount fun _ => rfl
  intro T'
  simp only [T']
  unfold tallyAfter
  cases hp : tx.ptype with
  | none => exact .inl ⟨rfl, rfl, rfl⟩
  | some kind =>
    cases kind with
    | createGroup | publishCoin | epochSigTx | applyGroup | stellGroup | coinGroup
      | transactionGroup => exact .inl ⟨rfl, rfl, hpay _⟩
    | epochTx | other => exact .inl ⟨rfl, rfl, rfl⟩
    | stellReport => exact .inl ⟨rfl, rfl, ids_chargeReports reports T.book⟩
    | recharge | attrSet =>
      cases tx.recipient with
      | none => exact .inl ⟨rfl, rfl, rfl⟩
      | some r => exact .inl ⟨rfl, rfl, (hpay _).trans (Book.ids_onAccount fun _ => rfl)⟩
    | spaceCreation =>
      cases tx.recipient with
      | none => exact .inl ⟨rfl, rfl, rfl⟩
      | some r =>
        have hempty : ∀ B : Book, (B.onAccount r fun h => { h with balance := 0 }).ids = B.ids :=
          fun B => Book.ids_onAccount fun _ => rfl
        refine .inr ⟨rfl, ?_⟩
        rcases Book.ids_createSpaceAndBindAddr (B := T.book) (u64 T.spaceid) T.walletid r with
          ⟨hw, hids⟩ | ⟨habsent, hw, hids⟩
        · exact .inl ⟨hw, (hempty _).trans hids⟩
        · exact .inr ⟨r, habsent, hw, (hempty _).trans hids⟩

/-- The counters of a tally are ahead of its book. -/
def Tally.Ahead (T : Tally) : Prop := T.book.ids.Ahead T.spaceid T.walletid

/-- A transaction keeps the counters ahead, and what was there is still there. -/
theorem Tally.Ahead.after {T : Tally} (h : T.Ahead) (hspace : T.spaceid < 2 ^ 64)
    (hwallet : T.walletid.toNat + 1 < 2 ^ 64) (P : Prims) (reports : List LiquidationReport)
    (tx : Tx) :
    (tallyAfter P reports T tx).Ahead ∧ T.book.ids.Le (tallyAfter P reports T tx).book.ids ∧
      (tallyAfter P reports T tx).spaceid ≤ T.spaceid + 1 ∧
      (tallyAfter P reports T tx).walletid.toNat ≤ T.walletid.toNat + 1 := by
  unfold Tally.Ahead
  rcases tallyAfter_ids P reports T tx with
    ⟨hs, hw, hids⟩ | ⟨hs, ⟨hw, hids⟩ | ⟨r, habsent, hw, hids⟩⟩ <;> rw [hs, hw, hids]
  · exact ⟨h, .refl _, Nat.le_succ _, Nat.le_succ _⟩
  · exact ⟨Ids.Ahead.addSpace h hspace, Ids.le_addSpace _ _, le_rfl, Nat.le_succ _⟩
  · refine ⟨Ids.Ahead.addSpace (Ids.Ahead.addAccount h hwallet) hspace,
      (Ids.le_addAccount habsent _).trans (Ids.le_addSpace _ _), le_rfl, ?_⟩
    rw [UInt64.toNat_add, UInt64.toNat_one, Nat.mod_eq_of_lt hwallet]

/-! ## A list of transactions -/

/-- There is room for a list of transactions: the counters do not wrap, and the reports name ids
below `2 ^ 64`. -/
structure Room (P : Prims) (db : Db) (spaceid : ℕ) (walletid : UInt64) (txs : List Tx) : Prop where
  space : spaceid + txs.length < 2 ^ 64
  wallet : walletid.toNat + txs.length < 2 ^ 64
  reports : ∀ tx ∈ txs, tx.ptype = some .stellReport →
    ∀ report ∈ reportsOf P db tx, report.spaceId < 2 ^ 64

section

variable {P : Prims} {C : Contents} {db : Db} {acc acc' : Totals} {txs : List Tx}

/-- **An executed list of transactions keeps the counters ahead**, and what was there is still
there. -/
theorem Bounded.validateAll_ahead (hK : StoresSmall P C) (h : Bounded P db.nodes C acc.state)
    (hahead : (acc.tally P C).Ahead) (hroom : Room P db acc.spaceid acc.walletid txs)
    (hall : validateAll P db acc txs = some acc') :
    Bounded P db.nodes C acc'.state ∧ (acc'.tally P C).Ahead ∧
      (acc.state.book P.keccak C).ids.Le (acc'.state.book P.keccak C).ids ∧
      acc'.spaceid < 2 ^ 64 := by
  induction txs generalizing acc with
  | nil =>
    cases hall
    exact ⟨h, hahead, .refl _, hroom.space⟩
  | cons tx txs ih =>
    have hlen : (tx :: txs).length = txs.length + 1 := rfl
    have hspace := hroom.space
    have hwallet := hroom.wallet
    have htx : ¬ tx.Crashes := fun hc => by
      rw [validateAll_of_crashes ⟨tx, List.mem_cons_self, hc⟩] at hall
      cases hall
    obtain ⟨acc₁, hacc₁, hdid⟩ := exists_validateTransaction (T := True) hK (fun _ _ h => h) h htx
      ⟨fun _ => show acc.spaceid < 2 ^ 64 by omega, hroom.reports tx List.mem_cons_self⟩
    obtain ⟨hahead₁, hle₁, hs₁, hw₁⟩ := hahead.after (show acc.spaceid < 2 ^ 64 by omega)
      (show acc.walletid.toNat + 1 < 2 ^ 64 by omega) P (reportsOf P db tx) tx
    rw [← hdid.tally trivial] at hahead₁ hle₁ hs₁ hw₁
    change acc₁.spaceid ≤ acc.spaceid + 1 at hs₁
    change acc₁.walletid.toNat ≤ acc.walletid.toNat + 1 at hw₁
    rw [validateAll_cons, hacc₁, Option.bind_some] at hall
    obtain ⟨h', hahead', hle', hs'⟩ := ih (h.moves hK hdid.goes) hahead₁
      ⟨by omega, by omega, fun tx' h' => hroom.reports tx' (List.mem_cons_of_mem tx h')⟩ hall
    exact ⟨h', hahead', hle₁.trans hle', hs'⟩

end

/-! ## What a reader sees -/

/-- The space is there. -/
def HasSpace (P : Prims) (get : Nodes) (s : StateDB) (id : ℕ) : Prop :=
  (s.getSpaceObject P.keccak get id).any fun r => isFound r.1

instance (P : Prims) (get : Nodes) (s : StateDB) (id : ℕ) :
    Decidable (HasSpace P get s id) := inferInstanceAs (Decidable (_ = true))

/-- The wallet id of an account that is there. -/
def walletOf (P : Prims) (get : Nodes) (s : StateDB) (a : Address) : Option UInt64 :=
  (s.getAccountObject P.keccak get a).bind fun r =>
    match r.1 with
    | .found obj => some obj.data.walletID
    | _ => none

/-- **The counters of the head are ahead**: beyond the id of every space and the wallet id of every
account in its state, and no two accounts share a wallet id. -/
def CountersAhead (P : Prims) (bc : BlockChain) (s : StateDB) : Prop :=
  (∀ id < 2 ^ 64, HasSpace P bc.db.nodes s id → id < bc.currentBlock.header.idIndex) ∧
    (∀ a, ∀ w ∈ walletOf P bc.db.nodes s a, w < bc.currentBlock.header.walletID) ∧
    ∀ a b, ∀ w ∈ walletOf P bc.db.nodes s a, w ∈ walletOf P bc.db.nodes s b → a = b

section

variable {P : Prims} {get : Nodes} {C : Contents} {s : StateDB}

theorem Bounded.hasSpace_iff (h : Bounded P get C s) {id : ℕ} (hid : Small id) :
    HasSpace P get s id ↔ (s.book P.keccak C).ids.space (u64 id) = .found () := by
  obtain ⟨s', hget, -⟩ := Good.exists_getSpaceObject h id fun _ _ => hid
  have hspace : (s.book P.keccak C).ids.space (u64 id)
      = ((s.spaceAt P.keccak C id).map SpaceObject.data).map fun _ => () :=
    congrArg (Lookup.map _) (book_space_eq hid rfl)
  rw [HasSpace, hget, hspace]
  cases s.spaceAt P.keccak C id <;> simp [isFound, Lookup.map]

theorem Bounded.mem_walletOf_iff (h : Bounded P get C s) (a : Address) (w : UInt64) :
    w ∈ walletOf P get s a ↔ (s.book P.keccak C).ids.account a = .found w := by
  obtain ⟨s', hget, -⟩ := Good.exists_getAccountObject h a
  have haccount : (s.book P.keccak C).ids.account a
      = ((s.accountAt P.keccak C a).map AccountObject.holder).map Holder.walletID := rfl
  rw [walletOf, hget, haccount]
  cases s.accountAt P.keccak C a <;> simp [Lookup.map, AccountObject.holder]

/-- Counters that are ahead of the book are ahead of what a reader sees. -/
theorem Bounded.countersAhead {bc : BlockChain} (h : Bounded P bc.db.nodes C s)
    (hahead : (s.book P.keccak C).ids.Ahead bc.currentBlock.header.idIndex
      bc.currentBlock.header.walletID) : CountersAhead P bc s := by
  refine ⟨fun id hid hhas => ?_, fun a w hw => ?_, fun a b w ha hb => ?_⟩
  · rw [← toNat_u64 hid]
    exact hahead.space _ ((h.hasSpace_iff hid).mp hhas)
  · exact hahead.wallet a w ((h.mem_walletOf_iff a w).mp hw)
  · exact hahead.distinct a b w ((h.mem_walletOf_iff a w).mp ha) ((h.mem_walletOf_iff b w).mp hb)

end

/-! ## The first block -/

section

variable {P : Prims} {get : Nodes} {C : Contents}

/-- A configured space id is below `2 ^ 64`. -/
theorem AccountConfig.small (ac : AccountConfig) : Small ac.spaceId :=
  ac.spaceId.isLt.trans (by norm_num)

/-- What a configured account adds: its space, and — when the wallet index is counted up — an
account with its wallet id. -/
theorem Bounded.configure (hK : StoresSmall P C) {s : StateDB} (h : Bounded P get C s)
    (ac : AccountConfig) :
    ∃ r, Space.configure P get s ac = some r ∧ Bounded P get C r.2 ∧
      (r.1 = ac.walletId ∨ r.1 = ac.walletId + 1) ∧
      (∀ i, (r.2.book P.keccak C).ids.space i = .found () →
        (s.book P.keccak C).ids.space i = .found () ∨ i = u64 ac.spaceId) ∧
      ∀ a w, (r.2.book P.keccak C).ids.account a = .found w →
        (s.book P.keccak C).ids.account a = .found w ∨
          (ac.address = a ∧ ac.walletId = w) ∧ r.1 = ac.walletId + 1 := by
  obtain ⟨s₁, hs₁, hr₁, -⟩ := h.exists_createSpaceAndBindAddr (T := True) hK (fun _ _ h => h)
    ac.small ac.walletId ac.address
  have hg₁ := h.moves hK hr₁.moves
  obtain ⟨s₂, hs₂, hr₂⟩ := hg₁.exists_withAccount (T := True) hK ac.address
    (editsAccount_setBalanceGas fun _ => ac.balance.toBitVec.toInt)
  change s₁.setBalance P.keccak get ac.address _ = some s₂ at hs₂
  have hids₂ : (s₂.book P.keccak C).ids = (s₁.book P.keccak C).ids := by
    rw [hr₂.book trivial]
    exact Book.ids_onAccount fun _ => rfl
  have hadd := Book.ids_createSpaceAndBindAddr (B := s.book P.keccak C) (u64 ac.spaceId)
    ac.walletId ac.address
  rw [← hr₁.book trivial, ← hids₂] at hadd
  refine ⟨(_, s₂), by simp only [Space.configure, hs₁, hs₂, some_bind],
    hg₁.moves hK hr₂.moves, hadd.imp And.left fun h => h.2.1,
    fun i hi => ?_, fun a w hw => ?_⟩
  · have hi' : ((s.book P.keccak C).ids.addSpace (u64 ac.spaceId)).space i = .found () := by
      rcases hadd with ⟨-, he⟩ | ⟨-, -, he⟩ <;> rw [he] at hi <;> exact hi
    rw [Ids.space_addSpace] at hi'
    split at hi'
    · next he => exact .inr he
    · exact .inl hi'
  · rcases hadd with ⟨-, he⟩ | ⟨-, hone, he⟩ <;> rw [he] at hw
    · exact .inl hw
    · change ((s.book P.keccak C).ids.addAccount ac.address ac.walletId).account a = _ at hw
      rw [Ids.account_addAccount] at hw
      split at hw
      · next ha => exact .inr ⟨⟨ha.symm, Lookup.found.inj hw⟩, hone⟩
      · exact .inl hw

/-- What the configured accounts add: their spaces, and accounts with their wallet ids. -/
theorem Bounded.configureAll (hK : StoresSmall P C) {s : StateDB} (h : Bounded P get C s)
    {accounts : List AccountConfig} {r : UInt64 × StateDB}
    (hr : Space.configureAll P get s accounts = some r) :
    Bounded P get C r.2 ∧
      (∀ i, (r.2.book P.keccak C).ids.space i = .found () →
        (s.book P.keccak C).ids.space i = .found () ∨ ∃ ac ∈ accounts, i = u64 ac.spaceId) ∧
      ∀ a w, (r.2.book P.keccak C).ids.account a = .found w →
        (s.book P.keccak C).ids.account a = .found w ∨
          ∃ ac ∈ accounts, ac.address = a ∧ ac.walletId = w := by
  induction accounts using List.reverseRecOn generalizing r with
  | nil =>
    cases hr
    exact ⟨h, fun i hi => .inl hi, fun a w hw => .inl hw⟩
  | append_singleton accounts ac ih =>
    obtain ⟨r₀, hr₀, hlast⟩ := configureAll_concat hr
    obtain ⟨hb₀, hspace₀, haccount₀⟩ := ih hr₀
    obtain ⟨r₁, hr₁, hb, -, hspace, haccount⟩ := hb₀.configure hK ac
    obtain rfl : r = r₁ := Option.some.inj (hlast.symm.trans hr₁)
    refine ⟨hb, fun i hi => ?_, fun a w hw => ?_⟩
    · obtain hi | rfl := hspace i hi
      · exact (hspace₀ i hi).imp_right fun ⟨ac', h', he⟩ => ⟨ac', List.mem_append_left _ h', he⟩
      · exact .inr ⟨ac, List.mem_concat_self, rfl⟩
    · obtain hw | ⟨hw, -⟩ := haccount a w hw
      · exact (haccount₀ a w hw).imp_right fun ⟨ac', h', he⟩ => ⟨ac', List.mem_append_left _ h', he⟩
      · exact .inr ⟨ac, List.mem_concat_self, hw⟩

end

/-- **A configuration whose counters are ahead**: every configured space has the id zero, no wallet
id is configured twice, and the wallet id of the last account is the largest, with room for one
more. -/
structure Configured (accounts : List AccountConfig) : Prop where
  space : ∀ ac ∈ accounts, ac.spaceId = 0
  distinct : (accounts.map AccountConfig.walletId).Nodup
  last : ∀ z ∈ accounts.getLast?, ∀ ac ∈ accounts, ac.walletId ≤ z.walletId
  room : ∀ z ∈ accounts.getLast?, z.walletId.toNat + 1 < 2 ^ 64

/-- The wallet index that the last account returns is beyond the wallet id of every account. -/
theorem Configured.wallet_lt {P : Prims} {get : Nodes} {C : Contents}
    {accounts : List AccountConfig} (hcfg : Configured accounts) (hK : StoresSmall P C)
    {s : StateDB} (h : Bounded P get C s)
    (hnone : ∀ a w, (s.book P.keccak C).ids.account a ≠ .found w)
    {r : UInt64 × StateDB} (hr : Space.configureAll P get s accounts = some r) {a : Address}
    {w : UInt64} (hw : (r.2.book P.keccak C).ids.account a = .found w) : w < r.1 := by
  cases accounts using List.reverseRecOn with
  | nil =>
    cases hr
    exact absurd hw (hnone a w)
  | append_singleton accounts z =>
    have hz : z ∈ (accounts ++ [z]).getLast? := List.getLast?_concat
    obtain ⟨r₀, hr₀, hlast⟩ := configureAll_concat hr
    obtain ⟨hb₀, -, haccount₀⟩ := h.configureAll hK hr₀
    obtain ⟨r₁, hr₁, -, hindex, -, haccount⟩ := hb₀.configure hK z
    obtain rfl : r = r₁ := Option.some.inj (hlast.symm.trans hr₁)
    have hsucc : z.walletId < z.walletId + 1 := by
      rw [UInt64.lt_iff_toNat_lt, UInt64.toNat_add, UInt64.toNat_one,
        Nat.mod_eq_of_lt (hcfg.room z hz)]
      exact Nat.lt_succ_self _
    obtain hw | ⟨⟨-, rfl⟩, hone⟩ := haccount a w hw
    · obtain ⟨ac, hac, -, rfl⟩ := (haccount₀ a w hw).resolve_left (hnone a w)
      have hne : ac.walletId ≠ z.walletId := fun he => by
        have hd := hcfg.distinct
        rw [List.map_append, List.nodup_append] at hd
        exact hd.2.2 _ (List.mem_map_of_mem hac) _ (List.mem_singleton_self _) he
      have hlt : ac.walletId < z.walletId :=
        UInt64.lt_of_le_of_ne (hcfg.last z hz ac (List.mem_append_left _ hac)) hne
      rcases hindex with he | he <;> rw [he]
      · exact hlt
      · exact UInt64.lt_trans hlt hsucc
    · rw [hone]
      exact hsucc

/-! ## Chains of built blocks -/

/-- The keys of the two tries: the addresses, and the ids below `2 ^ 64`. -/
def stateKeys : Set Bytes :=
  Set.range (FixedBytes.bytes (n := 20)) ∪ {b | ∃ id < 2 ^ 64, b = BigEndian.toBytes id}

/-- The block has been made by `buildBlock` on the head. -/
def Built (P : Prims) (bc : BlockChain) (b : Block) : Prop :=
  ∃ ord who txs bc', buildBlock P ord bc who txs = some (some b, bc')

namespace BlockChain

/-- The head's state is stored, and its counters are ahead of it. -/
structure Counted (P : Prims) (D : Set Bytes) (bc : BlockChain) (C : Contents) : Prop where
  holds : Holds P D bc C
  small : StoresSmall P C
  ahead : (C.book P.keccak).ids.Ahead bc.currentBlock.header.idIndex
    bc.currentBlock.header.walletID

section

variable {P : Prims} {D : Set Bytes} {bc bc' : BlockChain} {C : Contents}

theorem injective_keys (hD : CollisionFree P.keccak D) (hkeys : stateKeys ⊆ D) :
    (∀ a b : Address, P.keccak a.bytes = P.keccak b.bytes → a = b) ∧
      ∀ m n : ℕ, Small m → Small n →
        P.keccak (BigEndian.toBytes m) = P.keccak (BigEndian.toBytes n) → m = n :=
  ⟨hD.address_inj fun a => hkeys (.inl ⟨a, rfl⟩), fun m n hm hn =>
    hD.id_inj (hkeys (.inr ⟨m, hm, rfl⟩)) (hkeys (.inr ⟨n, hn, rfl⟩))⟩

/-- The state of a counted head opens, with the counters ahead. -/
theorem Counted.exists_new (h : Counted P D bc C) :
    ∃ s, stateAt bc.db bc.currentBlock
        = .ok s ∧ Bounded P bc.db.nodes C s ∧ s.book P.keccak C = C.book P.keccak := by
  obtain ⟨s, (hs : stateAt _ _ = _), hg, -, hca, hcs⟩ :=
    State.exists_new h.holds.space h.holds.account Small
  exact ⟨s, hs, hg, book_of_new hca hcs⟩

/-- **Inserting a built block keeps the counters ahead.** -/
theorem Counted.insert {ord : IterOrder} {b : Block} {evs : List CreatethresholdEvent}
    (hD : CollisionFree P.keccak D) (hkeys : stateKeys ⊆ D) (h : Counted P D bc C)
    (hc : Checked P bc b) (hw : Within P D bc b) (hbuilt : Built P bc b)
    (hroom : Room P bc.db bc.currentBlock.header.idIndex bc.currentBlock.header.walletID
      b.transactions) (hins : BlockChain.insert P ord bc b = some (bc', evs)) :
    bc' = bc ∨ ∃ C', Counted P D bc' C' := by
  obtain rfl | ⟨hhead, s, s', es, as, hs, hstate, hes, has, hholds⟩ :=
    h.holds.insert hD hc hw hins
  · exact .inl rfl
  right
  obtain ⟨hinjA, hinjS⟩ := injective_keys hD hkeys
  obtain ⟨s₀, hs₀, hbounded, hbook⟩ := h.exists_new
  obtain rfl : s₀ = s := Except.ok.inj (hs₀.symm.trans hs)
  obtain ⟨_, _, _, _, hbuild⟩ := hbuilt
  obtain ⟨s₁, acc, hs₁, hall, hidIndex, hwalletID⟩ := buildBlock_counters P hbuild
  obtain rfl : s₀ = s₁ := Except.ok.inj (hs₀.symm.trans hs₁)
  rw [buildAll_eq] at hall
  obtain rfl : acc.state = s' := by
    rw [hall] at hstate
    exact Option.some.inj hstate
  have hahead : ((start bc.currentBlock s₀).tally P C).Ahead := by
    show (s₀.book P.keccak C).ids.Ahead _ _
    rw [hbook]
    exact h.ahead
  obtain ⟨hbounded', hahead', hle, -⟩ :=
    Bounded.validateAll_ahead h.small
      (show Bounded P bc.db.nodes C (start bc.currentBlock s₀).state from hbounded)
      hahead hroom hall
  have hle' : (C.book P.keccak).ids.Le (acc.state.book P.keccak C).ids := hbook ▸ hle
  obtain ⟨hcommit, hsmall⟩ := Good.ids_commit hbounded' h.small hinjA hinjS hes has hle'
  have hcurrent : bc'.currentBlock = b := by
    obtain ⟨_, _, _, _, _, _, -, -, -, hb, -⟩ := hhead
    exact hb
  refine ⟨_, hholds, hsmall, ?_⟩
  rw [hcurrent, hidIndex, hwalletID]
  exact Ids.Ahead.mono hahead' hcommit

/-- The first block of a configuration whose counters are ahead. -/
theorem exists_counted_genesisChain {ord : IterOrder} {accounts : List AccountConfig} {now : ℤ}
    (hD : CollisionFree P.keccak D) (hkeys : stateKeys ⊆ D)
    (h : genesisChain P ord accounts now = some bc) (hw : GenesisWithin P D ord accounts bc)
    (hcfg : Configured accounts) : ∃ C, Counted P D bc C := by
  obtain ⟨s₀, r, es, as, hs₀, hr, hes, has, hholds⟩ := exists_holds_genesisChain hD h hw
  obtain ⟨s₂, r₂, _, _, hf⟩ := exists_founded h
  obtain rfl : s₀ = s₂ := Except.ok.inj (hs₀.symm.trans hf.opened)
  obtain rfl : r = r₂ := Option.some.inj (hr.symm.trans hf.configured)
  obtain ⟨hinjA, hinjS⟩ := injective_keys hD hkeys
  obtain ⟨s₁, hs₁, hg, -, hca, hcs⟩ := State.exists_new (C := .nothing)
    (IsEmptyRoot.storedAt (.inr rfl)) (IsEmptyRoot.storedAt (.inr rfl)) Small
  obtain rfl : s₀ = s₁ := Except.ok.inj (hs₀.symm.trans hs₁)
  have hempty : s₀.book P.keccak Contents.nothing = .empty :=
    book_of_empty hca hcs
  have hnone : ∀ a w, (s₀.book P.keccak Contents.nothing).ids.account a ≠ .found w := fun a w => by
    rw [hempty]
    exact nofun
  obtain ⟨hb, hspace, haccount⟩ := Bounded.configureAll (allowsStored_empty _) hg hr
  have hahead : (r.2.book P.keccak Contents.nothing).ids.Ahead bc.currentBlock.header.idIndex
      bc.currentBlock.header.walletID := by
    rw [hf.idIndex, hf.walletID]
    refine ⟨fun i hi => ?_, fun a w hw => hcfg.wallet_lt (allowsStored_empty _) hg hnone hr hw,
      fun a b w ha hb => ?_⟩
    · rw [hempty] at hspace
      obtain hi | ⟨ac, hac, rfl⟩ := hspace i hi
      · cases hi
      · rw [hcfg.space ac hac]
        decide
    · obtain ⟨ac, hac, rfl, rfl⟩ := (haccount a w ha).resolve_left (hnone a w)
      obtain ⟨ac', hac', rfl, he⟩ := (haccount b _ hb).resolve_left (hnone b _)
      rw [List.inj_on_of_nodup_map hcfg.distinct hac hac' he.symm]
  obtain ⟨hcommit, hsmall'⟩ := Good.ids_commit hb (allowsStored_empty _) hinjA hinjS hes has
    ⟨fun a w hw => (by cases hw), fun i hi => (by cases hi)⟩
  exact ⟨_, hholds, hsmall', hahead.mono hcommit⟩

end

/-- **The counters stay ahead.**  In every run from the first block of such a configuration, whose
executed blocks have been built on the head, have been checked and leave the counters room, the
counters of the head are beyond every space and every wallet id of its state, no two accounts share
a wallet id, and — whatever transactions are executed on it — the next creation gets a space that is
not there. -/
theorem counters_stay_ahead {P : Prims} {D : Set Bytes} {ord₀ : IterOrder}
    {accounts : List AccountConfig} {now : ℤ} {bc₀ bc : BlockChain}
    (hD : CollisionFree P.keccak D) (hkeys : stateKeys ⊆ D)
    (h₀ : genesisChain P ord₀ accounts now = some bc₀) (hw₀ : GenesisWithin P D ord₀ accounts bc₀)
    (hcfg : Configured accounts)
    (hr : Run P (fun bc b => LeftOut P bc b ∨ Checked P bc b ∧ Within P D bc b ∧ Built P bc b ∧
      Room P bc.db bc.currentBlock.header.idIndex bc.currentBlock.header.walletID b.transactions)
      bc₀ bc) :
    ∃ s, stateAt bc.db bc.currentBlock = .ok s ∧ CountersAhead P bc s ∧
      ∀ txs acc, Room P bc.db bc.currentBlock.header.idIndex bc.currentBlock.header.walletID txs →
        validateAll P bc.db (start bc.currentBlock s) txs = some acc →
        ¬ HasSpace P bc.db.nodes acc.state acc.spaceid := by
  have hcounted : ∃ C, Counted P D bc C := by
    refine hr.invariant (I := fun bc => ∃ C, Counted P D bc C)
      (exists_counted_genesisChain hD hkeys h₀ hw₀ hcfg) ?_ ?_
    · rintro bc bc' ord b evs ⟨C, hC⟩ hcond h
      rcases hcond with hleft | ⟨hc, hw, hbuilt, hroom⟩
      · rw [(hleft.insert (blockSigerVerifier_ne_none h) ord).1] at h
        cases h
        exact ⟨C, hC⟩
      · obtain rfl | hC' := hC.insert hD hkeys hc hw hbuilt hroom h
        · exact ⟨C, hC⟩
        · exact hC'
    · rintro bc hash data ⟨C, hC⟩
      exact ⟨C, hC.holds.report hash data, hC.small, hC.ahead⟩
  obtain ⟨C, hC⟩ := hcounted
  obtain ⟨s, hs, hbounded, hbook⟩ := hC.exists_new
  have hahead : (s.book P.keccak C).ids.Ahead bc.currentBlock.header.idIndex
      bc.currentBlock.header.walletID := hbook ▸ hC.ahead
  refine ⟨s, hs, hbounded.countersAhead hahead, fun txs acc hroom hall hhas => ?_⟩
  obtain ⟨hb, hahead', -, hsmall⟩ := Bounded.validateAll_ahead hC.small
    (show Bounded P bc.db.nodes C (start bc.currentBlock s).state from hbounded) hahead hroom hall
  have hlt := hahead'.space _ ((hb.hasSpace_iff hsmall).mp hhas)
  rw [toNat_u64 hsmall] at hlt
  exact absurd hlt (lt_irrefl _)

end BlockChain

end Space

namespace Sample

open Space

/-- A transaction that only says that an epoch has ended. -/
def epochEnd : Tx := ⟨3, some (address 2), 0, 0, [6], 0, 0, 0⟩

end Sample

namespace Space

namespace BlockChain

open Sample (prims chain firstProposer moveOut)

/-- The law applies to a block that creates a space: it is built on the first block and inserted,
and counts the id of the next space up. -/
theorem counters_stay_ahead_moved :
    ∃ bc ∈ chain, ∃ r ∈ buildBlock prims .plain bc firstProposer [moveOut], ∃ b ∈ r.1,
      ∃ q ∈ insert prims .plain bc b, q.1.currentBlock = b ∧
        b.header.accRoot ≠ bc.currentBlock.header.accRoot ∧
        bc.currentBlock.header.idIndex = 1 ∧ b.header.idIndex = 2 ∧
        ∃ s, stateAt q.1.db q.1.currentBlock = .ok s ∧ CountersAhead prims q.1 s := by
  obtain ⟨bc, b, bc', h⟩ := Sample.exists_movedBy
  obtain ⟨_, hbuilt⟩ := h.built
  obtain ⟨evs, hins⟩ := h.inserted
  obtain ⟨hid, hwallet, hid'⟩ := h.counters
  have hkeys : stateKeys ⊆ Sample.known := by
    rintro e (⟨a, rfl⟩ | ⟨id, hid, rfl⟩)
    · exact .inl (by simp [a.length_eq])
    · exact .inl ((BigEndian.length_toBytes_le (k := 8) (by omega)).trans (by norm_num))
  have hroom : Room prims bc.db bc.currentBlock.header.idIndex bc.currentBlock.header.walletID
      b.transactions := by
    rw [h.transactions, hid, hwallet]
    exact ⟨by decide, by decide, by simp [moveOut, Tx.ptype, TxKind.ofByte]⟩
  obtain ⟨s, hs, hahead, -⟩ := counters_stay_ahead Sample.collisionFree_firstNodes hkeys h.first
    (Sample.genesisWithin_first h.group) ⟨by decide, by decide, by decide, by decide⟩
    (.single (.insert (.inr ⟨h.checked, h.within, ⟨_, _, _, _, hbuilt⟩, hroom⟩) hins))
  exact ⟨bc, h.first, _, hbuilt, b, rfl, _, hins, h.head, h.changed, hid, hid', s, hs, hahead⟩

/-- A configured space has the id the first block hands out next: the creation that gets it makes no
space and binds nobody; and a wallet id configured before the last account is beyond the counter. -/
theorem configured_space_is_next :
    (∃ bc ∈ genesisChain prims .plain [⟨Sample.address 1, 1, 10, 1, 0⟩] 5,
      ∃ s ∈ (stateAt bc.db bc.currentBlock).toOption,
      bc.currentBlock.header.idIndex = 1 ∧ HasSpace prims bc.db.nodes s 1 ∧
      ∃ acc ∈ validateAll prims bc.db (start bc.currentBlock s) [Sample.unsignedCreation],
        ∃ v ∈ acc.state.viewAccount prims.keccak bc.db.nodes (Sample.address 7),
          v.bindSpaceId = 0) ∧
    ∃ bc ∈ genesisChain prims .plain
        [⟨Sample.address 1, 0, 10, 9, 0⟩, ⟨Sample.address 2, 0, 10, 1, 0⟩] 5,
      ∃ s ∈ (stateAt bc.db bc.currentBlock).toOption,
      bc.currentBlock.header.walletID = 2 ∧
      walletOf prims bc.db.nodes s (Sample.address 1) = some 9 := by
  decide +kernel

end BlockChain

end Space

end Gocoin
