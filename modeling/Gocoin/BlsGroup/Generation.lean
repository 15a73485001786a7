import Gocoin.BlsGroup.Progress

/-!
# BlsGroup/Generation — the key of a group

When every member has received the message of every other one, all have the values of the same
combination of their polynomials: the group's polynomial (`groupPoly`), whose value at a member's
identifier is the member's secret and whose value at zero is the secret behind the public key.  Its
degree is below the threshold, so the shares of as many members as the threshold says interpolate to
a signature of the group (`key_generation`).
-/

namespace Gocoin.Bls

open Interpolation Polynomial

variable {F G₁ G₂ : Type}

/-! ## Shares in messages -/

/-- The share for an address in a list with one entry for each member. -/
theorem share_map (self : Address) (members : List Address) (f : Address → F) :
    share self (members.map fun v => ⟨v, f v⟩)
      = if self ∈ members then some (f self) else none := by
  induction members using List.reverseRecOn with
  | nil => rfl
  | append_singleton l v ih =>
    unfold share at ih ⊢
    rw [List.map_append, List.foldl_append, ih]
    by_cases hv : v = self
    · simp [hv]
    · simp [hv, Ne.symm hv]

/-- Messages with shares all leave their entries. -/
theorem received_of_shares {self : Address} {ms : List (BlsMsg F G₂)} (f : Address → F)
    (h : Address → G₂)
    (hms : ∀ msg ∈ ms, share self msg.mastersec = some (f msg.addr) ∧ msg.pub = h msg.addr) :
    (∀ v ∈ received self ms, v = ⟨v.peer, h v.peer, f v.peer⟩) ∧
      ∀ msg ∈ ms, ∃ v ∈ received self ms, v.peer = msg.addr := by
  induction ms using List.reverseRecOn with
  | nil => simp [received]
  | append_singleton ms msg ih =>
    obtain ⟨hentries, hall⟩ := ih fun m hm => hms m (List.mem_append_left _ hm)
    obtain ⟨hshare, hpub⟩ := hms msg (by simp)
    rw [received_concat]
    rcases record_cases self (received self ms) msg with ⟨hsame, hknown⟩ | ⟨sec, hsec, -, hnew⟩
    · rw [hsame]
      refine ⟨hentries, fun m hm => ?_⟩
      rcases List.mem_append.mp hm with hm | hm
      · exact hall m hm
      · rw [List.mem_singleton.mp hm]
        exact hknown.resolve_left (by rw [hshare]; exact Option.some_ne_none _)
    · rw [hshare, Option.some.injEq] at hsec
      rw [hnew]
      refine ⟨fun v hv => ?_, fun m hm => ?_⟩
      · rcases List.mem_append.mp hv with hv | hv
        · exact hentries v hv
        · rw [List.mem_singleton.mp hv, ← hsec, hpub]
      · rcases List.mem_append.mp hm with hm | hm
        · obtain ⟨v, hv, hpeer⟩ := hall m hm
          exact ⟨v, List.mem_append_left _ hv, hpeer⟩
        · exact ⟨_, List.mem_append_right _ List.mem_cons_self, by rw [List.mem_singleton.mp hm]⟩

section Generation

variable [Field F] [AddCommGroup G₁] [Module F G₁] [AddCommGroup G₂] [Module F G₂]

/-! ## The exchange -/

/-- A node whose group is set up, with its members and threshold, and has received nothing. -/
structure Ready (lib : Library F G₁ G₂) (gid : ℕ) (a : Address) (members : List Address)
    (nd : Node F G₂) (g : BlsGroup F G₂) : Prop where
  psec : nd.psec = []
  group : nd.groups gid = some g
  self_eq : g.self = a
  selfID : g.selfID = lib.setLittleEndian a
  gid_eq : g.gid = gid
  members_eq : g.members = members
  n : g.n = members.length
  k : g.k = members.length / 2 + 1
  collector : g.collector = none
  pending : g.pending = 0

/-- A member's part: it starts to make the key from its polynomial and receives the messages of the
other members, all of them, any number of times and nothing else, while its goroutine takes
signals. -/
structure Exchange (lib : Library F G₁ G₂) (gid : ℕ) (members : List Address)
    (poly : Address → F × List F) (first : Address → BlsGroup F G₂) (a : Address)
    (es : List (Event F G₂)) : Prop where
  events : ∀ e ∈ es, e = .create gid (poly a).1 (poly a).2 ∨
    (∃ b ∈ members, b ≠ a ∧ ∃ times,
      e = .deliver { (first b).message lib (poly b).1 (poly b).2 with times := times }) ∨
    ∃ order, e = .collect gid order
  create : .create gid (poly a).1 (poly a).2 ∈ es
  deliver : ∀ b ∈ members, b ≠ a → ∃ times,
    .deliver { (first b).message lib (poly b).1 (poly b).2 with times := times } ∈ es

/-- **The group's polynomial.** -/
noncomputable def groupPoly (lib : Library F G₁ G₂) (members : List Address)
    (poly : Address → F × List F) : F[X] :=
  joint members.toFinset lib.setLittleEndian fun b => toPoly ((poly b).1 :: (poly b).2)

/-- The entry of a member on the node of another. -/
def entry (lib : Library F G₁ G₂) (poly : Address → F × List F) (self b : Address) :
    PeerInfo F G₂ :=
  ⟨b, (poly b).1 • lib.base, horner ((poly b).1 :: (poly b).2) (lib.setLittleEndian self)⟩

variable {lib : Library F G₁ G₂} {gid : ℕ} {members : List Address} {poly : Address → F × List F}
  {before : Address → Node F G₂} {first : Address → BlsGroup F G₂} {self : Address}
  {es : List (Event F G₂)}

theorem horner_zero (c : List F) : horner c 0 = c.headD 0 := by
  cases c <;> simp [horner]

theorem degree_groupPoly_lt (hpoly : ∀ a ∈ members, (poly a).2.length = members.length / 2) :
    (groupPoly lib members poly).degree < (members.length / 2 + 1 : ℕ) := by
  refine degree_joint_lt fun b hb => ?_
  have h := degree_toPoly_lt ((poly b).1 :: (poly b).2)
  rwa [List.length_cons, hpoly b (List.mem_toFinset.mp hb)] at h

/-! ## What a member receives -/

section

variable (hready : ∀ a ∈ members, Ready lib gid a members (before a) (first a))
  (hself : self ∈ members)
include hready hself

/-- What the message of a member brings to another. -/
theorem share_message (hpoly : ∀ a ∈ members, (poly a).2.length = members.length / 2)
    (hn : 2 ≤ members.length) {b : Address} (hb : b ∈ members) (hne : b ≠ self) :
    share self ((first b).message lib (poly b).1 (poly b).2).mastersec
      = some (entry lib poly self b).sec := by
  have hr := hready b hb
  have hlong : ¬ ((poly b).1 :: (poly b).2).length < 2 := by
    rw [List.length_cons, hpoly b hb]
    omega
  rw [BlsGroup.message, share_map, hr.members_eq, if_pos hself, hr.self_eq, if_neg (Ne.symm hne),
    secretKeySet, if_neg hlong]
  rfl

namespace Exchange

/-- Every message is one of the group's own. -/
theorem ownMessage {b : Address} (hb : b ∈ members) (hne : b ≠ self) (times : ℕ) :
    Event.ownMessage gid (first self)
        (.deliver { (first b).message lib (poly b).1 (poly b).2 with times := times })
      = some { (first b).message lib (poly b).1 (poly b).2 with times := times } := by
  refine if_pos ⟨(hready b hb).gid_eq, ?_, ?_⟩
  · show (first b).self ∈ _
    rw [(hready b hb).self_eq, (hready self hself).members_eq]
    exact hb
  · show (first b).self ≠ _
    rw [(hready b hb).self_eq, (hready self hself).self_eq]
    exact hne

variable (hx : Exchange lib gid members poly first self es)
include hx

theorem noForeignShare : NoForeignShare gid (first self) (before self) es := by
  intro msg hmsg hown
  rcases hx.events _ hmsg with he | ⟨b, hb, hne, times, he⟩ | ⟨order, he⟩
  · cases he
  · rw [he, ownMessage hready hself hb hne] at hown
    cases hown
  · cases he

/-- **The map holds the entries of the other members.** -/
theorem received_perm (hpoly : ∀ a ∈ members, (poly a).2.length = members.length / 2)
    (hn : 2 ≤ members.length) (hnodup : members.Nodup) :
    (received self (es.filterMap (Event.ownMessage gid (first self)))).Perm
      ((members.erase self).map (entry lib poly self)) := by
  have hmessages : ∀ msg ∈ es.filterMap (Event.ownMessage gid (first self)),
      ∃ b ∈ members, b ≠ self ∧ ∃ times,
        msg = { (first b).message lib (poly b).1 (poly b).2 with times := times } := by
    intro msg hmsg
    obtain ⟨e, he, hown⟩ := List.mem_filterMap.mp hmsg
    rcases hx.events e he with rfl | ⟨b, hb, hne, times, rfl⟩ | ⟨order, rfl⟩
    · cases hown
    · rw [ownMessage hready hself hb hne, Option.some.injEq] at hown
      exact ⟨b, hb, hne, times, hown.symm⟩
    · cases hown
  have hms : ∀ msg ∈ es.filterMap (Event.ownMessage gid (first self)),
      share self msg.mastersec = some (entry lib poly self msg.addr).sec ∧
        msg.pub = (entry lib poly self msg.addr).pub := by
    intro msg hmsg
    obtain ⟨b, hb, hne, times, rfl⟩ := hmessages msg hmsg
    have haddr : ((first b).message lib (poly b).1 (poly b).2).addr = b := (hready b hb).self_eq
    rw [haddr]
    exact ⟨share_message hready hself hpoly hn hb hne, rfl⟩
  obtain ⟨hentries, hall⟩ := received_of_shares (fun b => (entry lib poly self b).sec)
    (fun b => (entry lib poly self b).pub) hms
  obtain ⟨hpeers, hsent⟩ :=
    peers_received self (es.filterMap (Event.ownMessage gid (first self)))
  have hmap : received self (es.filterMap (Event.ownMessage gid (first self)))
      = ((received self (es.filterMap (Event.ownMessage gid (first self)))).map PeerInfo.peer).map
        (entry lib poly self) := by
    rw [List.map_map]
    exact (List.map_id _).symm.trans (List.map_congr_left fun v hv => hentries v hv)
  rw [hmap]
  refine List.Perm.map _ ((List.perm_ext_iff_of_nodup hpeers (hnodup.erase self)).mpr fun b => ?_)
  rw [hnodup.mem_erase_iff, List.mem_map]
  constructor
  · rintro ⟨v, hv, rfl⟩
    obtain ⟨msg, hmsg, hpeer⟩ := hsent v hv
    obtain ⟨b, hb, hne, times, rfl⟩ := hmessages msg hmsg
    rw [hpeer, show ((first b).message lib (poly b).1 (poly b).2).addr = b from
      (hready b hb).self_eq]
    exact ⟨hne, hb⟩
  · rintro ⟨hne, hb⟩
    obtain ⟨times, hdeliver⟩ := hx.deliver b hb hne
    obtain ⟨v, hv, hpeer⟩ := hall _ (List.mem_filterMap.mpr
      ⟨_, hdeliver, ownMessage hready hself hb hne times⟩)
    exact ⟨v, hv, hpeer.trans (hready b hb).self_eq⟩

/-- The goroutine has the node's own entry. -/
theorem collector (hpoly : ∀ a ∈ members, (poly a).2.length = members.length / 2)
    (hn : 2 ≤ members.length) :
    (es.filterMap (Event.creation gid)).head?.map
        (fun p => (first self).dealing lib p.1 p.2)
      = some ⟨(entry lib poly self self).sec, (entry lib poly self self).pub⟩ := by
  have hr := hready self hself
  have hmem : poly self ∈ es.filterMap (Event.creation gid) :=
    List.mem_filterMap.mpr ⟨_, hx.create, if_pos rfl⟩
  obtain ⟨p, l, hcons⟩ := List.exists_cons_of_ne_nil (List.ne_nil_of_mem hmem)
  have hp : p = poly self := by
    have hp : p ∈ es.filterMap (Event.creation gid) := by rw [hcons]; exact List.mem_cons_self
    obtain ⟨e, he, hcreation⟩ := List.mem_filterMap.mp hp
    rcases hx.events e he with rfl | ⟨b, hb, hne, times, rfl⟩ | ⟨order, rfl⟩
    · exact (Option.some.inj ((if_pos rfl).symm.trans hcreation)).symm
    · cases hcreation
    · cases hcreation
  have hlong : ¬ ((poly self).1 :: (poly self).2).length < 2 := by
    rw [List.length_cons, hpoly self hself]
    omega
  rw [hcons, hp, List.head?_cons, Option.map_some, BlsGroup.dealing, hr.self_eq, hr.members_eq,
    if_pos hself, secretKeySet, if_neg hlong]
  rfl

omit hready hself in
/-- An exchange and then only signals is an exchange. -/
theorem append_collects (orders : List (List (PeerInfo F G₂))) :
    Exchange lib gid members poly first self (es ++ orders.map (.collect gid)) where
  events e he := by
    rcases List.mem_append.mp he with he | he
    · exact hx.events e he
    · obtain ⟨order, -, rfl⟩ := List.mem_map.mp he
      exact .inr (.inr ⟨order, rfl⟩)
  create := List.mem_append_left _ hx.create
  deliver b hb hne := (hx.deliver b hb hne).imp fun _ h => List.mem_append_left _ h

end Exchange

end

/-! ## Interpolation of what is received -/

variable [DecidableEq F]

/-- **Recovering from the entries of all members**: the value at the node's identifier, and the
value at zero times the generator. -/
theorem recoverKey_entries (hn : 2 ≤ members.length)
    (hids : (members.map lib.setLittleEndian).Nodup) (hzero : 0 ∉ members.map lib.setLittleEndian)
    {c : Collector F G₂} {peers : List (PeerInfo F G₂)}
    (hperm : ((⟨self, c.pub, c.gsec⟩ : PeerInfo F G₂) :: peers).Perm
      (members.map (entry lib poly self))) (key : F × G₂) :
    recoverKey lib self c peers key
      = ((groupPoly lib members poly).eval (lib.setLittleEndian self),
        (groupPoly lib members poly).eval 0 • lib.base) := by
  classical
  have hall : ∀ {M : Type} [AddCommGroup M] [Module F M] (y : PeerInfo F G₂ → M),
      atZero ((⟨self, c.pub, c.gsec⟩ :: peers).map fun v => lib.setLittleEndian v.peer)
          ((⟨self, c.pub, c.gsec⟩ :: peers).map y)
        = some (∑ b ∈ members.toFinset,
          weight members.toFinset lib.setLittleEndian b • y (entry lib poly self b)) := by
    intro M _ _ y
    rw [atZero_perm hperm, List.map_map, List.map_map]
    exact atZero_map hn hids hzero fun b => y (entry lib poly self b)
  unfold recoverKey
  dsimp only
  rw [hall, hall, Option.getD_some, Option.getD_some, groupPoly, eval_joint, eval_joint,
    Finset.sum_smul]
  refine congrArg₂ Prod.mk (Finset.sum_congr rfl fun b _ => ?_)
    (Finset.sum_congr rfl fun b _ => ?_)
  · rw [eval_toPoly, smul_eq_mul]
    rfl
  · rw [eval_toPoly, horner_zero, List.headD_cons, mul_smul]
    rfl

/-- **Enough shares make the group's signature.** -/
theorem BlsGroup.verigy_shares {p : F[X]} {g : BlsGroup F G₂} (hpub : g.pub = p.eval 0 • lib.base)
    {signers : List Address} (hlen : 2 ≤ signers.length)
    (hids : (signers.map lib.setLittleEndian).Nodup) (hzero : 0 ∉ signers.map lib.setLittleEndian)
    (hdegree : p.degree < signers.length) (msg : Bytes) :
    g.verigy lib (signers.map fun s =>
        ⟨lib.setLittleEndian s, p.eval (lib.setLittleEndian s) • lib.hashTo msg⟩) msg
      = some (true, p.eval 0 • lib.hashTo msg) := by
  have hnodup : signers.Nodup := hids.of_map _
  have hrecover : atZero (signers.map lib.setLittleEndian)
      (signers.map fun s => p.eval (lib.setLittleEndian s) • lib.hashTo msg)
        = some (p.eval 0 • lib.hashTo msg) := by
    rw [atZero_map hlen hids hzero, sum_weight_smul _ _ (lib.hashTo msg)]
    · intro s hs s' hs' heq
      exact List.inj_on_of_nodup_map hids (List.mem_toFinset.mp hs) (List.mem_toFinset.mp hs') heq
    · rwa [List.toFinset_card_of_nodup hnodup]
  have hverify : lib.verify (p.eval 0 • lib.hashTo msg) g.pub msg = true :=
    (lib.verify_iff _ _ _).mpr ⟨p.eval 0, hpub, rfl⟩
  obtain ⟨last, hlast⟩ : ∃ last, (signers.map fun s => (⟨lib.setLittleEndian s,
      p.eval (lib.setLittleEndian s) • lib.hashTo msg⟩ : BlsSign F G₁)).getLast? = some last := by
    rw [← Option.isSome_iff_exists, List.getLast?_isSome]
    exact fun h => by simp [List.map_eq_nil_iff.mp h] at hlen
  rw [BlsGroup.verigy, hlast, Option.map_some]
  simp only [List.map_map, Function.comp_def, hrecover, Option.getD_some, hverify]

/-- **A quorum's signature**: if the members' keys are shares of one polynomial, any members that
are more than its degree make its value at zero times the hash. -/
theorem BlsGroup.verigy_quorum {p : F[X]} {group : Address → BlsGroup F G₂}
    (hids : (members.map lib.setLittleEndian).Nodup) (hzero : 0 ∉ members.map lib.setLittleEndian)
    (hkeys : ∀ a ∈ members, (group a).selfID = lib.setLittleEndian a ∧
      (group a).key = (p.eval (lib.setLittleEndian a), p.eval 0 • lib.base)) {msg : Bytes}
    {signers : List Address} (hnodup : signers.Nodup) (hsub : signers ⊆ members)
    (hlen : 2 ≤ signers.length) (hdegree : p.degree < signers.length) {a : Address}
    (ha : a ∈ members) :
    (group a).verigy lib (signers.map fun s => (group s).sign lib msg) msg
      = some (true, p.eval 0 • lib.hashTo msg) := by
  have hsigns : signers.map (fun s => (group s).sign lib msg) = signers.map fun s =>
      ⟨lib.setLittleEndian s, p.eval (lib.setLittleEndian s) • lib.hashTo msg⟩ :=
    List.map_congr_left fun s hs => by
      obtain ⟨hid, hkey⟩ := hkeys s (hsub hs)
      rw [BlsGroup.sign, hid, show (group s).sec = _ from congrArg Prod.fst hkey]
  rw [hsigns]
  exact BlsGroup.verigy_shares (congrArg Prod.snd (hkeys a ha).2) hlen
    (hnodup.map_on fun s hs s' hs' h => List.inj_on_of_nodup_map hids (hsub hs) (hsub hs') h)
    (fun h => hzero (List.map_subset _ hsub h)) hdegree msg

/-! ## A member's key -/

variable [DecidableEq G₂]

/-- **A member's group after the exchange**, and after its goroutine has taken every signal. -/
theorem Exchange.key (hx : Exchange lib gid members poly first self es)
    (hready : ∀ a ∈ members, Ready lib gid a members (before a) (first a))
    (hpoly : ∀ a ∈ members, (poly a).2.length = members.length / 2) (hn : 2 ≤ members.length)
    (hids : (members.map lib.setLittleEndian).Nodup) (hzero : 0 ∉ members.map lib.setLittleEndian)
    (hself : self ∈ members) {nd : Node F G₂} (hrun : (before self).run lib es = some nd) :
    ∃ g, nd.groups gid = some g ∧ g.selfID = lib.setLittleEndian self ∧
      (∃ nd', Completes lib gid nd nd') ∧
      (Quiet gid nd → g.isCreate = true ∧
        g.key = ((groupPoly lib members poly).eval (lib.setLittleEndian self),
          (groupPoly lib members poly).eval 0 • lib.base)) := by
  have hr := hready self hself
  have hnodup : members.Nodup := hids.of_map _
  obtain ⟨g, p⟩ := (Progress.start hr.group hr.psec hr.collector hr.pending).run
    (by rw [hr.self_eq, hr.members_eq]; exact hself) (by rw [hr.n, hr.members_eq]) hrun
    (noForeignShare hready hself hx)
  rw [List.nil_append] at p
  have hcollector := p.collector.trans (collector hready hself hx hpoly hn)
  have hperm := received_perm hready hself hx hpoly hn hnodup
  have hpsec : nd.psec.Perm ((members.erase self).map (entry lib poly self)) := by
    rw [p.psec, hr.self_eq]
    exact hperm
  have hfull : nd.psec.length = (first self).n - 1 := by
    rw [hpsec.length_eq, List.length_map, List.length_erase_of_mem hself, hr.n]
  have hinfos : (entry lib poly self self :: nd.psec).Perm (members.map (entry lib poly self)) :=
    (hpsec.cons _).trans ((List.perm_cons_erase hself).symm.map _)
  refine ⟨g, p.group, by rw [p.same]; exact hr.selfID, p.exists_completes hcollector,
    fun hquiet => ?_⟩
  obtain ⟨hcreate, c, hc, hkey⟩ := p.key_final hfull (by rw [hr.n]; exact hn) (hquiet g p.group)
  rw [hcollector, Option.some.injEq] at hc
  subst hc
  rw [hr.self_eq, recoverKey_entries hn hids hzero hinfos] at hkey
  exact ⟨hcreate, hkey⟩

/-- **Key generation is correct**: after the exchange every member can finish, and when all have,
they have the same public key, and the shares of at least `n / 2 + 1` members verify under it. -/
theorem key_generation (lib : Library F G₁ G₂) (gid : ℕ) (members : List Address)
    (hn : 2 ≤ members.length) (hids : (members.map lib.setLittleEndian).Nodup)
    (hzero : 0 ∉ members.map lib.setLittleEndian) (poly : Address → F × List F)
    (hpoly : ∀ a ∈ members, (poly a).2.length = members.length / 2)
    (before after : Address → Node F G₂) (first : Address → BlsGroup F G₂)
    (events : Address → List (Event F G₂))
    (hready : ∀ a ∈ members, Ready lib gid a members (before a) (first a))
    (hexchange : ∀ a ∈ members, Exchange lib gid members poly first a (events a))
    (hrun : ∀ a ∈ members, (before a).run lib (events a) = some (after a)) :
    (∀ a ∈ members, ∃ nd, Completes lib gid (after a) nd) ∧
    ∀ done : Address → Node F G₂, (∀ a ∈ members, Completes lib gid (after a) (done a)) →
      ∃ (pub : G₂) (group : Address → BlsGroup F G₂),
        (∀ a ∈ members, (done a).groups gid = some (group a) ∧ (group a).isCreate = true ∧
          (group a).pub = pub) ∧
        ∀ (msg : Bytes) (signers : List Address), signers.Nodup → signers ⊆ members →
          members.length / 2 + 1 ≤ signers.length → ∀ a ∈ members, ∃ sig,
            (group a).verigy lib (signers.map fun s => (group s).sign lib msg) msg
              = some (true, sig) := by
  refine ⟨fun a ha => ?_, fun done hdone => ?_⟩
  · obtain ⟨g, -, -, hcompletes, -⟩ :=
      (hexchange a ha).key hready hpoly hn hids hzero ha (hrun a ha)
    exact hcompletes
  have hkeys : ∀ a ∈ members, ∃ g, (done a).groups gid = some g ∧
      g.selfID = lib.setLittleEndian a ∧ g.isCreate = true ∧
      g.key = ((groupPoly lib members poly).eval (lib.setLittleEndian a),
        (groupPoly lib members poly).eval 0 • lib.base) := by
    intro a ha
    obtain ⟨orders, hcollects, hquiet⟩ := hdone a ha
    have hall : (before a).run lib (events a ++ orders.map (.collect gid)) = some (done a) := by
      rw [Node.run, List.foldlM_append, ← Node.run, hrun a ha]
      exact hcollects
    obtain ⟨g, hg, hid, -, hkey⟩ :=
      ((hexchange a ha).append_collects orders).key hready hpoly hn hids hzero ha hall
    exact ⟨g, hg, hid, hkey hquiet⟩
  have : Nonempty (BlsGroup F G₂) := ⟨first (.zero 20)⟩
  choose! group hgroup hid hcreate hkey using hkeys
  refine ⟨(groupPoly lib members poly).eval 0 • lib.base, group, fun a ha =>
    ⟨hgroup a ha, hcreate a ha, congrArg Prod.snd (hkey a ha)⟩, ?_⟩
  intro msg signers hnodup hsub hlen a ha
  refine ⟨_, BlsGroup.verigy_quorum hids hzero (fun s hs => ⟨hid s hs, hkey s hs⟩) hnodup hsub
    (by omega) ?_ ha⟩
  exact lt_of_lt_of_le (degree_groupPoly_lt hpoly) (by exact_mod_cast hlen)

omit [DecidableEq G₂] in
/-- **Every quorum makes the same signature.**  If the members' keys are shares of one polynomial,
as they are after the exchange, then any members that are more than its degree make one and the same
signature, and it verifies before every member. -/
theorem same_signature (p : F[X]) (group : Address → BlsGroup F G₂)
    (hids : (members.map lib.setLittleEndian).Nodup) (hzero : 0 ∉ members.map lib.setLittleEndian)
    (hkeys : ∀ a ∈ members, (group a).selfID = lib.setLittleEndian a ∧
      (group a).key = (p.eval (lib.setLittleEndian a), p.eval 0 • lib.base)) (msg : Bytes) :
    ∃ sig, ∀ signers : List Address, signers.Nodup → signers ⊆ members → 2 ≤ signers.length →
      p.degree < signers.length → ∀ a ∈ members,
        (group a).verigy lib (signers.map fun s => (group s).sign lib msg) msg
          = some (true, sig) :=
  ⟨p.eval 0 • lib.hashTo msg, fun _ hnodup hsub hlen hdegree _ ha =>
    BlsGroup.verigy_quorum hids hzero hkeys hnodup hsub hlen hdegree ha⟩

end Generation

/-! ## Three members -/

namespace Sample

/-- Three members. -/
def trio : List Address := [peer 1, peer 2, peer 3]

variable (a : Address)

/-- Their polynomials. -/
def trioPoly : ZMod 5 × List (ZMod 5) := (curve.setLittleEndian a, [curve.base])

/-- A member's node. -/
def trioNode : Node (ZMod 5) (ZMod 5) where
  psec := []
  groups i := if i = 0 then some (group 0 a trio) else none

/-- A member with a share of `X + 1`. -/
def shared : BlsGroup (ZMod 5) (ZMod 5) :=
  { group 0 a trio with sec := curve.setLittleEndian a + 1, pub := curve.base }

/-- The messages to a member, with a given `Times`. -/
def trioMessages (times : ℕ) : List (Event (ZMod 5) (ZMod 5)) :=
  (trio.filter fun b => b ≠ a).map fun b =>
    .deliver { (group 0 b trio).message curve (trioPoly b).1 (trioPoly b).2 with times := times }

/-- A member receives everything twice. -/
def trioEvents : List (Event (ZMod 5) (ZMod 5)) :=
  .create 0 (trioPoly a).1 (trioPoly a).2 :: (trioMessages a 0 ++ trioMessages a 1)

theorem ready_trio : Ready curve 0 a trio (trioNode a) (group 0 a trio) :=
  ⟨rfl, rfl, rfl, rfl, rfl, rfl, rfl, rfl, rfl, rfl⟩

theorem exchange_trio :
    Exchange curve 0 trio trioPoly (fun b => group 0 b trio) a (trioEvents a) where
  events e he := by
    have hdeliver : ∀ {times : ℕ}, e ∈ trioMessages a times → ∃ b ∈ trio, b ≠ a ∧ ∃ times,
        e = .deliver { (group 0 b trio).message curve (trioPoly b).1 (trioPoly b).2 with
          times := times } := by
      intro times he
      obtain ⟨b, hb, rfl⟩ := List.mem_map.mp he
      rw [List.mem_filter, decide_eq_true_eq] at hb
      exact ⟨b, hb.1, hb.2, times, rfl⟩
    rcases List.mem_cons.mp he with he | he
    · exact .inl he
    · rcases List.mem_append.mp he with he | he
      · exact .inr (.inl (hdeliver he))
      · exact .inr (.inl (hdeliver he))
  create := List.mem_cons_self
  deliver b hb hne := by
    refine ⟨0, List.mem_cons_of_mem _ (List.mem_append_left _ (List.mem_map.mpr ⟨b, ?_, rfl⟩))⟩
    rw [List.mem_filter, decide_eq_true_eq]
    exact ⟨hb, hne⟩

end Sample

open Sample in
/-- Two of three members sign. -/
theorem key_generation_trio : ∃ (pub : ZMod 5) (group : Address → BlsGroup (ZMod 5) (ZMod 5)),
    (∀ a ∈ trio, (group a).isCreate = true ∧ (group a).pub = pub) ∧
      ∀ a ∈ trio, ∃ sig, (group a).verigy curve
        ([peer 3, peer 1].map fun s => (group s).sign curve [7]) [7] = some (true, sig) := by
  have hrun : ∀ a ∈ trio, ((trioNode a).run curve (trioEvents a)).isSome = true := by decide +kernel
  simp only [Option.isSome_iff_exists] at hrun
  have : Nonempty (Node (ZMod 5) (ZMod 5)) := ⟨trioNode (peer 1)⟩
  choose! after hafter using hrun
  obtain ⟨hcan, hdone⟩ := key_generation curve 0 trio (by decide +kernel) (by decide +kernel)
    (by decide +kernel) trioPoly (fun _ _ => rfl) trioNode after (fun b => Sample.group 0 b trio)
    trioEvents (fun a _ => ready_trio a) (fun a _ => exchange_trio a) hafter
  choose! done hcompletes using hcan
  obtain ⟨pub, group, hgroup, hsign⟩ := hdone done hcompletes
  exact ⟨pub, group, fun a ha => (hgroup a ha).2, hsign [7] [peer 3, peer 1] (by decide +kernel)
    (by decide +kernel) (by decide +kernel)⟩

open Sample in
/-- Two pairs of three members. -/
theorem same_signature_trio : ∃ sig, ∀ signers ∈ [[peer 1, peer 2], [peer 3, peer 1]],
    (shared (peer 2)).verigy curve (signers.map fun s => (shared s).sign curve [7]) [7]
      = some (true, sig) := by
  have hall : ∀ l ∈ [[peer 1, peer 2], [peer 3, peer 1]], l.Nodup ∧ l ⊆ trio ∧ l.length = 2 := by
    decide +kernel
  obtain ⟨sig, h⟩ := same_signature (Polynomial.X + Polynomial.C 1) shared
    (show (trio.map curve.setLittleEndian).Nodup by decide +kernel) (by decide +kernel)
    (fun a _ => ⟨rfl, by simp [shared, BlsGroup.key]⟩) [7]
  refine ⟨sig, fun signers hmem => ?_⟩
  obtain ⟨hnodup, hsub, hlen⟩ := hall signers hmem
  refine h signers hnodup hsub hlen.ge ?_ (peer 2) (by decide +kernel)
  rw [hlen, Polynomial.degree_X_add_C]
  norm_num

end Gocoin.Bls
