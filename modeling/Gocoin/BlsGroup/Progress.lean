import Mathlib.Algebra.Field.ZMod
import Gocoin.BlsGroup.Keys

/-!
# BlsGroup/Progress — a group among the others of its node

The map `psec` belongs to the node and not to a group, so what a group finds there depends on every
message.  As long as the messages of other groups and of strangers bring no share for the node,
the map holds what the group's own members sent, and a run says of the group no more than its own
events do (`Progress`): the map is what was received, nothing waits before it is complete, and the
keys are the first ones until then and the recovered ones afterwards.

Two runs with the same own events therefore end with the same keys (`keys_eq_of_own_events`).  A
share from elsewhere is counted and interpolated like any other (`foreign_share_counts`).
-/

namespace Gocoin.Bls

open Interpolation

variable {F G₁ G₂ : Type}

/-! ## A group's own events -/

/-- A message for the group from another of its members. -/
def Event.ownMessage (gid : ℕ) (group : BlsGroup F G₂) : Event F G₂ → Option (BlsMsg F G₂)
  | .deliver msg =>
    if msg.gid = gid ∧ msg.addr ∈ group.members ∧ msg.addr ≠ group.self then some msg else none
  | _ => none

theorem Event.ownMessage_eq_some {gid : ℕ} {group : BlsGroup F G₂} {e : Event F G₂}
    {msg : BlsMsg F G₂} : e.ownMessage gid group = some msg ↔
      e = .deliver msg ∧ msg.gid = gid ∧ msg.addr ∈ group.members ∧ msg.addr ≠ group.self := by
  cases e with
  | create gid' sec random | collect gid' order => simp [Event.ownMessage]
  | deliver m =>
    simp only [Event.ownMessage, Option.ite_none_right_eq_some, Option.some.injEq,
      Event.deliver.injEq]
    constructor
    · rintro ⟨hown, rfl⟩
      exact ⟨rfl, hown⟩
    · rintro ⟨rfl, hown⟩
      exact ⟨hown, rfl⟩

/-- The start of the group's key, with its polynomial. -/
def Event.creation (gid : ℕ) : Event F G₂ → Option (F × List F)
  | .create gid' sec random => if gid' = gid then some (sec, random) else none
  | _ => none

/-- Nothing but the group's own messages brings a share for the node. -/
def NoForeignShare (gid : ℕ) (group : BlsGroup F G₂) (nd : Node F G₂) (es : List (Event F G₂)) :
    Prop :=
  ∀ msg, Event.deliver msg ∈ es → Event.ownMessage gid group (.deliver msg) = none →
    ∀ other, nd.groups msg.gid = some other → share other.self msg.mastersec = none

/-- What a list of messages leaves in an empty map. -/
def received (self : Address) (ms : List (BlsMsg F G₂)) : List (PeerInfo F G₂) :=
  ms.foldl (record self) []

/-- No call waits for the group's goroutine. -/
def Quiet (gid : ℕ) (nd : Node F G₂) : Prop :=
  ∀ group, nd.groups gid = some group → group.pending = 0

theorem received_concat (self : Address) (ms : List (BlsMsg F G₂)) (msg : BlsMsg F G₂) :
    received self (ms ++ [msg]) = record self (received self ms) msg := by
  rw [received, List.foldl_append]
  rfl

/-- A message leaves the map alone, for it has no share or its sender is there, or its entry comes
last. -/
theorem record_cases (self : Address) (psec : List (PeerInfo F G₂)) (msg : BlsMsg F G₂) :
    record self psec msg = psec ∧
        (share self msg.mastersec = none ∨ ∃ v ∈ psec, v.peer = msg.addr) ∨
      ∃ sec, share self msg.mastersec = some sec ∧ (∀ v ∈ psec, v.peer ≠ msg.addr) ∧
        record self psec msg = psec ++ [⟨msg.addr, msg.pub, sec⟩] := by
  unfold record
  by_cases hany : (psec.any fun v => v.peer = msg.addr) = true
  · rw [if_pos hany]
    exact .inl ⟨rfl, .inr (by simpa using hany)⟩
  · rw [if_neg hany]
    cases hs : share self msg.mastersec with
    | none => exact .inl ⟨rfl, .inl rfl⟩
    | some sec => exact .inr ⟨sec, rfl, by simpa using hany, rfl⟩

theorem record_of_share_none {self : Address} {msg : BlsMsg F G₂}
    (h : share self msg.mastersec = none) (psec : List (PeerInfo F G₂)) :
    record self psec msg = psec := by
  unfold record
  rw [h, ite_self]

/-- The senders in the map are different, and each sent one of the messages. -/
theorem peers_received (self : Address) (ms : List (BlsMsg F G₂)) :
    ((received self ms).map PeerInfo.peer).Nodup ∧
      ∀ v ∈ received self ms, ∃ msg ∈ ms, v.peer = msg.addr := by
  induction ms using List.reverseRecOn with
  | nil => exact ⟨List.nodup_nil, by simp [received]⟩
  | append_singleton ms msg ih =>
    rw [received_concat]
    rcases record_cases self (received self ms) msg with ⟨hsame, -⟩ | ⟨sec, -, hnew, hcons⟩
    · rw [hsame]
      exact ⟨ih.1, fun v hv => (ih.2 v hv).imp fun m hm => ⟨List.mem_append_left _ hm.1, hm.2⟩⟩
    · rw [hcons]
      refine ⟨?_, fun v hv => ?_⟩
      · rw [List.map_append, List.map_singleton, ← List.concat_eq_append, List.nodup_concat]
        exact ⟨by simpa using hnew, ih.1⟩
      · rcases List.mem_append.mp hv with hv | hv
        · exact (ih.2 v hv).imp fun m hm => ⟨List.mem_append_left _ hm.1, hm.2⟩
        · rw [List.mem_singleton] at hv
          exact ⟨msg, by simp, by rw [hv]⟩

/-- **The map never outgrows the group.** -/
theorem length_received_le (gid : ℕ) {group : BlsGroup F G₂} (hself : group.self ∈ group.members)
    (es : List (Event F G₂)) :
    (received group.self (es.filterMap (Event.ownMessage gid group))).length
      ≤ group.members.length - 1 := by
  obtain ⟨hnodup, hsent⟩ :=
    peers_received group.self (es.filterMap (Event.ownMessage gid group))
  have hsub : (received group.self (es.filterMap (Event.ownMessage gid group))).map PeerInfo.peer
      ⊆ group.members.erase group.self := by
    intro a ha
    obtain ⟨v, hv, rfl⟩ := List.mem_map.mp ha
    obtain ⟨msg, hmsg, haddr⟩ := hsent v hv
    obtain ⟨e, -, he⟩ := List.mem_filterMap.mp hmsg
    obtain ⟨-, -, hmem, hne⟩ := Event.ownMessage_eq_some.mp he
    rw [haddr]
    exact (List.mem_erase_of_ne hne).mpr hmem
  have hle := (hnodup.subperm hsub).length_le
  rwa [List.length_map, List.length_erase_of_mem hself] at hle

section Runs

variable [Field F] [DecidableEq F] [AddCommGroup G₁] [Module F G₁] [AddCommGroup G₂] [Module F G₂]
  [DecidableEq G₂]

/-! ## What a run says of a group -/

/-- Every group keeps its own address. -/
theorem Node.self_of_step {lib : Library F G₁ G₂} {nd nd' : Node F G₂} {e : Event F G₂}
    (hstep : nd.step lib e = some nd') {i : ℕ} {other : BlsGroup F G₂}
    (hother : nd'.groups i = some other) :
    ∃ first, nd.groups i = some first ∧ first.self = other.self := by
  have put : ∀ {gid : ℕ} {g g' : BlsGroup F G₂}, nd.groups gid = some g →
      (nd.put gid g').groups i = some other → g'.self = g.self →
        ∃ first, nd.groups i = some first ∧ first.self = other.self := by
    intro gid g g' hg h hself
    by_cases hi : i = gid
    · subst hi
      rw [nd.groups_put, Option.some.injEq] at h
      exact ⟨g, hg, by rw [← h, hself]⟩
    · rw [nd.groups_put_of_ne _ hi] at h
      exact ⟨other, h, rfl⟩
  cases e with
  | create gid sec random =>
    simp only [Node.step, Option.bind_eq_some_iff, Option.ite_none_right_eq_some,
      Option.some.injEq] at hstep
    obtain ⟨g, hg, -, rfl⟩ := hstep
    exact put hg hother rfl
  | collect gid order =>
    simp only [Node.step, Option.bind_eq_some_iff, Option.ite_none_right_eq_some,
      Option.map_eq_some_iff] at hstep
    obtain ⟨g, hg, -, g', hcollect, rfl⟩ := hstep
    obtain ⟨c, p, -, -, rfl⟩ := BlsGroup.collect_eq_some hcollect
    exact put hg hother rfl
  | deliver msg =>
    simp only [Node.step, Option.some.injEq, Node.addMsg] at hstep
    subst hstep
    cases hg : nd.groups msg.gid with
    | none =>
      rw [hg] at hother
      exact ⟨other, hother, rfl⟩
    | some g =>
      rw [hg] at hother
      refine put hg hother ?_
      unfold BlsGroup.addMsg
      dsimp only
      split_ifs <;> rfl

/-- **The group after a run**, from the group before it and its own events. -/
structure Progress (lib : Library F G₁ G₂) (gid : ℕ) (g₀ : BlsGroup F G₂) (es : List (Event F G₂))
    (nd : Node F G₂) (g : BlsGroup F G₂) : Prop where
  group : nd.groups gid = some g
  psec : nd.psec = received g₀.self (es.filterMap (Event.ownMessage gid g₀))
  same : g = { g₀ with
    sec := g.sec
    pub := g.pub
    isCreate := g.isCreate
    collector := g.collector
    pending := g.pending }
  collector : g.collector
    = (es.filterMap (Event.creation gid)).head?.map fun p => g₀.dealing lib p.1 p.2
  pending : 0 < g.pending → nd.psec.length = g₀.n - 1
  key_initial : nd.psec.length ≠ g₀.n - 1 → g.key = g₀.key
  key_cases : g.key = g₀.key ∨
    ∃ c, g.collector = some c ∧ g.key = recoverKey lib g₀.self c nd.psec g₀.key
  key_final : nd.psec.length = g₀.n - 1 → 2 ≤ g₀.n → g.pending = 0 → g.isCreate = true ∧
    ∃ c, g.collector = some c ∧ g.key = recoverKey lib g₀.self c nd.psec g₀.key

namespace Progress

variable {lib : Library F G₁ G₂} {gid : ℕ} {g₀ g g' : BlsGroup F G₂} {es : List (Event F G₂)}
  {nd nd' : Node F G₂} {e : Event F G₂}

theorem start (hgroup : nd.groups gid = some g₀) (hpsec : nd.psec = [])
    (hcollector : g₀.collector = none) (hpending : g₀.pending = 0) :
    Progress lib gid g₀ [] nd g₀ where
  group := hgroup
  psec := hpsec
  same := rfl
  collector := hcollector
  pending h := absurd h (by omega)
  key_initial _ := rfl
  key_cases := .inl rfl
  key_final hfull hn _ := by
    rw [hpsec, List.length_nil] at hfull
    omega

/-- An event that neither starts the key nor takes a signal: the map stays or was not complete, and
a new signal means that it is complete. -/
theorem advance (p : Progress lib gid g₀ es nd g) (hgroup : nd'.groups gid = some g')
    (hpsec : nd'.psec = received g₀.self ((es ++ [e]).filterMap (Event.ownMessage gid g₀)))
    (hcreation : e.creation gid = none) (hsame : g' = { g with pending := g'.pending })
    (hkeep : nd'.psec = nd.psec ∨ nd.psec.length ≠ g₀.n - 1)
    (hsignal : g'.pending = g.pending ∧ (nd'.psec = nd.psec ∨ nd'.psec.length ≠ g₀.n - 1) ∨
      g'.pending = g.pending + 1 ∧ nd'.psec.length = g₀.n - 1) :
    Progress lib gid g₀ (es ++ [e]) nd' g' := by
  have hkey : g'.key = g.key := by rw [hsame]; rfl
  have hcollector : g'.collector = g.collector := by rw [hsame]
  refine ⟨hgroup, hpsec, ?_, ?_, fun hpos => ?_, fun hopen => ?_, ?_, fun hfull hn hzero => ?_⟩
  · rw [hsame, p.same]
  · rw [hcollector, p.collector, List.filterMap_append, List.filterMap_cons_none hcreation,
      List.filterMap_nil, List.append_nil]
  · rcases hsignal with ⟨hpending, -⟩ | ⟨-, hfull⟩
    · have hfull := p.pending (hpending ▸ hpos)
      rw [hkeep.resolve_right (not_not.mpr hfull)]
      exact hfull
    · exact hfull
  · rw [hkey]
    refine p.key_initial ?_
    rcases hkeep with hsamePsec | hopen'
    · rwa [← hsamePsec]
    · exact hopen'
  · rw [hkey, hcollector]
    rcases hkeep with hsamePsec | hopen
    · rw [hsamePsec]
      exact p.key_cases
    · exact .inl (p.key_initial hopen)
  · rcases hsignal with ⟨hpending, hsamePsec | hopen⟩ | ⟨hpending, -⟩
    · rw [hkey, hcollector, hsamePsec, hsame]
      exact p.key_final (hsamePsec ▸ hfull) hn (hpending ▸ hzero)
    · exact absurd hfull hopen
    · omega

/-- An event of other groups. -/
theorem stutter (p : Progress lib gid g₀ es nd g) (hgroup : nd'.groups gid = nd.groups gid)
    (hpsec : nd'.psec = nd.psec) (hown : e.ownMessage gid g₀ = none)
    (hcreation : e.creation gid = none) : Progress lib gid g₀ (es ++ [e]) nd' g := by
  refine p.advance (hgroup.trans p.group) ?_ hcreation rfl (.inl hpsec) (.inl ⟨rfl, .inl hpsec⟩)
  rw [hpsec, p.psec, List.filterMap_append, List.filterMap_cons_none hown, List.filterMap_nil,
    List.append_nil]

omit [DecidableEq G₂] in
/-- The group starts to make its key. -/
theorem create (p : Progress lib gid g₀ es nd g) (hcollector : g.collector = none) (sec : F)
    (random : List F) :
    Progress lib gid g₀ (es ++ [.create gid sec random])
      (nd.put gid (g.createBlsGroup lib sec random).1) (g.createBlsGroup lib sec random).1 := by
  have hdealing : g.dealing lib sec random = g₀.dealing lib sec random := by rw [p.same]; rfl
  have hnil : es.filterMap (Event.creation gid) = [] := by
    have h := p.collector
    rw [hcollector, eq_comm, Option.map_eq_none_iff, List.head?_eq_none_iff] at h
    exact h
  have hkey : g.key = g₀.key := by
    rcases p.key_cases with h | ⟨c, hc, -⟩
    · exact h
    · rw [hcollector] at hc
      cases hc
  refine ⟨nd.groups_put gid _, ?_, ?_, ?_, p.pending, p.key_initial, .inl hkey,
    fun hfull hn hzero => ?_⟩
  · rw [Node.psec_put, p.psec, List.filterMap_append]
    exact congrArg _ (List.append_nil _).symm
  · exact congrArg (fun h => { h with collector := some (g.dealing lib sec random) }) p.same
  · rw [List.filterMap_append, hnil]
    simp [BlsGroup.createBlsGroup, Event.creation, hdealing]
  · obtain ⟨-, c, hc, -⟩ := p.key_final hfull hn hzero
    rw [hcollector] at hc
    cases hc

omit [DecidableEq G₂] in
/-- The goroutine takes a signal. -/
theorem collect (p : Progress lib gid g₀ es nd g) {order : List (PeerInfo F G₂)}
    (horder : order.Perm nd.psec) (hcollect : g.collect lib order = some g') :
    Progress lib gid g₀ (es ++ [.collect gid order]) (nd.put gid g') g' := by
  obtain ⟨c, n, hc, hn, rfl⟩ := BlsGroup.collect_eq_some hcollect
  have hself : g.self = g₀.self := by rw [p.same]
  have hfull := p.pending (by omega)
  have hkey : recoverKey lib g.self c order g.key = recoverKey lib g₀.self c nd.psec g₀.key := by
    rw [hself, recoverKey_perm lib _ c horder]
    rcases p.key_cases with h | ⟨c', hc', h⟩
    · rw [h]
    · rw [hc, Option.some.injEq] at hc'
      rw [h, ← hc', recoverKey_idem]
  refine ⟨nd.groups_put gid _, ?_, ?_, ?_, fun _ => hfull, fun h => absurd hfull h,
    .inr ⟨c, hc, hkey⟩, fun _ _ _ => ⟨rfl, c, hc, hkey⟩⟩
  · rw [Node.psec_put, p.psec, List.filterMap_append]
    exact congrArg _ (List.append_nil _).symm
  · exact congrArg (fun h => { h with
      sec := (recoverKey lib g.self c order g.key).1
      pub := (recoverKey lib g.self c order g.key).2
      isCreate := true
      pending := n }) p.same
  · rw [List.filterMap_append]
    exact p.collector.trans (congrArg _ (congrArg _ (List.append_nil _).symm))

section

variable (hself : g₀.self ∈ g₀.members)
include hself

/-- A message arrives for the group. -/
theorem deliver (hn : g₀.n = g₀.members.length) (p : Progress lib gid g₀ es nd g)
    {msg : BlsMsg F G₂} (hgid : msg.gid = gid)
    (hforeign : Event.ownMessage gid g₀ (.deliver msg) = none →
      share g₀.self msg.mastersec = none) :
    ∃ g', Progress lib gid g₀ (es ++ [.deliver msg]) (nd.addMsg msg) g' := by
  have hgself : g.self = g₀.self := by rw [p.same]
  have hgn : g.n = g₀.n := by rw [p.same]
  have hpos : g.n ≠ 0 := by
    rw [hgn, hn]
    exact (List.length_pos_of_mem hself).ne'
  have hnode : nd.addMsg msg
      = { nd.put gid (g.addMsg nd.psec msg).1 with psec := (g.addMsg nd.psec msg).2 } := by
    rw [Node.addMsg, hgid, p.group]
  obtain ⟨hrecord, hcases⟩ := BlsGroup.addMsg_cases hpos nd.psec msg
  rw [hgself] at hrecord
  have hpsec : (nd.addMsg msg).psec = record g₀.self nd.psec msg := by rw [hnode]; exact hrecord
  have hreceived : (nd.addMsg msg).psec
      = received g₀.self ((es ++ [Event.deliver msg]).filterMap (Event.ownMessage gid g₀)) := by
    rw [hpsec, List.filterMap_append]
    cases hown : Event.ownMessage gid g₀ (.deliver msg) with
    | none =>
      rw [List.filterMap_cons_none hown, List.filterMap_nil, List.append_nil, ← p.psec,
        record_of_share_none (hforeign hown)]
    | some msg' =>
      obtain ⟨hmsg, -⟩ := Event.ownMessage_eq_some.mp hown
      rw [Event.deliver.injEq] at hmsg
      rw [List.filterMap_cons_some hown, List.filterMap_nil, received_concat, ← p.psec, hmsg]
  have hkeep : (nd.addMsg msg).psec = nd.psec ∨ nd.psec.length ≠ g₀.n - 1 := by
    rcases record_cases g₀.self nd.psec msg with ⟨hsame, -⟩ | ⟨sec, -, -, hnew⟩
    · exact .inl (hpsec.trans hsame)
    · have hle := length_received_le gid hself (es ++ [.deliver msg])
      rw [← hreceived, hpsec, hnew, List.length_append, List.length_singleton] at hle
      right
      omega
  have hgroup : (nd.addMsg msg).groups gid = some (g.addMsg nd.psec msg).1 := by
    rw [hnode]
    exact nd.groups_put gid _
  rcases hcases with ⟨hg, hrest⟩ | ⟨hg, hfull⟩
  · rw [hgself, hgn, ← hpsec] at hrest
    exact ⟨g, p.advance (hg ▸ hgroup) hreceived rfl rfl hkeep (.inl ⟨rfl, hrest⟩)⟩
  · rw [hgself, hgn, ← hpsec] at hfull
    exact ⟨_, p.advance (hgroup.trans (congrArg some hg)) hreceived rfl rfl hkeep
      (.inr ⟨rfl, hfull⟩)⟩

/-- **What one event does.** -/
theorem step (hn : g₀.n = g₀.members.length)
    (p : Progress lib gid g₀ es nd g) (hstep : nd.step lib e = some nd')
    (hforeign : NoForeignShare gid g₀ nd [e]) :
    ∃ g', Progress lib gid g₀ (es ++ [e]) nd' g' := by
  cases e with
  | create gid' sec random =>
    simp only [Node.step, Option.bind_eq_some_iff, Option.ite_none_right_eq_some,
      Option.some.injEq] at hstep
    obtain ⟨group, hgroup, ⟨hcollector, -⟩, rfl⟩ := hstep
    by_cases hgid : gid' = gid
    · subst hgid
      rw [p.group, Option.some.injEq] at hgroup
      subst hgroup
      exact ⟨_, p.create hcollector sec random⟩
    · exact ⟨g, p.stutter (nd.groups_put_of_ne _ (Ne.symm hgid)) rfl rfl (if_neg hgid)⟩
  | collect gid' order =>
    simp only [Node.step, Option.bind_eq_some_iff, Option.ite_none_right_eq_some,
      Option.map_eq_some_iff] at hstep
    obtain ⟨group, hgroup, horder, group', hcollect, rfl⟩ := hstep
    by_cases hgid : gid' = gid
    · subst hgid
      rw [p.group, Option.some.injEq] at hgroup
      subst hgroup
      exact ⟨group', p.collect horder hcollect⟩
    · exact ⟨g, p.stutter (nd.groups_put_of_ne _ (Ne.symm hgid)) rfl rfl rfl⟩
  | deliver msg =>
    simp only [Node.step, Option.some.injEq] at hstep
    subst hstep
    by_cases hgid : msg.gid = gid
    · refine p.deliver hself hn hgid fun hown => ?_
      have hshare := hforeign msg List.mem_cons_self hown g (hgid ▸ p.group)
      rwa [show g.self = g₀.self by rw [p.same]] at hshare
    · have hown : Event.ownMessage gid g₀ (.deliver msg) = none := if_neg fun h => hgid h.1
      have hview : (nd.addMsg msg).groups gid = nd.groups gid ∧ (nd.addMsg msg).psec = nd.psec := by
        unfold Node.addMsg
        cases hother : nd.groups msg.gid with
        | none => exact ⟨rfl, rfl⟩
        | some other =>
          refine ⟨nd.groups_put_of_ne _ (Ne.symm hgid), ?_⟩
          have hshare := hforeign msg List.mem_cons_self hown other hother
          by_cases hpos : other.n = 0
          · exact congrArg Prod.snd (if_pos hpos)
          · exact (BlsGroup.addMsg_cases hpos nd.psec msg).1.trans (record_of_share_none hshare _)
      exact ⟨g, p.stutter hview.1 hview.2 hown rfl⟩

/-- **What a run does.** -/
theorem run (hn : g₀.n = g₀.members.length)
    {es' : List (Event F G₂)} (p : Progress lib gid g₀ es nd g) (hrun : nd.run lib es' = some nd')
    (hforeign : NoForeignShare gid g₀ nd es') :
    ∃ g', Progress lib gid g₀ (es ++ es') nd' g' := by
  induction es' generalizing es nd g with
  | nil =>
    cases hrun
    exact ⟨g, by rwa [List.append_nil]⟩
  | cons e es' ih =>
    simp only [Node.run, List.foldlM_cons, bind_eq_some] at hrun
    obtain ⟨mid, hstep, hrest⟩ := hrun
    obtain ⟨g', p'⟩ := p.step hself hn hstep fun msg hmsg =>
      hforeign msg (List.mem_cons.mpr (.inl (List.mem_singleton.mp hmsg)))
    have hforeign' : NoForeignShare gid g₀ mid es' := by
      intro msg hmsg hown other hother
      obtain ⟨first, hfirst, hsame⟩ := Node.self_of_step hstep hother
      rw [← hsame]
      exact hforeign msg (List.mem_cons_of_mem _ hmsg) hown first hfirst
    obtain ⟨g'', p''⟩ := ih p' hrest hforeign'
    rw [List.append_assoc, List.singleton_append] at p''
    exact ⟨g'', p''⟩

end

end Progress

/-- The goroutine of a group takes the signals that wait. -/
def Completes (lib : Library F G₁ G₂) (gid : ℕ) (nd nd' : Node F G₂) : Prop :=
  ∃ orders : List (List (PeerInfo F G₂)),
    nd.run lib (orders.map (.collect gid)) = some nd' ∧ Quiet gid nd'

/-- **It can always do so** once the group has started to make its key. -/
theorem Progress.exists_completes {lib : Library F G₁ G₂} {gid : ℕ} {g₀ g : BlsGroup F G₂}
    {es : List (Event F G₂)} {nd : Node F G₂} (p : Progress lib gid g₀ es nd g)
    {c : Collector F G₂} (hc : g.collector = some c) : ∃ nd', Completes lib gid nd nd' := by
  induction hp : g.pending generalizing es nd g with
  | zero =>
    refine ⟨nd, [], rfl, fun g' hg' => ?_⟩
    rw [p.group, Option.some.injEq] at hg'
    rw [← hg', hp]
  | succ n ih =>
    obtain ⟨g', hcollect, hc', hp'⟩ : ∃ g', g.collect lib nd.psec = some g' ∧
        g'.collector = some c ∧ g'.pending = n := by
      simp [BlsGroup.collect, hc, hp]
    obtain ⟨nd', orders, hrun, hquiet⟩ := ih (p.collect (.refl _) hcollect) hc' hp'
    have hstep : nd.step lib (.collect gid nd.psec) = some (nd.put gid g') := by
      rw [Node.step, p.group, Option.bind_some, if_pos (.refl _), hcollect, Option.map_some]
    refine ⟨nd', nd.psec :: orders, ?_, hquiet⟩
    rw [Node.run, List.map_cons, List.foldlM_cons, hstep]
    exact hrun

/-! ## Two runs -/

/-- The keys of a group of a node. -/
def Node.keyOf (nd : Node F G₂) (gid : ℕ) : Option (F × G₂) := (nd.groups gid).map BlsGroup.key

/-- **A group's keys depend on its own events alone** — its polynomial and the messages its other
members sent for it — when nothing else brings a share for the node. -/
theorem keys_eq_of_own_events (lib : Library F G₁ G₂) {gid : ℕ} {g₀ : BlsGroup F G₂}
    (hself : g₀.self ∈ g₀.members) (hn : g₀.n = g₀.members.length)
    (hcollector : g₀.collector = none)
    (hpending : g₀.pending = 0) {nd₁ nd₂ nd₁' nd₂' : Node F G₂} {es₁ es₂ : List (Event F G₂)}
    (hgroup₁ : nd₁.groups gid = some g₀) (hgroup₂ : nd₂.groups gid = some g₀)
    (hpsec₁ : nd₁.psec = []) (hpsec₂ : nd₂.psec = [])
    (hrun₁ : nd₁.run lib es₁ = some nd₁') (hrun₂ : nd₂.run lib es₂ = some nd₂')
    (hquiet₁ : Quiet gid nd₁') (hquiet₂ : Quiet gid nd₂')
    (hforeign₁ : NoForeignShare gid g₀ nd₁ es₁) (hforeign₂ : NoForeignShare gid g₀ nd₂ es₂)
    (hmessages : es₁.filterMap (Event.ownMessage gid g₀) = es₂.filterMap (Event.ownMessage gid g₀))
    (hcreations : es₁.filterMap (Event.creation gid) = es₂.filterMap (Event.creation gid)) :
    nd₁'.keyOf gid = nd₂'.keyOf gid := by
  obtain ⟨g₁, p₁⟩ :=
    (Progress.start hgroup₁ hpsec₁ hcollector hpending).run hself hn hrun₁ hforeign₁
  obtain ⟨g₂, p₂⟩ :=
    (Progress.start hgroup₂ hpsec₂ hcollector hpending).run hself hn hrun₂ hforeign₂
  rw [List.nil_append] at p₁ p₂
  have hpsec : nd₁'.psec = nd₂'.psec := by rw [p₁.psec, p₂.psec, hmessages]
  have hsame : g₁.collector = g₂.collector := by rw [p₁.collector, p₂.collector, hcreations]
  rw [Node.keyOf, Node.keyOf, p₁.group, p₂.group]
  refine congrArg some ?_
  show g₁.key = g₂.key
  by_cases hfull : nd₁'.psec.length = g₀.n - 1
  · by_cases hn2 : 2 ≤ g₀.n
    · obtain ⟨-, c₁, hc₁, hkey₁⟩ := p₁.key_final hfull hn2 (hquiet₁ g₁ p₁.group)
      obtain ⟨-, c₂, hc₂, hkey₂⟩ := p₂.key_final (hpsec ▸ hfull) hn2 (hquiet₂ g₂ p₂.group)
      rw [hsame, hc₂, Option.some.injEq] at hc₁
      rw [hkey₁, hkey₂, hpsec, hc₁]
    · have hkey : ∀ {nd g es}, Progress lib gid g₀ es nd g → nd.psec.length = g₀.n - 1 →
          g.key = g₀.key := by
        intro nd g es p hlen
        rcases p.key_cases with h | ⟨c, -, h⟩
        · exact h
        · rw [h, List.length_eq_zero_iff.mp (by omega : nd.psec.length = 0), recoverKey_nil]
      rw [hkey p₁ hfull, hkey p₂ (hpsec ▸ hfull)]
  · rw [p₁.key_initial hfull, p₂.key_initial (hpsec ▸ hfull)]

end Runs

/-! ## A share from another group -/

namespace Sample

instance fact_prime_five : Fact (Nat.Prime 5) := ⟨Nat.prime_five⟩

/-- Keys, signatures and identifiers modulo five. -/
def curve : Library (ZMod 5) (ZMod 5) (ZMod 5) where
  base := 1
  hashTo m := m.length
  setLittleEndian a := BigEndian.ofBytes a.bytes.reverse
  verify sig pub m := sig = pub * m.length
  verify_iff sig pub m := by simp

/-- The address with a given identifier. -/
def peer (x : UInt8) : Address := FixedBytes.ofBytes 20 [x]

/-- A group before its key is made. -/
def group (gid : ℕ) (self : Address) (members : List Address) : BlsGroup (ZMod 5) (ZMod 5) :=
  BlsGroup.set curve ⟨self, 0, gid, [], 0, 0, 0, 0, false, none, 0⟩ self members
    (members.length / 2 + 1)

/-- The message of a member, from its polynomial. -/
def message (gid : ℕ) (x : UInt8) (members : List Address) (sec : ZMod 5) (random : List (ZMod 5)) :
    BlsMsg (ZMod 5) (ZMod 5) :=
  (group gid (peer x) members).message curve sec random

/-- The entry a message leaves on the node of the first address. -/
def info (msg : BlsMsg (ZMod 5) (ZMod 5)) : List (PeerInfo (ZMod 5) (ZMod 5)) :=
  record (peer 1) [] msg

/-- The group of the first address with the third and fourth. -/
def larger : BlsGroup (ZMod 5) (ZMod 5) := group 1 (peer 1) [peer 1, peer 3, peer 4]

/-- The first address shares a group with the second, and another with the third and fourth. -/
def node : Node (ZMod 5) (ZMod 5) where
  psec := []
  groups i :=
    if i = 0 then some (group 0 (peer 1) [peer 1, peer 2])
    else if i = 1 then some larger
    else none

/-- The message of the second address, for the first group. -/
def second : BlsMsg (ZMod 5) (ZMod 5) := message 0 2 [peer 1, peer 2] 4 [3]

/-- The message of the third address, for the second group. -/
def third : BlsMsg (ZMod 5) (ZMod 5) := message 1 3 [peer 1, peer 3, peer 4] 2 [1]

/-- The message of the fourth address, for the second group. -/
def fourth : BlsMsg (ZMod 5) (ZMod 5) := message 1 4 [peer 1, peer 3, peer 4] 4 [3]

/-- The second group alone. -/
def alone : List (Event (ZMod 5) (ZMod 5)) :=
  [.create 1 2 [3], .deliver third, .deliver fourth, .collect 1 (info third ++ info fourth)]

/-- Both groups, the message of the first group before those of the second. -/
def together : List (Event (ZMod 5) (ZMod 5)) :=
  [.create 0 1 [4], .create 1 2 [3], .deliver second, .collect 0 (info second), .deliver third,
    .collect 1 (info second ++ info third), .deliver fourth]

/-- The second group and a stranger whose message has no share for the node. -/
def withStranger : List (Event (ZMod 5) (ZMod 5)) :=
  [.deliver ⟨1, peer 2, 4, 0, []⟩, .create 1 2 [3], .deliver third, .deliver ⟨0, peer 3, 0, 7, []⟩,
    .deliver fourth, .collect 1 (info fourth ++ info third)]

/-- The signals that wait for the second group, and its keys. -/
def outcome (es : List (Event (ZMod 5) (ZMod 5))) : Option (ℕ × ZMod 5 × ZMod 5) :=
  ((node.run curve es).bind fun nd => nd.groups 1).map fun g => (g.pending, g.key)

theorem quiet_of_outcome {es : List (Event (ZMod 5) (ZMod 5))} {key : ZMod 5 × ZMod 5}
    (h : outcome es = some (0, key)) : ∃ nd, node.run curve es = some nd ∧ Quiet 1 nd := by
  simp only [outcome, Option.map_eq_some_iff, Option.bind_eq_some_iff] at h
  obtain ⟨g, ⟨nd, hrun, hg⟩, hkey⟩ := h
  refine ⟨nd, hrun, fun g' hg' => ?_⟩
  rw [hg, Option.some.injEq] at hg'
  rw [← hg']
  exact congrArg Prod.fst hkey

/-- An event that brings the node no share but the second group's own. -/
def harmless : Event (ZMod 5) (ZMod 5) → Bool
  | .deliver msg => (Event.ownMessage 1 larger (.deliver msg)).isSome ||
      (node.groups msg.gid).all fun other => (share other.self msg.mastersec).isNone
  | _ => true

theorem noForeignShare_of_harmless {es : List (Event (ZMod 5) (ZMod 5))}
    (h : es.all harmless = true) : NoForeignShare 1 larger node es := by
  intro msg hmsg hown other hother
  have hcheck := List.all_eq_true.mp h _ hmsg
  simpa [harmless, hown, hother] using hcheck

end Sample

open Sample in
/-- The keys beside a stranger. -/
theorem keys_eq_beside_stranger : ∃ nd₁ nd₂, node.run curve alone = some nd₁ ∧
    node.run curve withStranger = some nd₂ ∧ nd₁.keyOf 1 = nd₂.keyOf 1 := by
  obtain ⟨nd₁, hrun₁, hquiet₁⟩ :=
    quiet_of_outcome (by decide +kernel : outcome alone = some (0, 1, 4))
  obtain ⟨nd₂, hrun₂, hquiet₂⟩ :=
    quiet_of_outcome (by decide +kernel : outcome withStranger = some (0, 1, 4))
  refine ⟨nd₁, nd₂, hrun₁, hrun₂, ?_⟩
  have hself : larger.self ∈ larger.members := by decide +kernel
  exact keys_eq_of_own_events curve hself rfl rfl rfl rfl rfl rfl rfl hrun₁ hrun₂ hquiet₁ hquiet₂
    (noForeignShare_of_harmless (by decide +kernel))
    (noForeignShare_of_harmless (by decide +kernel)) (by decide +kernel) (by decide +kernel)

open Sample in
/-- **The share of another group's member counts**: with the same own events the second group ends
with other keys. -/
theorem foreign_share_counts :
    together.filterMap (Event.ownMessage 1 larger) = alone.filterMap (Event.ownMessage 1 larger) ∧
      together.filterMap (Event.creation 1) = alone.filterMap (Event.creation 1) ∧
      outcome alone = some (0, 1, 4) ∧ outcome together = some (0, 2, 1) := by
  decide +kernel

end Gocoin.Bls
