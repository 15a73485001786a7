import Gocoin.Machinery.Interpolation
import Gocoin.Common.Types

/-!
# BlsGroup/Keys — how a group makes its key

Every member of a group deals the values of a polynomial of its own to the others, in one message
that all of them receive.  What a node receives is kept in a single map by sender (`psec`), whatever
group it was for; when the map has as many entries as the group has other members, the goroutine
that `CreateBlsGroup` left behind interpolates the shares and the public keys at zero.

The curve library enters through `Library`: secret keys and identifiers are elements of a field,
public keys and signatures of two vector spaces over it.  Keys travel as hexadecimal strings that
come back as they were, so the model passes the keys themselves.

`AddMsg` hands its signal over an unbuffered channel and waits there; `pending` counts the calls
that wait.
-/

namespace Gocoin.Bls

open Interpolation

/-- The curve: the generator of public keys, the hash of messages, the identifier of an address. -/
structure Library (F G₁ G₂ : Type) [Field F] [AddCommGroup G₁] [Module F G₁] [AddCommGroup G₂]
    [Module F G₂] where
  base : G₂
  hashTo : Bytes → G₁
  setLittleEndian : Address → F
  verify : G₁ → G₂ → Bytes → Bool
  verify_iff : ∀ sig pub m,
    verify sig pub m = true ↔ ∃ sec : F, pub = sec • base ∧ sig = sec • hashTo m

/-- `msec`: the share for one member. -/
structure Msec (F : Type) where
  addr : Address
  msk : F
  deriving DecidableEq

/-- `BlsMsg`. -/
structure BlsMsg (F G₂ : Type) where
  gid : ℕ
  addr : Address
  pub : G₂
  times : ℕ
  mastersec : List (Msec F)
  deriving DecidableEq

/-- `peerInfo`: an entry of `psec`. -/
structure PeerInfo (F G₂ : Type) where
  peer : Address
  pub : G₂
  sec : F
  deriving DecidableEq

/-- `BlsSign`. -/
structure BlsSign (F G₁ : Type) where
  id : F
  sign : G₁

/-- What the goroutine of `CreateBlsGroup` keeps: the node's own share and public key. -/
structure Collector (F G₂ : Type) where
  gsec : F
  pub : G₂
  deriving DecidableEq

/-- `BlsGroup`, with the goroutine of `CreateBlsGroup` and the calls that wait to signal it. -/
structure BlsGroup (F G₂ : Type) where
  self : Address
  selfID : F
  gid : ℕ
  members : List Address
  k : ℕ
  n : ℕ
  sec : F
  pub : G₂
  isCreate : Bool
  collector : Option (Collector F G₂)
  pending : ℕ

/-! ## A node -/

section Node

variable {F G₂ : Type}

/-- The package's state: the map of received shares and the groups by their number. -/
structure Node (F G₂ : Type) where
  psec : List (PeerInfo F G₂)
  groups : ℕ → Option (BlsGroup F G₂)

/-- Writes a group. -/
def Node.put (nd : Node F G₂) (gid : ℕ) (group : BlsGroup F G₂) : Node F G₂ :=
  { nd with groups := Function.update nd.groups gid (some group) }

@[simp] theorem Node.groups_put (nd : Node F G₂) (gid : ℕ) (group : BlsGroup F G₂) :
    (nd.put gid group).groups gid = some group := Function.update_self ..

@[simp] theorem Node.groups_put_of_ne (nd : Node F G₂) {gid gid' : ℕ} (group : BlsGroup F G₂)
    (h : gid' ≠ gid) : (nd.put gid group).groups gid' = nd.groups gid' :=
  Function.update_of_ne h ..

@[simp] theorem Node.psec_put (nd : Node F G₂) (gid : ℕ) (group : BlsGroup F G₂) :
    (nd.put gid group).psec = nd.psec := rfl

/-- What happens on a node: a group starts to make its key, a message arrives, the goroutine of a
group takes a signal and walks through `psec` in some order. -/
inductive Event (F G₂ : Type) where
  | create (gid : ℕ) (sec : F) (random : List F)
  | deliver (msg : BlsMsg F G₂)
  | collect (gid : ℕ) (order : List (PeerInfo F G₂))

end Node

section Keys

variable {F G₁ G₂ : Type} [Field F] [DecidableEq F] [AddCommGroup G₁] [Module F G₁]
  [AddCommGroup G₂] [Module F G₂]

/-! ## Dealing -/

/-- `(*SecretKey).Set` on a zero key: the value at the identifier; the library refuses fewer than
two coefficients. -/
def secretKeySet (msk : List F) (id : F) : F := if msk.length < 2 then 0 else horner msk id

variable (lib : Library F G₁ G₂) (group : BlsGroup F G₂)

/-- `Set`. -/
def BlsGroup.set (self : Address) (members : List Address) (threshold : ℕ) : BlsGroup F G₂ :=
  { group with
    self := self
    members := members
    n := members.length
    selfID := lib.setLittleEndian self
    k := threshold }

/-- What the goroutine starts with, from the secret and the other coefficients. -/
def BlsGroup.dealing (sec : F) (random : List F) :
    Collector F G₂ where
  gsec := if group.self ∈ group.members
    then secretKeySet (sec :: random) (lib.setLittleEndian group.self) else 0
  pub := sec • lib.base

/-- The message to the other members; the entry for the sender itself is no share. -/
def BlsGroup.message (sec : F) (random : List F) :
    BlsMsg F G₂ where
  gid := group.gid
  addr := group.self
  pub := sec • lib.base
  times := 0
  mastersec := group.members.map fun v =>
    ⟨v, if v = group.self then 0 else secretKeySet (sec :: random) (lib.setLittleEndian v)⟩

/-- `CreateBlsGroup`: the group with its goroutine, and the message it sends — again and again, with
`Times` counting. -/
def BlsGroup.createBlsGroup (sec : F) (random : List F) : BlsGroup F G₂ × BlsMsg F G₂ :=
  ({ group with collector := some (group.dealing lib sec random) }, group.message lib sec random)

/-! ## Collecting -/

/-- The share of an address in a message: its last entry. -/
def share (self : Address) (mastersec : List (Msec F)) : Option F :=
  mastersec.foldl (fun s v => if v.addr = self then some v.msk else s) none

/-- The part of `AddMsg` that enters a message into `psec`. -/
def record (self : Address) (psec : List (PeerInfo F G₂)) (msg : BlsMsg F G₂) :
    List (PeerInfo F G₂) :=
  if psec.any fun v => v.peer = msg.addr then psec
  else match share self msg.mastersec with
    | none => psec
    | some sec => psec ++ [⟨msg.addr, msg.pub, sec⟩]

/-- `(*BlsGroup).AddMsg`: a message of a known sender does nothing, and any other message may find
the map complete. -/
def BlsGroup.addMsg (psec : List (PeerInfo F G₂)) (msg : BlsMsg F G₂) :
    BlsGroup F G₂ × List (PeerInfo F G₂) :=
  if group.n = 0 then (group, psec)
  else if psec.any fun v => v.peer = msg.addr then (group, psec)
  else
    let psec' := record group.self psec msg
    (if psec'.length = group.n - 1 then { group with pending := group.pending + 1 } else group,
      psec')

omit [Field F] [DecidableEq F] [AddCommGroup G₂] [Module F G₂] in
/-- What `AddMsg` does when the group has members: the message is recorded, and a signal waits when
the map is complete and the sender was not known. -/
theorem BlsGroup.addMsg_cases {group : BlsGroup F G₂} (hn : group.n ≠ 0)
    (psec : List (PeerInfo F G₂)) (msg : BlsMsg F G₂) :
    (group.addMsg psec msg).2 = record group.self psec msg ∧
      ((group.addMsg psec msg).1 = group ∧
          (record group.self psec msg = psec ∨ (record group.self psec msg).length ≠ group.n - 1) ∨
        (group.addMsg psec msg).1 = { group with pending := group.pending + 1 } ∧
          (record group.self psec msg).length = group.n - 1) := by
  unfold BlsGroup.addMsg
  rw [if_neg hn]
  by_cases hknown : (psec.any fun v => v.peer = msg.addr) = true
  · have hrecord : record group.self psec msg = psec := if_pos hknown
    rw [if_pos hknown]
    exact ⟨hrecord.symm, .inl ⟨rfl, .inl hrecord⟩⟩
  · rw [if_neg hknown]
    refine ⟨rfl, ?_⟩
    by_cases hfull : (record group.self psec msg).length = group.n - 1
    · exact .inr ⟨if_pos hfull, hfull⟩
    · exact .inl ⟨if_neg hfull, .inr hfull⟩

/-- The two keys of a group. -/
def BlsGroup.key : F × G₂ := (group.sec, group.pub)

/-- `Recover` of both keys, on the node's own values and then those of the peers; a failed `Recover`
leaves the key alone. -/
def recoverKey (self : Address) (c : Collector F G₂)
    (peers : List (PeerInfo F G₂)) (key : F × G₂) : F × G₂ :=
  let infos := ⟨self, c.pub, c.gsec⟩ :: peers
  let idVec := infos.map fun v => lib.setLittleEndian v.peer
  ((atZero idVec (infos.map PeerInfo.sec)).getD key.1,
    (atZero idVec (infos.map PeerInfo.pub)).getD key.2)

/-- The order of the peers does not matter. -/
theorem recoverKey_perm (self : Address) (c : Collector F G₂)
    {peers peers' : List (PeerInfo F G₂)} (h : peers.Perm peers') (key : F × G₂) :
    recoverKey lib self c peers key = recoverKey lib self c peers' key := by
  classical
  have hcons := h.cons (⟨self, c.pub, c.gsec⟩ : PeerInfo F G₂)
  simp only [recoverKey, atZero_perm hcons]

/-- Recovering again gives the same keys. -/
theorem recoverKey_idem (self : Address) (c : Collector F G₂)
    (peers : List (PeerInfo F G₂)) (key : F × G₂) :
    recoverKey lib self c peers (recoverKey lib self c peers key)
      = recoverKey lib self c peers key := by
  have getD_idem : ∀ {α : Type} (o : Option α) (a : α), o.getD (o.getD a) = o.getD a := by
    intro α o a
    cases o <;> rfl
  simp only [recoverKey, getD_idem]

theorem recoverKey_nil (self : Address) (c : Collector F G₂)
    (key : F × G₂) : recoverKey lib self c [] key = key := rfl

/-- A turn of the goroutine: it takes a signal and goes through `psec` in some order. -/
def BlsGroup.collect (order : List (PeerInfo F G₂)) : Option (BlsGroup F G₂) :=
  match group.collector, group.pending with
  | some c, p + 1 =>
    let key := recoverKey lib group.self c order group.key
    some { group with sec := key.1, pub := key.2, isCreate := true, pending := p }
  | _, _ => none

/-- A turn of the goroutine, seen from outside. -/
theorem BlsGroup.collect_eq_some {lib : Library F G₁ G₂} {group group' : BlsGroup F G₂}
    {order : List (PeerInfo F G₂)} (h : group.collect lib order = some group') :
    ∃ c p, group.collector = some c ∧ group.pending = p + 1 ∧
      group' = { group with
        sec := (recoverKey lib group.self c order group.key).1
        pub := (recoverKey lib group.self c order group.key).2
        isCreate := true
        pending := p } := by
  unfold BlsGroup.collect at h
  cases hc : group.collector with
  | none => simp [hc] at h
  | some c =>
    cases hp : group.pending with
    | zero => simp [hc, hp] at h
    | succ p =>
      simp only [hc, hp, Option.some.injEq] at h
      exact ⟨c, p, rfl, rfl, h.symm⟩

/-! ## Signing -/

/-- `Sign`. -/
def BlsGroup.sign (msg : Bytes) : BlsSign F G₁ := ⟨group.selfID, group.sec • lib.hashTo msg⟩

/-- `Verigy`: without shares the library indexes an empty slice; when the interpolation fails the
last share is checked instead. -/
def BlsGroup.verigy (signs : List (BlsSign F G₁)) (msg : Bytes) : Option (Bool × G₁) :=
  signs.getLast?.map fun last =>
    let sig := (atZero (signs.map BlsSign.id) (signs.map BlsSign.sign)).getD last.sign
    (lib.verify sig group.pub msg, sig)

/-! ## Runs of a node -/

/-- `AddMsg`: a message goes to the group it names. -/
def Node.addMsg (nd : Node F G₂) (msg : BlsMsg F G₂) : Node F G₂ :=
  match nd.groups msg.gid with
  | none => nd
  | some group =>
    let r := group.addMsg nd.psec msg
    { nd.put msg.gid r.1 with psec := r.2 }

section Run

variable [DecidableEq G₂]

/-- One event.  A group makes its key once, from as many coefficients as its threshold says. -/
def Node.step (lib : Library F G₁ G₂) (nd : Node F G₂) : Event F G₂ → Option (Node F G₂)
  | .create gid sec random =>
    (nd.groups gid).bind fun group =>
      if group.collector = none ∧ random.length + 1 = group.k then
        some (nd.put gid (group.createBlsGroup lib sec random).1)
      else none
  | .deliver msg => some (nd.addMsg msg)
  | .collect gid order =>
    (nd.groups gid).bind fun group =>
      if order.Perm nd.psec then (group.collect lib order).map (nd.put gid) else none

/-- A run of a node. -/
def Node.run (lib : Library F G₁ G₂) (nd : Node F G₂) (es : List (Event F G₂)) :
    Option (Node F G₂) :=
  es.foldlM (Node.step lib) nd

end Run

end Keys

end Gocoin.Bls
