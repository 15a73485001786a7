import Gocoin.BlsGroup.Progress
import Gocoin.Machinery.Numeral
import Gocoin.Space.BlockChain

/-!
# BlsGroup/Announcement — from an announcement to a group

The `Worker` of a group waits for announcements of new groups.  It appends the announced addresses
to the members of its group before it looks whether the node itself is among them, and whether a
group of that hash is known.  An announcement without the node empties the list again; the two other
ways out leave it as it is.  So the members that a new group starts with are all those that were
announced since the last announcement without the node (`gather`), and they are the announced ones
exactly when the announcement before it, if there was one, was without the node
(`announcement_exact_iff`).
-/

namespace Gocoin.Bls

open Space

variable {F G₂ ρ : Type}

/-- `BlsGroup` with the hash it was announced with. -/
structure NamedGroup (F G₂ : Type) extends BlsGroup F G₂ where
  hash : Hash

/-- The maps of the package, in which a group is told by a reference. -/
structure Registry (ρ : Type) where
  blsGroups : ℕ → Option ρ
  blsHashGroups : Hash → Option ρ
  idHash : ℕ → Option Hash

/-- A group as its `Worker` sees it, with the reference to it. -/
structure Worker (F G₂ ρ : Type) where
  group : NamedGroup F G₂
  this : ρ
  registry : Registry ρ
  db : Db

/-- `FormatUint` to the base ten. -/
def formatUint (id : ℕ) : Bytes := Numeral.write 10 id

/-- `saveIdHash`. -/
def saveIdHash (db : Db) (id : ℕ) (hash : Hash) : Db := db.put (formatUint id) hash.bytes

namespace Worker

/-- One turn of the loop of `Worker`, and whether it starts `CreateBlsGroup`. -/
def handle (w : Worker F G₂ ρ) (ev : CreatethresholdEvent) : Worker F G₂ ρ × Bool :=
  if w.group.isCreate then (w, false)
  else
    let members := w.group.members ++ ev.addrs
    if w.group.self ∉ ev.addrs then
      ({ w with group := { w.group with members := [] } }, false)
    else
      match w.registry.blsHashGroups ev.hash with
      | some v =>
        ({ w with
            group := { w.group with members }
            registry :=
              { w.registry with
                idHash := Function.update w.registry.idHash ev.gid (some ev.hash)
                blsGroups := Function.update w.registry.blsGroups ev.gid (some v) }
            db := saveIdHash w.db ev.gid ev.hash }, false)
      | none =>
        ({ w with
            group :=
              { w.group with
                members
                gid := ev.gid
                hash := ev.hash
                n := members.length
                k := members.length / 2 + 1 }
            registry :=
              { w.registry with
                blsHashGroups := Function.update w.registry.blsHashGroups ev.hash (some w.this)
                idHash := Function.update w.registry.idHash ev.gid (some ev.hash) } }, true)

/-- A sequence of announcements. -/
def run (w : Worker F G₂ ρ) (evs : List CreatethresholdEvent) : Worker F G₂ ρ :=
  evs.foldl (fun w ev => (w.handle ev).1) w

/-! ## One announcement -/

section Handle

variable {w : Worker F G₂ ρ} {ev : CreatethresholdEvent}

/-- **The spec of a turn** before the key is there: what becomes of the members, which hashes are
known behind it, when a group is started and with which size and threshold. -/
structure Handles (w : Worker F G₂ ρ) (ev : CreatethresholdEvent) (r : Worker F G₂ ρ × Bool) :
    Prop where
  self_eq : r.1.group.self = w.group.self
  isCreate : r.1.group.isCreate = false
  members : r.1.group.members =
    if w.group.self ∈ ev.addrs then w.group.members ++ ev.addrs else []
  unknown : ∀ hash, r.1.registry.blsHashGroups hash = none ↔
    w.registry.blsHashGroups hash = none ∧ (w.group.self ∈ ev.addrs → ev.hash ≠ hash)
  started : r.2 = true ↔ w.group.self ∈ ev.addrs ∧ w.registry.blsHashGroups ev.hash = none
  sizes : r.2 = true → r.1.group.n = r.1.group.members.length ∧
    r.1.group.k = r.1.group.members.length / 2 + 1

theorem handles (hw : w.group.isCreate = false) (ev : CreatethresholdEvent) :
    Handles w ev (w.handle ev) := by
  unfold handle
  rw [hw, if_neg Bool.false_ne_true]
  by_cases hself : w.group.self ∈ ev.addrs
  · simp only [not_not.mpr hself, if_false]
    cases hknown : w.registry.blsHashGroups ev.hash with
    | some v =>
      refine ⟨rfl, hw, (if_pos hself).symm, fun hash => ?_, by simp [hknown], nofun⟩
      refine ⟨fun h => ⟨h, fun _ heq => ?_⟩, And.left⟩
      rw [← heq, hknown] at h
      cases h
    | none =>
      refine ⟨rfl, hw, (if_pos hself).symm, fun hash => ?_, by simp [hself, hknown],
        fun _ => ⟨rfl, rfl⟩⟩
      by_cases heq : hash = ev.hash
      · subst heq
        simp [hself]
      · simp [Function.update_of_ne heq, Ne.symm heq]
  · simp only [hself, not_false_eq_true, if_true]
    exact ⟨rfl, hw, (if_neg hself).symm, fun hash => by simp [hself], by simp [hself], nofun⟩

end Handle

/-! ## Sequences of announcements -/

/-- The members that have come together: an announcement without the node empties them. -/
def gather (self : Address) (members : List Address) (evs : List CreatethresholdEvent) :
    List Address :=
  evs.foldl (fun ms ev => if self ∈ ev.addrs then ms ++ ev.addrs else []) members

theorem gather_concat (self : Address) (members : List Address) (evs : List CreatethresholdEvent)
    (ev : CreatethresholdEvent) : gather self members (evs ++ [ev])
      = if self ∈ ev.addrs then gather self members evs ++ ev.addrs else [] := by
  rw [gather, List.foldl_append]
  rfl

/-- Nothing has come together when the last announcement was without the node. -/
theorem gather_eq_nil_iff (self : Address) (members : List Address)
    (evs : List CreatethresholdEvent) : gather self members evs = [] ↔
      evs = [] ∧ members = [] ∨ ∃ prev, evs.getLast? = some prev ∧ self ∉ prev.addrs := by
  induction evs using List.reverseRecOn with
  | nil => simp [gather]
  | append_singleton evs ev _ =>
    rw [gather_concat]
    by_cases hself : self ∈ ev.addrs
    · have hne : ev.addrs ≠ [] := List.ne_nil_of_mem hself
      simp [hself, hne]
    · simp [hself]

theorem run_concat (w : Worker F G₂ ρ) (evs : List CreatethresholdEvent)
    (ev : CreatethresholdEvent) : w.run (evs ++ [ev]) = ((w.run evs).handle ev).1 := by
  rw [run, List.foldl_append]
  rfl

/-- **The spec of a sequence** before the key is there: the members that have come together, and the
hashes that the node has seen itself announced with. -/
structure Handled (w : Worker F G₂ ρ) (evs : List CreatethresholdEvent) (w' : Worker F G₂ ρ) :
    Prop where
  self_eq : w'.group.self = w.group.self
  isCreate : w'.group.isCreate = false
  members : w'.group.members = gather w.group.self w.group.members evs
  unknown : ∀ hash, w'.registry.blsHashGroups hash = none ↔
    w.registry.blsHashGroups hash = none ∧ ∀ e ∈ evs, w.group.self ∈ e.addrs → e.hash ≠ hash

theorem handled {w : Worker F G₂ ρ} (hw : w.group.isCreate = false)
    (evs : List CreatethresholdEvent) : Handled w evs (w.run evs) := by
  induction evs using List.reverseRecOn with
  | nil => exact ⟨rfl, hw, rfl, fun hash => by simp [run]⟩
  | append_singleton evs ev ih =>
    rw [run_concat]
    have hev := handles ih.isCreate ev
    refine ⟨hev.self_eq.trans ih.self_eq, hev.isCreate, ?_, fun hash => ?_⟩
    · rw [hev.members, ih.members, ih.self_eq, gather_concat]
    · rw [hev.unknown, ih.unknown, ih.self_eq, List.forall_mem_append, and_assoc]
      simp

/-- **A group is made of one announcement exactly when the one before it was without the node.**
After any announcements that come before the key is there, an announcement starts a group when the
node is in it and its hash is neither known from elsewhere nor one the node was announced with
before; and then members, size and threshold are those of the announcement exactly when it is the
first one, for a group without members, or follows an announcement without the node. -/
theorem announcement_exact_iff {w : Worker F G₂ ρ} (hw : w.group.isCreate = false)
    (evs : List CreatethresholdEvent) (ev : CreatethresholdEvent) :
    (((w.run evs).handle ev).2 = true ↔ w.group.self ∈ ev.addrs ∧
      w.registry.blsHashGroups ev.hash = none ∧
      ∀ e ∈ evs, w.group.self ∈ e.addrs → e.hash ≠ ev.hash) ∧
    (((w.run evs).handle ev).2 = true →
      ((((w.run evs).handle ev).1.group.members = ev.addrs ∧
        ((w.run evs).handle ev).1.group.n = ev.addrs.length ∧
        ((w.run evs).handle ev).1.group.k = ev.addrs.length / 2 + 1) ↔
      evs = [] ∧ w.group.members = [] ∨
        ∃ prev, evs.getLast? = some prev ∧ w.group.self ∉ prev.addrs)) := by
  have hrun := handled hw evs
  have hev := handles hrun.isCreate ev
  have hstarted := hev.started
  rw [hrun.self_eq, hrun.unknown] at hstarted
  refine ⟨hstarted, fun h => ?_⟩
  obtain ⟨hself, -⟩ := hstarted.mp h
  obtain ⟨hn, hk⟩ := hev.sizes h
  have hmembers := hev.members
  rw [hrun.self_eq, if_pos hself, hrun.members] at hmembers
  rw [← gather_eq_nil_iff, hn, hk, hmembers]
  constructor
  · rintro ⟨heq, -⟩
    exact List.append_left_eq_self.mp heq
  · intro hnil
    rw [hnil, List.nil_append]
    exact ⟨rfl, rfl, rfl⟩

/-- The worker of a group without members on the node of the first address. -/
def sample : Worker (ZMod 5) (ZMod 5) Unit where
  group := { Sample.group 0 (Sample.peer 1) [] with hash := .zero 32 }
  this := ()
  registry := ⟨fun _ => none, fun _ => none, fun _ => none⟩
  db := .empty

/-- An announcement of a group with a hash of one byte. -/
def announce (hash : UInt8) (members : List UInt8) : CreatethresholdEvent :=
  ⟨0, FixedBytes.ofBytes 32 [hash], members.map Sample.peer⟩

/-- Behind an announcement of others, the group is made of its own. -/
theorem announcement_exact_second :
    (((sample.run [announce 1 [2, 3]]).handle (announce 2 [1, 4])).1.group.members
        = [Sample.peer 1, Sample.peer 4]) ∧
      ((sample.run [announce 1 [2, 3]]).handle (announce 2 [1, 4])).1.group.k = 2 := by
  have h := announcement_exact_iff (w := sample) rfl [announce 1 [2, 3]] (announce 2 [1, 4])
  have hstart : ((sample.run [announce 1 [2, 3]]).handle (announce 2 [1, 4])).2 = true :=
    h.1.mpr (by decide +kernel)
  obtain ⟨hmembers, -, hk⟩ := (h.2 hstart).mpr (.inr ⟨announce 1 [2, 3], rfl, by decide +kernel⟩)
  exact ⟨hmembers, hk⟩

/-- **Two announcements make one group.**  The node is announced with the second address, and then,
before there is a key, with the fourth: the second group has both announcements for its members, one
address twice. -/
theorem announcements_add_up : let r := (sample.run [announce 1 [1, 2]]).handle (announce 2 [1, 4])
    r.2 = true ∧ r.1.group.members = [1, 2, 1, 4].map Sample.peer ∧ r.1.group.n = 4 ∧
      r.1.group.k = 3 ∧ r.1.group.members ≠ (announce 2 [1, 4]).addrs := by
  decide +kernel

end Worker

end Gocoin.Bls
