import Gocoin.Common.Sample
import Gocoin.Machinery.Quorum
import Gocoin.Protocol.Tx

/-!
# Publish/Notary — the notarisation of a contract

`publish/notary.go` and `publish/notary_signer.go`.  A contract is requested, the request travels
from notary to notary, each of them adding a signature, and the responses come back to the node that
asked.  `RecvNotaryRes` adds the signatures of a response to those it has for the contract and hands
the response over to `WaitNotary`, which counts responses: after `MAX_NOTARY - 1` of them it returns
the last one with all signatures there are.

So what is returned is everything that has arrived for the contract since it was first requested
(`notarisation`), as it arrived: nobody has verified a signature or looked for a repetition.
-/

namespace Gocoin

open Rlp

namespace Publish

/-- `MAX_NOTARY`. -/
def maxNotary : ℕ := 3

/-- `Scrivener`: a notary and its signature. -/
structure Scrivener where
  addr : Address
  sign : Bytes
  deriving DecidableEq

/-- `NotaryReq`. -/
structure NotaryReq where
  owner : Address
  contract : Bytes
  cttHash : Hash
  sig : Bytes
  reqHash : Hash
  notary : List Scrivener
  deriving DecidableEq

/-- `NotaryRes`. -/
abbrev NotaryRes := NotaryReq

/-- `Notary`: the requested contracts, the signatures for each of them, how many channels have been
made for it — the last one is in the map — and the calls of `RecvNotaryRes` that wait in their
channel. -/
structure Notary where
  contracts : Hash → Bool
  notary : Hash → List Scrivener
  recvCh : Hash → ℕ
  sending : List (ℕ × NotaryRes)

/-- The notary of `GetNotary`. -/
def Notary.new : Notary := ⟨fun _ => false, fun _ => [], fun _ => 0, []⟩

/-- A node that notarises: the address and the key of its wallet. -/
structure Wallet where
  gaddr : Address
  sign : Hash → Option Bytes

section

variable (P : Prims)

/-- `NotarySigner.Hash`; the signatures so far are not signed. -/
def NotaryReq.hash (req : NotaryReq) : Hash :=
  rlpHash P.keccak (some (.list [.str req.owner.bytes, .str req.contract, .str req.cttHash.bytes,
    .str req.reqHash.bytes]))

/-- `recoverPlain`. -/
def recoverPlain (sighash : Hash) (sig : Bytes) : Option Address :=
  if sig.length ≠ 65 then none
  else
    match P.ecrecover sighash sig with
    | some (4 :: pub) => some (FixedBytes.ofBytes 20 (P.keccak pub).bytes)
    | _ => none

/-- The signature of an entry is by the address it is listed under. -/
def NotaryReq.Signed (req : NotaryReq) (e : Scrivener) : Prop :=
  recoverPlain P (req.hash P) e.sign = some e.addr

instance (req : NotaryReq) (e : Scrivener) : Decidable (req.Signed P e) :=
  inferInstanceAs (Decidable (_ = _))

/-- The request that `ReqNotary` makes. -/
def newReq (owner : Address) (contract : Bytes) : NotaryReq :=
  ⟨owner, contract, rlpHash P.keccak (some (.str contract)), [], .zero 32, []⟩

/-- `RecvNotaryReq`: a notary adds its signature. -/
def recvNotaryReq (w : Wallet) (msg : NotaryReq) : Option NotaryRes :=
  if maxNotary < msg.notary.length then none
  else (w.sign (msg.hash P)).map fun sig =>
    { msg with notary := msg.notary ++ [⟨w.gaddr, sig⟩] }

/-- A request that travels from notary to notary. -/
def hops (ws : List Wallet) (msg : NotaryReq) : Option NotaryRes :=
  ws.foldlM (fun msg w => recvNotaryReq P w msg) msg

namespace Notary

/-- `ReqNotary`: the contract gets a new channel. -/
def reqNotary (nt : Notary) (owner : Address) (contract : Bytes) : Notary :=
  let h := (newReq P owner contract).cttHash
  { nt with
    contracts := Function.update nt.contracts h true
    recvCh := Function.update nt.recvCh h (nt.recvCh h + 1) }

/-- `RecvNotaryRes`, up to its place in the channel. -/
def recvNotaryRes (nt : Notary) (msg : NotaryRes) : Notary :=
  if nt.contracts msg.cttHash then
    { nt with
      notary := Function.update nt.notary msg.cttHash (nt.notary msg.cttHash ++ msg.notary)
      sending := (nt.recvCh msg.cttHash, msg) :: nt.sending }
  else nt

end Notary

/-! ## Runs -/

/-- A node with a call of `WaitNotary`: the responses it has received, and the channel it is waiting
on. -/
structure Waiting where
  node : Notary
  got : List NotaryRes
  on : Option ℕ

/-- What happens at the node: requests and responses, in any order; another call of `WaitNotary`
receives a response; the call evaluates the channel of its contract, and receives a response. -/
inductive Act where
  | reqNotary (owner : Address) (contract : Bytes)
  | recvNotaryRes (msg : NotaryRes)
  | other (c : ℕ) (msg : NotaryRes)
  | listen
  | receive (msg : NotaryRes)

/-- One step, with a call of `WaitNotary(h)`.  To listen to a nil channel is to wait for ever. -/
def Waiting.step (h : Hash) (s : Waiting) : Act → Option Waiting
  | .reqNotary owner contract => some { s with node := s.node.reqNotary P owner contract }
  | .recvNotaryRes msg => some { s with node := s.node.recvNotaryRes msg }
  | .other c msg =>
    if (c, msg) ∈ s.node.sending then
      some { s with node := { s.node with sending := s.node.sending.erase (c, msg) } }
    else none
  | .listen =>
    if s.got.length < maxNotary - 1 ∧ s.on = none ∧ 0 < s.node.recvCh h then
      some { s with on := some (s.node.recvCh h) }
    else none
  | .receive msg =>
    match s.on with
    | none => none
    | some c =>
      if msg.cttHash = h ∧ (c, msg) ∈ s.node.sending then
        some ⟨{ s.node with sending := s.node.sending.erase (c, msg) }, s.got ++ [msg], none⟩
      else none

/-- A run of a new node. -/
def run (h : Hash) (acts : List Act) : Option Waiting :=
  acts.foldlM (Waiting.step P h) ⟨Notary.new, [], none⟩

/-- What `WaitNotary` returns: the last response, with all signatures for the contract. -/
def Waiting.result (h : Hash) (s : Waiting) : Option NotaryRes :=
  if s.got.length = maxNotary - 1 then
    s.got.getLast?.map fun msg => { msg with notary := s.node.notary h }
  else none

/-- Whether an act requests the contract. -/
def Act.requests (h : Hash) : Act → Bool
  | .reqNotary owner contract => decide ((newReq P owner contract).cttHash = h)
  | _ => false

/-- The response for the contract that arrives with an act. -/
def Act.arrival (h : Hash) : Act → List NotaryRes
  | .recvNotaryRes msg => if msg.cttHash = h then [msg] else []
  | _ => []

/-- The responses for a contract that arrive once it has been requested. -/
def accepted (h : Hash) : Bool → List Act → List NotaryRes
  | _, [] => []
  | requested, a :: acts =>
    (if requested then a.arrival h else []) ++ accepted h (requested || a.requests P h) acts

end

variable {P : Prims} {h : Hash}

/-! ## What a node has heard -/

/-- The responses that wait to be received. -/
def Waiting.queue (h : Hash) (s : Waiting) : List NotaryRes :=
  (s.node.sending.map Prod.snd).filter fun msg => decide (msg.cttHash = h)

/-- What a step did to a contract: it may have been requested, and the responses that were heard
brought their signatures and are received, or wait, once. -/
structure Heard (h : Hash) (s : Waiting) (requests : Bool) (msgs : List NotaryRes) (s' : Waiting) :
    Prop where
  requested : s'.node.contracts h = (s.node.contracts h || requests)
  notary : s'.node.notary h = s.node.notary h ++ msgs.flatMap NotaryReq.notary
  once : (s'.got ++ s'.queue h).Subperm (s.got ++ s.queue h ++ msgs)

variable {s s' : Waiting}

theorem heard_refl (hnode : s'.node = s.node) (hgot : s'.got = s.got) : Heard h s false [] s' := by
  refine ⟨by rw [hnode, Bool.or_false], by rw [hnode, List.flatMap_nil, List.append_nil], ?_⟩
  rw [hgot, Waiting.queue, hnode, List.append_nil]
  exact .refl _

theorem heard_reqNotary (s : Waiting) (owner : Address) (contract : Bytes) :
    Heard h s (decide ((newReq P owner contract).cttHash = h)) []
      { s with node := s.node.reqNotary P owner contract } := by
  refine ⟨?_, by simp [Notary.reqNotary], ?_⟩
  · by_cases hh : (newReq P owner contract).cttHash = h
    · simp [Notary.reqNotary, hh]
    · simp [Notary.reqNotary, hh, Function.update_of_ne (Ne.symm hh)]
  · rw [List.append_nil]
    exact .refl _

theorem heard_recvNotaryRes (s : Waiting) (msg : NotaryRes) :
    Heard h s false (if s.node.contracts h then (Act.recvNotaryRes msg).arrival h else [])
      { s with node := s.node.recvNotaryRes msg } := by
  by_cases hh : msg.cttHash = h
  · subst hh
    by_cases hc : s.node.contracts msg.cttHash = true
    · rw [if_pos hc, Act.arrival, if_pos rfl]
      refine ⟨by simp [Notary.recvNotaryRes, hc], by simp [Notary.recvNotaryRes, hc], ?_⟩
      refine List.Perm.subperm ?_
      simp only [Waiting.queue, Notary.recvNotaryRes, if_pos hc, List.map_cons, decide_true,
        List.filter_cons_of_pos]
      rw [List.append_assoc]
      exact (List.perm_append_singleton msg _).symm.append_left _
    · rw [if_neg hc]
      exact heard_refl (by simp [Notary.recvNotaryRes, hc]) rfl
  · have harr : (if s.node.contracts h then (Act.recvNotaryRes msg).arrival h else []) = [] := by
      rw [Act.arrival, if_neg hh, ite_self]
    rw [harr]
    unfold Notary.recvNotaryRes
    split
    · refine ⟨by simp, by simp [Function.update_of_ne (Ne.symm hh)], ?_⟩
      rw [Waiting.queue, Waiting.queue, List.map_cons, List.filter_cons_of_neg (by simpa using hh),
        List.append_nil]
    · exact heard_refl rfl rfl

/-- A response that is received leaves its place in the channel. -/
theorem queue_erase {c : ℕ} {msg : NotaryRes} (hmem : (c, msg) ∈ s.node.sending) :
    (s.queue h).Perm ((if msg.cttHash = h then [msg] else []) ++
      ((s.node.sending.erase (c, msg)).map Prod.snd).filter fun m => decide (m.cttHash = h)) := by
  have hperm := ((List.perm_cons_erase hmem).map Prod.snd).filter fun m => decide (m.cttHash = h)
  refine hperm.trans ?_
  by_cases hh : msg.cttHash = h
  · rw [List.map_cons, List.filter_cons_of_pos (by simpa using hh), if_pos hh]
    exact .refl _
  · rw [List.map_cons, List.filter_cons_of_neg (by simpa using hh), if_neg hh]
    exact .refl _

/-- **What one step does.** -/
theorem heard_step {a : Act} (hs : s.step P h a = some s') :
    Heard h s (a.requests P h) (if s.node.contracts h then a.arrival h else []) s' := by
  cases a with
  | reqNotary owner contract =>
    cases hs
    simp only [Act.arrival, ite_self]
    exact heard_reqNotary s owner contract
  | recvNotaryRes msg =>
    cases hs
    exact heard_recvNotaryRes s msg
  | other c msg =>
    simp only [Waiting.step] at hs
    simp only [Act.arrival, ite_self]
    split at hs
    · next hmem =>
      cases hs
      refine ⟨(Bool.or_false _).symm, by simp, ?_⟩
      rw [List.append_nil]
      refine List.Subperm.append (.refl _) ?_
      exact (List.sublist_append_right _ _).subperm.trans (queue_erase hmem).symm.subperm
    · cases hs
  | listen =>
    simp only [Waiting.step] at hs
    simp only [Act.arrival, ite_self]
    split at hs
    · cases hs
      exact heard_refl rfl rfl
    · cases hs
  | receive msg =>
    simp only [Waiting.step] at hs
    simp only [Act.arrival, ite_self]
    split at hs
    · cases hs
    · split at hs
      · next hmem =>
        cases hs
        refine ⟨(Bool.or_false _).symm, by simp, List.Perm.subperm ?_⟩
        have hq := queue_erase (h := h) hmem.2
        rw [if_pos hmem.1] at hq
        rw [List.append_nil, List.append_assoc]
        exact hq.symm.append_left _
      · cases hs

/-- **What a run does**: it has heard the accepted responses. -/
theorem heard_run {acts : List Act} (hs : acts.foldlM (Waiting.step P h) s = some s') :
    s'.node.notary h = s.node.notary h ++
        (accepted P h (s.node.contracts h) acts).flatMap NotaryReq.notary ∧
      (s'.got ++ s'.queue h).Subperm
        (s.got ++ s.queue h ++ accepted P h (s.node.contracts h) acts) := by
  induction acts generalizing s with
  | nil =>
    cases hs
    rw [accepted, List.flatMap_nil, List.append_nil, List.append_nil]
    exact ⟨rfl, .refl _⟩
  | cons a acts ih =>
    obtain ⟨mid, hstep, hrest⟩ := Option.bind_eq_some_iff.mp hs
    have h₁ := heard_step hstep
    obtain ⟨hnotary, honce⟩ := ih hrest
    rw [h₁.requested] at hnotary honce
    constructor
    · rw [hnotary, h₁.notary, accepted, List.flatMap_append, List.append_assoc]
    · rw [accepted, ← List.append_assoc]
      exact honce.trans (h₁.once.append (.refl _))

/-! ## Hops -/

variable {msg res : NotaryReq}

theorem length_recvNotaryReq {w : Wallet} (hr : recvNotaryReq P w msg = some res) :
    res.notary.length = msg.notary.length + 1 ∧ msg.notary.length ≤ maxNotary := by
  unfold recvNotaryReq at hr
  split at hr
  · cases hr
  · next hlen =>
    obtain ⟨sig, -, rfl⟩ := Option.map_eq_some_iff.mp hr
    exact ⟨by simp, not_lt.mp hlen⟩

/-- **Hops**: each adds one entry, and only a request with more than `MAX_NOTARY` is refused. -/
theorem length_hops {ws : List Wallet} (hr : hops P ws msg = some res) :
    res.notary.length = msg.notary.length + ws.length ∧
      (ws ≠ [] → res.notary.length ≤ maxNotary + 1) := by
  induction ws generalizing msg with
  | nil =>
    cases hr
    exact ⟨rfl, fun hne => absurd rfl hne⟩
  | cons w ws ih =>
    obtain ⟨mid, hmid, hrest⟩ := Option.bind_eq_some_iff.mp hr
    obtain ⟨hlen, hle⟩ := length_recvNotaryReq hmid
    obtain ⟨hlen', hle'⟩ := ih hrest
    refine ⟨by rw [hlen', hlen, List.length_cons]; omega, fun _ => ?_⟩
    cases ws with
    | nil =>
      rw [hlen', List.length_nil]
      omega
    | cons w' ws => exact hle' (List.cons_ne_nil _ _)

/-- **Notarisation.**  After every run of a new node, `WaitNotary` returns the signatures of the
responses that have arrived for the contract since it was first requested, all of them and as they
arrived.  They are signatures of the request by `MAX_NOTARY - 1` different notaries when every
response brings some, all valid, of notaries that no other one brings.  And a request has one more
entry after every hop: no more than `MAX_NOTARY` of them if there are no more hops. -/
theorem notarisation (owner : Address) (contract : Bytes) :
    (∀ acts s res, run P (newReq P owner contract).cttHash acts = some s →
      s.result (newReq P owner contract).cttHash = some res →
      res.notary = (accepted P (newReq P owner contract).cttHash false acts).flatMap
        NotaryReq.notary ∧
      ((∀ m ∈ accepted P (newReq P owner contract).cttHash false acts,
          m.notary ≠ [] ∧ ∀ e ∈ m.notary, (newReq P owner contract).Signed P e) →
        (accepted P (newReq P owner contract).cttHash false acts).Pairwise
          (fun m m' => (m.notary.map Scrivener.addr).Disjoint (m'.notary.map Scrivener.addr)) →
        (∀ e ∈ res.notary, (newReq P owner contract).Signed P e) ∧
          maxNotary - 1 ≤ (res.notary.map Scrivener.addr).dedup.length)) ∧
    ∀ ws msg res, hops P ws msg = some res →
      res.notary.length = msg.notary.length + ws.length ∧
        (ws ≠ [] → res.notary.length ≤ maxNotary + 1) ∧
        (msg.notary.length + ws.length ≤ maxNotary → res.notary.length ≤ maxNotary) := by
  refine ⟨fun acts s res hrun hres => ?_, fun ws msg res hr => ?_⟩
  · set h := (newReq P owner contract).cttHash
    obtain ⟨hnotary, honce⟩ := heard_run hrun
    unfold Waiting.result at hres
    split at hres
    · next hlen =>
      obtain ⟨msg, -, rfl⟩ := Option.map_eq_some_iff.mp hres
      have hall : s.node.notary h = (accepted P h false acts).flatMap NotaryReq.notary := hnotary
      have hgot : s.got.Subperm (accepted P h false acts) :=
        (List.sublist_append_left _ _).subperm.trans honce
      refine ⟨hall, fun hvalid hdiff => ⟨fun e he => ?_, ?_⟩⟩
      · rw [hall] at he
        obtain ⟨m, hm, he⟩ := List.mem_flatMap.mp he
        exact (hvalid m hm).2 e he
      · obtain ⟨l, hl, hsub⟩ := hgot
        have hdiff' : s.got.Pairwise fun m m' =>
            (m.notary.map Scrivener.addr).Disjoint (m'.notary.map Scrivener.addr) :=
          (hl.pairwise_iff fun hd => hd.symm).mp (hdiff.sublist hsub)
        have hcount := Quorum.length_le_dedup_flatMap
          (f := fun m : NotaryRes => m.notary.map Scrivener.addr) (fun m hm => by
            have hm' := hsub.subset (hl.mem_iff.mpr hm)
            simpa using (hvalid m hm').1) hdiff'
        rw [← hlen]
        refine hcount.trans ((List.nodup_dedup _).subperm fun x hx => ?_).length_le
        rw [List.mem_dedup, hall, List.map_flatMap]
        obtain ⟨m, hm, hx⟩ := List.mem_flatMap.mp (List.mem_dedup.mp hx)
        exact List.mem_flatMap.mpr ⟨m, hsub.subset (hl.mem_iff.mpr hm), hx⟩
    · cases hres
  · obtain ⟨hlen, hle⟩ := length_hops hr
    exact ⟨hlen, hle, fun h => hlen ▸ h⟩

end Publish

namespace Sample

open Publish

/-- A notary whose signature spells one byte. -/
def scrivener (x : UInt8) : Scrivener :=
  ⟨FixedBytes.ofBytes 20 (keccak (List.replicate 65 x)).bytes, List.replicate 65 x⟩

/-- The request for a contract. -/
def asked : NotaryReq := newReq prims (address 1) [1]

/-- A response with these signatures. -/
def answered (es : List Scrivener) : NotaryRes := { asked with notary := es }

/-- The contract is requested, and two responses arrive and are received. -/
def twoAnswers (m m' : NotaryRes) : List Act :=
  [.reqNotary (address 1) [1], .recvNotaryRes m, .listen, .receive m, .recvNotaryRes m', .listen,
    .receive m']

/-- The signatures that `WaitNotary` returns then. -/
def returned (m m' : NotaryRes) : Option (List Scrivener) := do
  let s ← run prims asked.cttHash (twoAnswers m m')
  let res ← s.result asked.cttHash
  some res.notary

/-- A notary of the small example. -/
def wallet (x : UInt8) : Wallet := ⟨(scrivener x).addr, fun _ => some (scrivener x).sign⟩

end Sample

namespace Publish

open Sample (prims address asked answered scrivener twoAnswers returned wallet)

/-- The law applies to two responses of two notaries. -/
theorem notarisation_two :
    ∃ s ∈ run prims asked.cttHash (twoAnswers (answered [scrivener 1]) (answered [scrivener 2])),
      ∃ res ∈ s.result asked.cttHash, (∀ e ∈ res.notary, asked.Signed prims e) ∧
        maxNotary - 1 ≤ (res.notary.map Scrivener.addr).dedup.length := by
  have hrun : ∃ s ∈ run prims asked.cttHash
      (twoAnswers (answered [scrivener 1]) (answered [scrivener 2])),
      (s.result asked.cttHash).isSome = true := by
    decide +kernel
  have hacc : accepted prims asked.cttHash false
      (twoAnswers (answered [scrivener 1]) (answered [scrivener 2]))
        = [answered [scrivener 1], answered [scrivener 2]] := by
    decide +kernel
  have h₁ : asked.Signed prims (scrivener 1) := by decide +kernel
  have h₂ : asked.Signed prims (scrivener 2) := by decide +kernel
  have hne : (scrivener 1).addr ≠ (scrivener 2).addr := by decide +kernel
  obtain ⟨s, hs, hsome⟩ := hrun
  obtain ⟨res, hres⟩ := Option.isSome_iff_exists.mp hsome
  refine ⟨s, hs, res, hres, ((notarisation (address 1) [1]).1 _ s res hs hres).2 ?_ ?_⟩
  · show ∀ m ∈ accepted prims asked.cttHash false _, _
    rw [hacc]
    simp only [List.mem_cons, List.not_mem_nil, or_false, forall_eq_or_imp, forall_eq]
    refine ⟨⟨List.cons_ne_nil _ _, fun e he => ?_⟩, List.cons_ne_nil _ _, fun e he => ?_⟩
    · rw [List.mem_singleton.mp he]
      exact h₁
    · rw [List.mem_singleton.mp he]
      exact h₂
  · show (accepted prims asked.cttHash false _).Pairwise _
    rw [hacc]
    refine List.pairwise_pair.mpr fun a ha ha' => ?_
    obtain ⟨e, he, rfl⟩ := List.mem_map.mp ha
    obtain ⟨e', he', heq⟩ := List.mem_map.mp ha'
    rw [List.mem_singleton.mp he, List.mem_singleton.mp he'] at heq
    exact hne heq.symm

/-- **Responses without notaries**: two that carry nothing, one that arrives twice, two with forged
signatures; and a request that has gone through four hops. -/
theorem notarisation_without_notaries :
    returned (answered []) (answered []) = some [] ∧
      returned (answered [scrivener 1]) (answered [scrivener 1])
        = some [scrivener 1, scrivener 1] ∧
      (∃ es ∈ returned (answered [⟨address 7, []⟩]) (answered [⟨address 8, []⟩]),
        ∀ e ∈ es, recoverPlain prims (asked.hash prims) e.sign ≠ some e.addr) ∧
      ∃ res ∈ hops prims [wallet 1, wallet 2, wallet 3, wallet 4] asked,
        maxNotary < res.notary.length := by
  decide +kernel

end Publish

end Gocoin
