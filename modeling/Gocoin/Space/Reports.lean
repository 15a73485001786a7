import Gocoin.Protocol.Wire
import Gocoin.Rlp.Consumption
import Gocoin.Space.Genesis
import Gocoin.Space.TxPool

/-!
# Space/Reports — which settlement reports are stored

`downLoad` fetches a report and the file of its signatures, decodes the file and stores the report
unless a signature is by somebody who is no member.  It does not look whether the file decoded, nor
whether there is a signature: a file that is no report leaves an empty list, and over an empty list
the loop finds nothing to object to.  So a report that is stored is an authorised one exactly where
the file decodes to some signature, or where the loop objects, or where the decoding panics over a
length that cannot be allocated (`report_authorised_iff`).

The signer of a signature is what `Sender` says, the zero address.
-/

namespace Gocoin.Space

/-- `report`. -/
structure Report where
  hash : Hash
  sign : List Bytes
  deriving DecidableEq

namespace Report

/-- The decoder of a `report`. -/
def decode : Decoder Report := decodeStruct do
  let hash ← field "Hash" (decodeFixed 32)
  let sign ← field "Sign" (decodeListSlice decodeByteSlice)
  pure ⟨hash, sign⟩

/-- `NewStream` over a buffer: the stream has no limit. -/
def bufferStream (file : Bytes) : Stream :=
  { Stream.new file with remaining := 2 ^ 64 + file.length }

/-- `Decode` of a file, with the error that nobody looks at. -/
def ofFile (file : Bytes) : Except StreamErr Report :=
  match decode (bufferStream file) with
  | .ok r _ => .ok r
  | .error e _ => .error e

end Report

namespace TxPool

/-! ## What is left of a file that decodes -/

variable {P : Prims}

/-- The signatures that are left of a slice that is read to its end are its elements, unless one of
them is too long to allocate. -/
theorem decodeSigns_eq {fuel n i : ℕ} {s s' : Stream} {signs : List Bytes}
    (h : decodeSliceElems decodeByteSlice n i s = .ok signs s') (hfuel : signs.length < fuel) :
    decodeSigns P fuel s = none ∨ decodeSigns P fuel s = some signs := by
  induction n generalizing fuel i s signs with
  | zero => cases h
  | succ n ih =>
    obtain ⟨fuel, rfl⟩ := Nat.exists_eq_succ_of_ne_zero (Nat.ne_zero_of_lt hfuel)
    rw [decodeSliceElems] at h
    rw [decodeSigns]
    by_cases halloc : P.maxAlloc < sliceAhead s
    · exact .inl (if_pos halloc)
    rw [if_neg halloc]
    cases hr : decodeByteSlice s with
    | error e s₁ =>
      simp only [hr] at h ⊢
      split at h
      · next heol =>
        cases h
        exact .inr (by rw [if_pos heol])
      · cases h
    | ok sign s₁ =>
      simp only [hr] at h ⊢
      obtain ⟨signs', s₂, h₁, h₂⟩ := bind_eq_ok.mp h
      cases h₂
      exact (ih h₁ (Nat.lt_of_succ_lt_succ hfuel)).imp (by simp [·]) (by simp [·])

/-- An empty list leaves no signature. -/
theorem decodeSigns_of_size_zero {fuel : ℕ} {s : Stream} (hkind : s.kind = none)
    (hstack : s.stack.head? = some ⟨0, 0⟩) : decodeSigns P fuel s = some [] := by
  cases fuel with
  | zero => rfl
  | succ fuel =>
    have hahead : Stream.kindAhead s = .error .eol { s with kinderr := none } := by
      simp [Stream.kindAhead, hkind, Stream.nextKind, Stream.atEOL, hstack]
    have heol : decodeByteSlice s = .error .eol { s with kinderr := none } :=
      mapErr_eq_error.mpr ⟨.eol, bind_eq_error.mpr (.inl hahead), rfl⟩
    rw [decodeSigns, heol, sliceAhead, hahead, if_neg (Nat.not_lt_zero _)]
    rfl

/-- **A file that decodes leaves the signatures of its report**, unless one of them is too long to
allocate. -/
theorem reportSigns_of_decode {file : Bytes} {r : Report} (h : Report.ofFile file = .ok r) :
    reportSigns P file = none ∨ reportSigns P file = some r.sign := by
  obtain ⟨s, hs⟩ : ∃ s, Report.decode (Report.bufferStream file) = .ok r s := by
    unfold Report.ofFile at h
    split at h
    · next hr =>
      cases h
      exact ⟨_, hr⟩
    · cases h
  obtain ⟨size, s₁, h₁, hs⟩ := bind_eq_ok.mp hs
  obtain ⟨r', s₅, hfields, hs⟩ := bind_eq_ok.mp hs
  obtain ⟨_, _, _, hs⟩ := bind_eq_ok.mp hs
  cases hs
  obtain ⟨hash, s₂, h₂, hfields⟩ := bind_eq_ok.mp hfields
  obtain ⟨signs, s₄, h₃, hfields⟩ := bind_eq_ok.mp hfields
  cases hfields
  obtain ⟨b, s₂', hb, hpure⟩ := bind_eq_ok.mp (mapErr_eq_ok.mp h₂)
  cases hpure
  obtain ⟨size', s₃, hlist, hrest⟩ := bind_eq_ok.mp (mapErr_eq_ok.mp h₃)
  have hlist' := mapErr_eq_ok.mp hlist
  obtain ⟨-, hle₁, -⟩ := list_enters (mapErr_eq_ok.mp h₁)
  have hle₂ := shrinks_decodeByteArray (by norm_num) hb
  obtain ⟨hkind, hle₃, hstack⟩ := list_enters hlist'
  rw [Report.bufferStream] at h₁
  rw [reportSigns, mapErr_eq_ok.mp h₁]
  simp only [hb, hlist']
  split at hrest
  · next hzero =>
    obtain ⟨_, _, _, hpure⟩ := bind_eq_ok.mp hrest
    cases hpure
    exact .inr (decodeSigns_of_size_zero hkind (by rw [hstack, hzero]))
  · obtain ⟨as, s₄', helems, hrest⟩ := bind_eq_ok.mp hrest
    obtain ⟨_, _, _, hpure⟩ := bind_eq_ok.mp hrest
    cases hpure
    have hlen := length_decodeSliceElems_le consumes_decodeByteSlice hkind helems
    have hfile : (Report.bufferStream file).input.length = file.length := rfl
    exact decodeSigns_eq helems (by omega)

/-! ## What is stored -/

section

variable (P : Prims) (fetch : Bytes → Option Bytes) (bc : BlockChain)

/-- The key of the report. -/
def reportKey (tx : Tx) : Bytes := (tx.payload.drop 1).take 46

/-- The key of the file of its signatures. -/
def signKey (tx : Tx) : Bytes := tx.payload.drop (1 + 46)

/-- What `downLoad` hands to `SaveLiquidationReport`, when it does not crash. -/
def savedReport (tx : Tx) : Option (Option Bytes) :=
  if tx.payload.length < 1 + 46 then none
  else
    match fetch (reportKey tx), fetch (signKey tx) with
    | some report, some file => (reportSigns P file).map fun signs =>
        if signs.all fun sign => bc.isStellMember (reportSender sign) then some report else none
    | _, _ => some none

/-- The file has a signature, and all of them are by members. -/
def Authorised (file : Bytes) : Prop :=
  ∃ r, Report.ofFile file = .ok r ∧ r.sign ≠ [] ∧
    ∀ sign ∈ r.sign, bc.isStellMember (reportSender sign) = true

variable {P fetch bc}

/-- `downLoad` stores the saved report, and nothing else. -/
theorem downLoadTx_eq (pool : TxPool) (tx : Tx) :
    downLoadTx P fetch bc pool tx = (savedReport P fetch bc tx).map fun saved => saved.elim
      ({ pool with downloading := pool.downloading.erase tx }, bc.db)
      (downLoad P bc.db pool tx) := by
  unfold downLoadTx savedReport reportKey signKey
  by_cases hlen : tx.payload.length < 1 + 46
  · rw [if_pos hlen, if_pos hlen]
    rfl
  · rw [if_neg hlen, if_neg hlen]
    cases fetch ((tx.payload.drop 1).take 46) with
    | none => rfl
    | some report =>
      cases fetch (tx.payload.drop (1 + 46)) with
      | none => rfl
      | some file =>
        dsimp only
        cases reportSigns P file with
        | none => rfl
        | some signs =>
          simp only [some_bind, Option.map_some]
          split
          · rfl
          · rfl

/-- The loop over the signatures objects to nothing when there is none, or when the zero address is
a member. -/
theorem all_reportSender {signs : List Bytes} :
    (signs.all fun sign => bc.isStellMember (reportSender sign)) = true ↔
      signs = [] ∨ bc.isStellMember (.zero 20) = true := by
  cases signs with
  | nil => simp
  | cons sign signs =>
    simp only [reportSender, List.all_eq_true, List.mem_cons, forall_eq_or_imp, reduceCtorEq,
      false_or, and_iff_left_iff_imp]
    exact fun h _ _ => h

/-- When a report is saved. -/
theorem savedReport_eq_some {tx : Tx} {report : Bytes} :
    savedReport P fetch bc tx = some (some report) ↔
      47 ≤ tx.payload.length ∧ fetch (reportKey tx) = some report ∧
        ∃ file signs, fetch (signKey tx) = some file ∧ reportSigns P file = some signs ∧
          (signs = [] ∨ bc.isStellMember (.zero 20) = true) := by
  unfold savedReport
  by_cases hlen : tx.payload.length < 1 + 46
  · simp only [if_pos hlen, reduceCtorEq, false_iff]
    omega
  · rw [if_neg hlen]
    cases fetch (reportKey tx) with
    | none => simp
    | some report' =>
      cases fetch (signKey tx) with
      | none => simp
      | some file =>
        simp only [Option.map_eq_some_iff, Option.ite_none_right_eq_some, all_reportSender,
          Option.some.injEq]
        constructor
        · rintro ⟨signs, hsigns, hall, rfl⟩
          exact ⟨by omega, rfl, file, signs, rfl, hsigns, hall⟩
        · rintro ⟨-, rfl, _, signs, rfl, hsigns, hall⟩
          exact ⟨signs, hsigns, hall, rfl⟩

/-- A file that decodes to some signature is authorised when the loop finds nothing to object to. -/
theorem authorised_iff {file : Bytes} :
    Authorised bc file ↔ (∃ r, Report.ofFile file = .ok r ∧ r.sign ≠ []) ∧
      bc.isStellMember (.zero 20) = true := by
  constructor
  · rintro ⟨r, hr, hne, hall⟩
    obtain ⟨sign, hsign⟩ := List.exists_mem_of_ne_nil _ hne
    exact ⟨⟨r, hr, hne⟩, hall sign hsign⟩
  · rintro ⟨⟨r, hr, hne⟩, hzero⟩
    exact ⟨r, hr, hne, fun _ _ => hzero⟩

end

/-- **When a stored report is authorised.**  `downLoad` stores what `savedReport` says: the report,
when the payload has both keys, both files are there, and the decoding of the second leaves no
signature or the zero address is a member.  That a stored report is authorised holds exactly if a
key or a file is missing, or the decoding of the file panics, or the file decodes to some signature,
or the decoding leaves some signature and the zero address is no member. -/
theorem report_authorised_iff (P : Prims) (fetch : Bytes → Option Bytes) (bc : BlockChain)
    (pool : TxPool) (tx : Tx) :
    (downLoadTx P fetch bc pool tx = (savedReport P fetch bc tx).map fun saved => saved.elim
      ({ pool with downloading := pool.downloading.erase tx }, bc.db)
      (downLoad P bc.db pool tx)) ∧
    (∀ report, savedReport P fetch bc tx = some (some report) ↔
      47 ≤ tx.payload.length ∧ fetch (reportKey tx) = some report ∧
        ∃ file signs, fetch (signKey tx) = some file ∧ reportSigns P file = some signs ∧
          (signs = [] ∨ bc.isStellMember (.zero 20) = true)) ∧
    ((∀ report, savedReport P fetch bc tx = some (some report) →
        ∃ file, fetch (signKey tx) = some file ∧ Authorised bc file) ↔
      tx.payload.length < 47 ∨ fetch (reportKey tx) = none ∨ fetch (signKey tx) = none ∨
        ∃ file, fetch (signKey tx) = some file ∧ (reportSigns P file = none ∨
          (∃ r, Report.ofFile file = .ok r ∧ r.sign ≠ []) ∨
          reportSigns P file ≠ some [] ∧ bc.isStellMember (.zero 20) = false)) := by
  refine ⟨downLoadTx_eq pool tx, fun report => savedReport_eq_some, ?_⟩
  simp only [savedReport_eq_some, authorised_iff]
  constructor
  · intro h
    by_contra hno
    simp only [not_or, not_lt, ← ne_eq, Option.ne_none_iff_exists'] at hno
    obtain ⟨hlen, ⟨report, hreport⟩, ⟨file, hfile⟩, hfail⟩ := hno
    have hdecodes : ¬ ∃ r, Report.ofFile file = .ok r ∧ r.sign ≠ [] :=
      fun hr => hfail ⟨file, hfile, .inr (.inl hr)⟩
    obtain ⟨signs, hsigns⟩ : ∃ signs, reportSigns P file = some signs :=
      Option.ne_none_iff_exists'.mp fun hnone => hfail ⟨file, hfile, .inl hnone⟩
    have hstored : signs = [] ∨ bc.isStellMember (.zero 20) = true := by
      by_contra hnot
      rw [not_or, Bool.not_eq_true] at hnot
      exact hfail ⟨file, hfile, .inr (.inr ⟨fun hnil => hnot.1 (by simpa [hsigns] using hnil),
        hnot.2⟩)⟩
    obtain ⟨file', hfile', hr, -⟩ := h report ⟨hlen, hreport, file, signs, hfile, hsigns, hstored⟩
    rw [hfile] at hfile'
    cases hfile'
    exact hdecodes hr
  · rintro h report ⟨hlen, hreport, file, signs, hfile, hsigns, hstored⟩
    rcases h with h | h | h | ⟨file', hfile', h⟩
    · omega
    · rw [hreport] at h
      cases h
    · rw [hfile] at h
      cases h
    · rw [hfile] at hfile'
      cases hfile'
      rw [hsigns] at h
      rcases h with h | ⟨r, hr, hne⟩ | ⟨hne, hzero⟩
      · cases h
      · have hr' : signs = r.sign := by
          simpa [hsigns] using reportSigns_of_decode (P := P) hr
        exact ⟨file, hfile, ⟨r, hr, hne⟩, hstored.resolve_left (hr' ▸ hne)⟩
      · rw [hzero] at hstored
        exact absurd (congrArg some (hstored.resolve_right Bool.false_ne_true)) hne

end TxPool

end Gocoin.Space

namespace Gocoin.Sample

open Space TxPool

/-- A settlement report with its two keys. -/
def reportTx : Tx := ⟨0, none, 0, 0, 9 :: List.replicate 46 1 ++ [2], 27, 1, 1⟩

/-- The file of a report that nobody signed. -/
def unsigned : Bytes := [0xE2, 0xA0] ++ List.replicate 32 7 ++ [0xC0]

/-- **Reports that nobody signed are stored**, on a chain without any member: one whose file of
signatures is no report, and one whose file has no signature. -/
theorem unsigned_report_saved :
    reportTx.ptype = some .stellReport ∧
    Report.ofFile [1] = .error (.decode "expected input list" []) ∧
    Report.ofFile unsigned = .ok ⟨FixedBytes.ofBytes 32 (List.replicate 32 7), []⟩ ∧
    ∃ bc ∈ chain, ∀ file ∈ [[1], unsigned], bc.isStellMember (.zero 20) = false ∧
      savedReport prims (fun _ => some file) bc reportTx = some (some file) ∧
      ∃ r ∈ downLoadTx prims (fun _ => some file) bc .empty reportTx,
        getLiquidation r.2 (reportTx.hash prims) = file ∧
        r.1.all.lookup (reportTx.hash prims) = some reportTx := by
  decide +kernel

end Gocoin.Sample
