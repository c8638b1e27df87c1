import WalG.Foundation.Stream
import WalG.Foundation.Text

/-! # Transactions of the oplog

The operations of a transaction are buffered until its last entry arrives. Entries are read and buffered
by the driver.
-/
namespace WalG.Mongo
open Foundation List Function

/-- What the driver says of an entry. -/
structure TxnMeta (Id : Type) where
  id : Id
  isTxn : Bool
  isAbort : Bool
  isCommit : Bool

/-- The driver's functions on entries. To the driver an abort ends its transaction as a commit does, and it
carries no operations. -/
structure TxnOplog (Op Id : Type) where
  operation : Op → Text
  namespaceOf : Op → Text
  newMeta : Op → Except Text (TxnMeta Id)
  /-- The operations that an entry of a transaction carries. -/
  innerOps : Op → List Op
  applyOp : Op → Except Text Unit
  isCommit_of_isAbort : ∀ op m, newMeta op = .ok m → m.isAbort = true → m.isCommit = true
  innerOps_of_isAbort : ∀ op m, newMeta op = .ok m → m.isAbort = true → innerOps op = []

/-- The driver's buffer, by the operations that it has of each transaction. -/
structure TxnBuffer {Op Id : Type} [DecidableEq Id] (O : TxnOplog Op Id) where
  State : Type
  content : State → Id → Option (List Op)
  newBuffer : State
  addOp : State → TxnMeta Id → Op → Except Text State
  purgeTxn : State → TxnMeta Id → Except Text State
  getTxnStream : State → TxnMeta Id → Except Text (List Op)
  content_newBuffer : content newBuffer = fun _ => none
  content_addOp : ∀ {b m op b'}, addOp b m op = .ok b' →
    content b' = update (content b) m.id (some ((content b m.id).getD [] ++ O.innerOps op))
  content_purgeTxn : ∀ {b m b'}, purgeTxn b m = .ok b' → content b' = update (content b) m.id none
  content_of_stream : ∀ {b m ops}, getTxnStream b m = .ok ops → content b m.id = some ops

structure DBApplier {Op Id : Type} [DecidableEq Id] {O : TxnOplog Op Id} (B : TxnBuffer O) where
  txnBuffer : B.State
  /-- The operations that went through `handleNonTxnOp`. -/
  applied : List Op

section Code

variable {Op Id : Type} [DecidableEq Id] (O : TxnOplog Op Id)

def TxnOplog.shouldSkip (op : Op) : Bool :=
  decide (O.operation op = ['n']) || "config.".toList.isPrefixOf (O.namespaceOf op)

namespace DBApplier

variable {O} {B : TxnBuffer O} (ap : DBApplier B)

def handleNonTxnOp (op : Op) : Except Text (DBApplier B) := do
  O.applyOp op
  .ok { ap with applied := ap.applied ++ [op] }

def applyTxn (m : TxnMeta Id) : Except Text (DBApplier B) := do
  let ops ← B.getTxnStream ap.txnBuffer m
  ops.foldlM handleNonTxnOp ap

def handleTxnOp (m : TxnMeta Id) (op : Op) : Except Text (DBApplier B) := do
  let purged ← (if m.isAbort then
      (B.purgeTxn ap.txnBuffer m).mapError ("can not clean txn buffer after rollback cmd: ".toList ++ ·)
    else .ok ap.txnBuffer)
  let added ← (B.addOp purged m op).mapError ("can not append command to txn buffer: ".toList ++ ·)
  if m.isCommit then do
    let ap ← applyTxn { ap with txnBuffer := added } m
    let purged ← (B.purgeTxn ap.txnBuffer m).mapError ("txn buffer failed to purge: ".toList ++ ·)
    .ok { ap with txnBuffer := purged }
  else .ok { ap with txnBuffer := added }

def handleOp (op : Op) : Except Text (DBApplier B) := do
  let m ← (O.newMeta op).mapError ("can not extract op metadata: ".toList ++ ·)
  if m.isTxn then ap.handleTxnOp m op else ap.handleNonTxnOp op

def apply (op : Op) : Except Text (DBApplier B) := if O.shouldSkip op then .ok ap else ap.handleOp op

variable (B) in
def run (entries : List Op) : Except Text (DBApplier B) := entries.foldlM apply ⟨B.newBuffer, []⟩

end DBApplier

end Code

namespace TxnOplog

variable {Op Id : Type} [DecidableEq Id] (O : TxnOplog Op Id)

def visible (entries : List Op) : List Op := entries.filter fun op => !O.shouldSkip op

/-- The transaction that an entry is part of. -/
def txn (op : Op) : Option (TxnMeta Id) := (O.newMeta op).toOption.filter TxnMeta.isTxn

def ofTxn (id : Id) (op : Op) : Bool := (O.txn op).any fun m => m.id = id

/-- Some entry that ends the transaction in a way. -/
def ended (way : TxnMeta Id → Bool) (id : Id) (entries : List Op) : Bool :=
  entries.any fun op => (O.txn op).any fun m => decide (m.id = id) && way m

def aborted : Id → List Op → Bool := O.ended TxnMeta.isAbort

def committed : Id → List Op → Bool := O.ended fun m => m.isCommit && !m.isAbort

/-- Nothing of a transaction comes after its commit or abort. -/
def WellFormed (entries : List Op) : Prop := entries.Pairwise fun op later =>
  ∀ m ∈ O.txn op, m.isCommit = true → O.ofTxn m.id later = false

/-- The operations of a transaction, in order. -/
def opsOf (id : Id) (entries : List Op) : List Op := (entries.filter (O.ofTxn id)).flatMap O.innerOps

/-- What an entry makes due: itself, or with a commit all operations of its transaction. -/
def due (before : List Op) (op : Op) : List Op :=
  match O.txn op with
  | none => [op]
  | some m => if m.isCommit && !m.isAbort then O.opsOf m.id (before ++ [op]) else []

def expected : List Op → List Op → List Op
  | _, [] => []
  | before, op :: rest => O.due before op ++ expected (before ++ [op]) rest

/-- What the buffer has of a transaction after some entries. -/
def pending (entries : List Op) (id : Id) : Option (List Op) :=
  if O.ended TxnMeta.isCommit id entries || !entries.any (O.ofTxn id) then none else some (O.opsOf id entries)

variable {O} {entries : List Op} {op : Op} {id : Id}

theorem ended_mono {way way' : TxnMeta Id → Bool} (hway : ∀ op ∈ entries, ∀ m ∈ O.txn op, way m = true → way' m = true)
    (h : O.ended way id entries = true) : O.ended way' id entries = true := by
  simp only [ended, any_eq_true, Option.any_eq_true, Bool.and_eq_true] at h ⊢
  obtain ⟨op, hop, m, hm, hid, hend⟩ := h
  exact ⟨op, hop, m, hm, hid, hway op hop m hm hend⟩

omit [DecidableEq Id] in
theorem isCommit_of_txn {m : TxnMeta Id} (h : O.txn op = some m) (habort : m.isAbort = true) :
    m.isCommit = true ∧ O.innerOps op = [] := by
  obtain ⟨hmeta, -⟩ := Option.filter_eq_some_iff.mp h
  cases hnew : O.newMeta op with
  | error e =>
    rw [hnew] at hmeta
    cases hmeta
  | ok m' =>
    rw [hnew] at hmeta
    cases hmeta
    exact ⟨O.isCommit_of_isAbort op _ hnew habort, O.innerOps_of_isAbort op _ hnew habort⟩

theorem expected_concat (before entries : List Op) (op : Op) :
    O.expected before (entries ++ [op]) = O.expected before entries ++ O.due (before ++ entries) op := by
  induction entries generalizing before with
  | nil => simp [expected]
  | cons first entries ih => simp [expected, ih]

theorem getD_pending (h : O.ended TxnMeta.isCommit id entries = false) :
    (O.pending entries id).getD [] = O.opsOf id entries := by
  rw [pending, h]
  cases hany : entries.any (O.ofTxn id) with
  | true => simp
  | false => simp [opsOf, filter_eq_nil_iff.mpr (any_eq_false.mp hany)]

/-- An entry changes what is pending of its own transaction only. -/
theorem pending_concat_of_ne (h : O.ofTxn id op = false) : O.pending (entries ++ [op]) id = O.pending entries id := by
  have hway : ((O.txn op).any fun m => decide (m.id = id) && m.isCommit) = false := by
    rw [ofTxn, Option.any_eq_false] at h
    rw [Option.any_eq_false]
    intro m hm
    simpa using fun hid => absurd hid (by simpa using h m hm)
  simp [pending, ended, opsOf, h, hway]

/-- A transaction with one more entry has not ended before. -/
theorem WellFormed.not_ended (h : O.WellFormed (entries ++ [op])) (hop : O.ofTxn id op = true) :
    O.ended TxnMeta.isCommit id entries = false := by
  simp only [ended, any_eq_false, Option.any_eq_true, Bool.and_eq_true, decide_eq_true_eq]
  rintro a ha ⟨m, hm, rfl, hcommit⟩
  have hlater := (pairwise_append.mp h).2.2 a ha op (mem_singleton_self _) m hm hcommit
  cases hop.symm.trans hlater

theorem WellFormed.not_aborted (h : O.WellFormed entries) (hcommitted : O.committed id entries = true) :
    O.aborted id entries = false := by
  by_contra haborted
  rw [Bool.not_eq_false] at haborted
  simp only [committed, aborted, ended, any_eq_true, Option.any_eq_true, Bool.and_eq_true, decide_eq_true_eq,
    Bool.not_eq_true'] at hcommitted haborted
  obtain ⟨a, ha, m, hm, rfl, hcommit, hnot⟩ := hcommitted
  obtain ⟨b, hb, m', hm', hid, habort⟩ := haborted
  have hne : a ≠ b := by
    rintro rfl
    rw [Option.some.inj (hm.symm.trans hm'), habort] at hnot
    cases hnot
  -- whichever of the two entries comes first ends the transaction
  let R (op later : Op) : Prop := ∀ m ∈ O.txn op, m.isCommit = true → O.ofTxn m.id later = false
  have : Std.Symm fun op later => R op later ∨ R later op := ⟨fun _ _ => Or.symm⟩
  have hpair : entries.Pairwise fun op later => R op later ∨ R later op := h.imp Or.inl
  rcases hpair.forall ha hb hne with hfirst | hfirst
  · simpa [ofTxn, hm', hid] using hfirst m hm hcommit
  · simpa [ofTxn, hm, hid] using hfirst m' hm' (isCommit_of_txn hm' habort).1

/-- What is due comes from outside of transactions or from one that is committed. -/
theorem mem_expected {before : List Op} (h : op ∈ O.expected before entries) :
    op ∈ entries ∧ O.txn op = none ∨ ∃ e ∈ before ++ entries, ∃ m, O.txn e = some m ∧ op ∈ O.innerOps e ∧
      O.committed m.id entries = true := by
  induction entries generalizing before with
  | nil => cases h
  | cons first entries ih =>
    rw [expected, mem_append] at h
    rcases h with h | h
    · rw [due] at h
      cases hfirst : O.txn first with
      | none =>
        rw [hfirst] at h
        obtain rfl := mem_singleton.mp h
        exact .inl ⟨mem_cons_self, hfirst⟩
      | some m =>
        simp only [hfirst] at h
        split_ifs at h with hend
        · obtain ⟨e, he, hop⟩ := mem_flatMap.mp h
          obtain ⟨he, hofTxn⟩ := mem_filter.mp he
          obtain ⟨m', hm', hid⟩ := (Option.any_eq_true _ _).mp hofTxn
          refine .inr ⟨e, ?_, m', hm', hop, ?_⟩
          · simpa using Or.imp_right Or.inl (by simpa using he)
          · simp [committed, ended, hfirst, of_decide_eq_true hid, hend]
        · cases h
    · refine (ih h).imp (fun ⟨hmem, hnone⟩ => ⟨mem_cons_of_mem _ hmem, hnone⟩) ?_
      rintro ⟨e, he, m, hm, hop, hcommitted⟩
      refine ⟨e, by simpa using he, m, hm, hop, ?_⟩
      rw [committed, ended, any_cons, Bool.or_eq_true]
      exact .inr hcommitted

end TxnOplog

namespace DBApplier

open TxnOplog

variable {Op Id : Type} [DecidableEq Id] {O : TxnOplog Op Id} {B : TxnBuffer O} {ap ap' : DBApplier B}
  {entries : List Op} {op : Op} {m : TxnMeta Id}

theorem handleNonTxnOp_ok (h : ap.handleNonTxnOp op = .ok ap') : ap' = { ap with applied := ap.applied ++ [op] } := by
  obtain ⟨-, -, h⟩ := bind_ok h
  exact (Except.ok.inj h).symm

theorem applyTxn_ok (h : ap.applyTxn m = .ok ap') :
    ∃ ops, B.content ap.txnBuffer m.id = some ops ∧ ap' = { ap with applied := ap.applied ++ ops } := by
  obtain ⟨ops, hops, hfold⟩ := bind_ok h
  refine ⟨ops, B.content_of_stream hops, ?_⟩
  clear hops h
  induction ops generalizing ap with
  | nil => simpa [pure, Except.pure, eq_comm] using hfold
  | cons op ops ih =>
    obtain ⟨next, hnext, hfold⟩ := bind_ok hfold
    rw [ih hfold, handleNonTxnOp_ok hnext]
    simp

/-- An abort leaves nothing and applies nothing, a commit applies what was buffered and its own operations. -/
theorem handleTxnOp_ok (hop : O.txn op = some m) (h : ap.handleTxnOp m op = .ok ap') :
    B.content ap'.txnBuffer = update (B.content ap.txnBuffer) m.id
      (if m.isCommit then none else some ((B.content ap.txnBuffer m.id).getD [] ++ O.innerOps op)) ∧
    ap'.applied = ap.applied ++ if m.isCommit && !m.isAbort then
      (B.content ap.txnBuffer m.id).getD [] ++ O.innerOps op else [] := by
  obtain ⟨purged, hpurged, h₁⟩ := bind_ok h
  obtain ⟨added, hadded, h₂⟩ := bind_ok h₁
  have hcontent : B.content added = update (B.content ap.txnBuffer) m.id
      (some (if m.isAbort then [] else (B.content ap.txnBuffer m.id).getD [] ++ O.innerOps op)) := by
    rw [B.content_addOp (mapError_ok_iff.mp hadded)]
    split_ifs at hpurged ⊢ with habort
    · rw [B.content_purgeTxn (mapError_ok_iff.mp hpurged), (isCommit_of_txn hop habort).2]
      simp
    · rw [← Except.ok.inj hpurged]
  cases hcommit : m.isCommit with
  | false =>
    have habort : m.isAbort = false :=
      Bool.eq_false_iff.mpr fun habort => Bool.false_ne_true (hcommit.symm.trans (isCommit_of_txn hop habort).1)
    rw [hcommit, if_neg Bool.false_ne_true] at h₂
    cases h₂
    simp [hcontent, habort]
  | true =>
    rw [if_pos hcommit] at h₂
    obtain ⟨applied, happlied, h₃⟩ := bind_ok h₂
    obtain ⟨last, hlast, h₄⟩ := bind_ok h₃
    obtain ⟨ops, hops, rfl⟩ := applyTxn_ok happlied
    cases h₄
    rw [B.content_purgeTxn (mapError_ok_iff.mp hlast)]
    simp only [hcontent, update_self, Option.some.injEq] at hops
    subst hops
    cases m.isAbort <;> simp [hcontent]

theorem handleOp_ok (hwf : O.WellFormed (entries ++ [op])) (hbuffer : B.content ap.txnBuffer = O.pending entries)
    (h : ap.handleOp op = .ok ap') :
    B.content ap'.txnBuffer = O.pending (entries ++ [op]) ∧ ap'.applied = ap.applied ++ O.due entries op := by
  obtain ⟨m, hmeta, h₁⟩ := bind_ok h
  have hm := mapError_ok_iff.mp hmeta
  cases htxn : m.isTxn with
  | false =>
    have hop : O.txn op = none := by simp [TxnOplog.txn, hm, Except.toOption, htxn]
    rw [htxn, if_neg Bool.false_ne_true] at h₁
    obtain rfl := handleNonTxnOp_ok h₁
    refine ⟨?_, by rw [due, hop]⟩
    funext id
    rw [pending_concat_of_ne (by simp [ofTxn, hop]), ← hbuffer]
  | true =>
    have hop : O.txn op = some m := by simp [TxnOplog.txn, hm, Except.toOption, htxn]
    have hofTxn : O.ofTxn m.id op = true := by simp [ofTxn, hop]
    rw [if_pos htxn] at h₁
    obtain ⟨hcontent, happlied⟩ := handleTxnOp_ok hop h₁
    have hopen := hwf.not_ended hofTxn
    have hops : (B.content ap.txnBuffer m.id).getD [] ++ O.innerOps op = O.opsOf m.id (entries ++ [op]) := by
      rw [hbuffer, getD_pending hopen]
      simp [opsOf, hofTxn]
    rw [hops] at hcontent happlied
    refine ⟨?_, by rw [happlied, due, hop]⟩
    rw [hcontent, hbuffer]
    funext id
    by_cases hid : id = m.id
    · subst hid
      rw [ended] at hopen
      cases hcommit : m.isCommit <;> simp [pending, ended, hopen, hop, hofTxn, hcommit]
    · rw [update_of_ne hid, pending_concat_of_ne]
      simpa [ofTxn, hop] using Ne.symm hid

theorem run_ok (entries : List Op) (h : run B entries = .ok ap) :
    (O.visible entries).foldlM handleOp ⟨B.newBuffer, []⟩ = .ok ap := by
  rw [← h, run, visible, foldlM_filter]
  congr 1
  funext ap op
  cases hskip : O.shouldSkip op <;> simp [apply, hskip, pure, Except.pure]

/-- After some entries the buffer has what is pending, and what was due is applied. -/
theorem foldlM_handleOp_ok (hwf : O.WellFormed entries) (h : entries.foldlM handleOp ⟨B.newBuffer, []⟩ = .ok ap) :
    B.content ap.txnBuffer = O.pending entries ∧ ap.applied = O.expected [] entries := by
  induction entries using reverseRecOn generalizing ap with
  | nil =>
    cases h
    exact ⟨B.content_newBuffer, rfl⟩
  | append_singleton entries op ih =>
    rw [foldlM_append] at h
    obtain ⟨before, hbefore, hlast⟩ := bind_ok h
    rw [foldlM_cons] at hlast
    obtain ⟨after, hafter, hnil⟩ := bind_ok hlast
    cases hnil
    obtain ⟨hbuffer, happlied⟩ := ih (pairwise_append.mp hwf).1 hbefore
    rw [expected_concat, ← happlied]
    exact handleOp_ok hwf hbuffer hafter

/-- In interleaved transactions the operations of a committed one are applied when its commit arrives, and those
of an aborted one never; the buffer has only transactions that are neither committed nor aborted. -/
theorem run_applies (B : TxnBuffer O) (entries : List Op) (hwf : O.WellFormed (O.visible entries))
    (ap : DBApplier B) (hrun : run B entries = .ok ap) :
    ap.applied = O.expected [] (O.visible entries) ∧
      (∀ op ∈ ap.applied, op ∈ O.visible entries ∧ O.txn op = none ∨
        ∃ e ∈ O.visible entries, ∃ m, O.txn e = some m ∧ op ∈ O.innerOps e ∧
          O.committed m.id (O.visible entries) = true ∧ O.aborted m.id (O.visible entries) = false) ∧
      ∀ id, B.content ap.txnBuffer id ≠ none →
        O.committed id (O.visible entries) = false ∧ O.aborted id (O.visible entries) = false := by
  obtain ⟨hbuffer, happlied⟩ := foldlM_handleOp_ok hwf (run_ok entries hrun)
  refine ⟨happlied, fun op hop => ?_, fun id hid => ?_⟩
  · rw [happlied] at hop
    refine (mem_expected hop).imp_right ?_
    rintro ⟨e, he, m, hm, hinner, hcommitted⟩
    exact ⟨e, he, m, hm, hinner, hcommitted, hwf.not_aborted hcommitted⟩
  · have hopen : ¬ O.ended TxnMeta.isCommit id (O.visible entries) = true := by
      intro hended
      rw [hbuffer, pending, hended] at hid
      exact hid rfl
    constructor
    · refine Bool.eq_false_iff.mpr fun hcommitted => hopen (ended_mono (fun _ _ m _ h => ?_) hcommitted)
      exact (Bool.and_eq_true_iff.mp h).1
    · exact Bool.eq_false_iff.mpr fun haborted =>
        hopen (ended_mono (fun _ _ m hm h => (isCommit_of_txn hm h).1) haborted)

section Sample

/-- An operation outside of transactions, one in a transaction, the last one of a transaction, and an abort. -/
inductive SampleOp where
  | plain (n : ℕ)
  | data (id n : ℕ)
  | commit (id n : ℕ)
  | abort (id : ℕ)
  deriving DecidableEq

def SampleOp.newMeta : SampleOp → TxnMeta ℕ
  | plain _ => ⟨0, false, false, false⟩
  | data id _ => ⟨id, true, false, false⟩
  | commit id _ => ⟨id, true, false, true⟩
  | abort id => ⟨id, true, true, true⟩

def SampleOp.innerOps : SampleOp → List SampleOp
  | data _ n => [plain n]
  | commit _ n => [plain n]
  | _ => []

def sampleOplog : TxnOplog SampleOp ℕ where
  operation _ := ['i']
  namespaceOf _ := ['d', '.', 'c']
  newMeta op := .ok op.newMeta
  innerOps := SampleOp.innerOps
  applyOp _ := .ok ()
  isCommit_of_isAbort op m h habort := by
    cases h
    cases op <;> first | rfl | cases habort
  innerOps_of_isAbort op m h habort := by
    cases h
    cases op <;> first | rfl | cases habort

/-- A map from transactions to their operations; what is not in it cannot be purged or read. -/
def mapBuffer {Op Id : Type} [DecidableEq Id] (O : TxnOplog Op Id) : TxnBuffer O where
  State := Id → Option (List Op)
  content := id
  newBuffer _ := none
  addOp b m op := .ok (update b m.id (some ((b m.id).getD [] ++ O.innerOps op)))
  purgeTxn b m := if (b m.id).isNone then .error "txn not found".toList else .ok (update b m.id none)
  getTxnStream b m := (b m.id).elim (.error "txn not found".toList) .ok
  content_newBuffer := rfl
  content_addOp h := (Except.ok.inj h).symm
  content_purgeTxn h := by
    split_ifs at h
    exact (Except.ok.inj h).symm
  content_of_stream {b m ops} h := by
    cases hb : b m.id <;> simp_all

/-- Of three transactions the first is committed, the second aborted, and the third open. -/
def sampleEntries : List SampleOp := [.data 1 10, .data 2 20, .plain 7, .data 3 30, .commit 1 11, .abort 2]

theorem run_applies_interleaved : ∃ ap, run (mapBuffer sampleOplog) sampleEntries = .ok ap ∧
    ap.applied = [.plain 7, .plain 10, .plain 11] ∧ ap.txnBuffer 3 = some [.plain 30] := by
  have hwf : sampleOplog.WellFormed (sampleOplog.visible sampleEntries) := by
    simp [WellFormed, visible, TxnOplog.shouldSkip, sampleEntries, TxnOplog.txn, ofTxn, sampleOplog, isPrefixOf,
      SampleOp.newMeta, Except.toOption]
  exact ⟨_, rfl, (run_applies (mapBuffer sampleOplog) sampleEntries hwf _ rfl).1.trans (by decide), rfl⟩

end Sample

end DBApplier

end WalG.Mongo
