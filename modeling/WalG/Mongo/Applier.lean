import WalG.Foundation.Stream
import WalG.Mongo.Buffer
import WalG.Mongo.Oplog

/-! # Archiving the oplog

The applier gathers operations in its buffer and uploads them when the buffer has reached its size,
when the timer fires, and when the channel is closed.
-/
namespace WalG.Mongo
open Foundation List

structure Upload where
  arch : Archive
  content : Bytes

inductive ApplyError
  | writeOp
  | uploadOplogArchive
  deriving DecidableEq

/-- The settings of the applier, and the sizes in which the uploader reads the `n`-th
archive. -/
structure StorageApplier where
  size : ℤ
  ext : Text
  chunk : ℕ → ℕ → ℕ

structure ApplierState where
  buf : Buffer
  lastKnownTS : Timestamp := 0
  batchStartTS : Timestamp := 0
  restartBatch : Bool := true
  uploads : List Upload := []

inductive ApplyEvent (B : Bson)
  | op (o : Oplog B)
  | timer

variable {B : Bson}

def ApplyEvent.op? : ApplyEvent B → Option (Oplog B)
  | op o => some o
  | timer => none

namespace StorageApplier

def receive (st : ApplierState) (o : Oplog B) : Except ApplyError ApplierState :=
  let st := if st.restartBatch then { st with batchStartTS := o.ts, restartBatch := false } else st
  match st.buf.write o.data with
  | none => .error .writeOp
  | some buf => .ok { st with lastKnownTS := o.ts, buf := buf }

/-- An empty buffer is not uploaded. -/
def upload (sa : StorageApplier) (st : ApplierState) : Except ApplyError ApplierState :=
  let batchSize := st.buf.len
  if batchSize = 0 then .ok st
  else
    match newArchive st.batchStartTS st.lastKnownTS sa.ext .oplog with
    | none => .error .uploadOplogArchive
    | some arch =>
      let (content, buf) := st.buf.reader.readAll (sa.chunk st.uploads.length) (batchSize.toNat + 1)
      .ok { st with uploads := st.uploads ++ [⟨arch, content⟩], buf := buf.reset, batchStartTS := st.lastKnownTS }

def uploadFull (sa : StorageApplier) (st : ApplierState) : Except ApplyError ApplierState :=
  if st.buf.len < sa.size then .ok st else sa.upload st

def handle (sa : StorageApplier) (st : ApplierState) : ApplyEvent B → Except ApplyError ApplierState
  | .op o => do
    let st ← receive st o
    sa.uploadFull st
  | .timer => sa.upload st

/-- The loop up to some event. -/
def serve (sa : StorageApplier) (buf : Buffer) (events : List (ApplyEvent B)) : Except ApplyError ApplierState :=
  events.foldlM sa.handle { buf := buf }

/-- The loop until the channel is closed: what is left in the buffer is uploaded. -/
def apply (sa : StorageApplier) (buf : Buffer) (events : List (ApplyEvent B)) : Except ApplyError (List Upload) := do
  let st ← sa.serve buf events
  let st ← sa.upload st
  .ok st.uploads

end StorageApplier

/-- An archive of a batch: its bytes, up to the timestamp of the last operation. -/
structure Holds (batch : List (Oplog B)) (u : Upload) : Prop where
  ne_nil : batch ≠ []
  content : u.content = batch.flatMap Oplog.data
  last : (batch.getLast ne_nil).ts = u.arch.endTS

/-- Archives of consecutive batches, each from where the one before ended. -/
inductive Cut (ext : Text) (start : Timestamp) : Timestamp → List (List (Oplog B)) → List Upload → Prop
  | nil : Cut ext start start [] []
  | snoc {stop batches uploads batch u} : Cut ext start stop batches uploads → u.arch.startTS = stop →
      u.arch.type = .oplog → u.arch.ext = ext → Holds batch u →
      Cut ext start u.arch.endTS (batches ++ [batch]) (uploads ++ [u])

/-- What the applier has archived of the operations it received, and what it has not. -/
structure Gathered (ext : Text) (o : Oplog B) (ops : List (Oplog B)) (batches : List (List (Oplog B)))
    (pending : List (Oplog B)) (st : ApplierState) : Prop where
  received : o :: ops = batches.flatten ++ pending
  cut : Cut ext o.ts st.batchStartTS batches st.uploads
  filled : st.buf.Filled (pending.flatMap Oplog.data)
  last : ((o :: ops).getLast (cons_ne_nil o ops)).ts = st.lastKnownTS
  start_le : st.batchStartTS ≤ st.lastKnownTS
  restartBatch : st.restartBatch = false

namespace Gathered

variable {sa : StorageApplier} {ext : Text} {o : Oplog B} {ops : List (Oplog B)} {batches : List (List (Oplog B))}
  {pending : List (Oplog B)} {st : ApplierState}

theorem receive (h : Gathered ext o ops batches pending st) {p : Oplog B} (hp : st.lastKnownTS < p.ts) :
    ∃ st', StorageApplier.receive st p = .ok st' ∧ Gathered ext o (ops ++ [p]) batches (pending ++ [p]) st' := by
  obtain ⟨buf, hwrite, hfilled⟩ := h.filled.write p.data
  refine ⟨{ st with lastKnownTS := p.ts, buf := buf }, ?_, ?_, h.cut, ?_, ?_, ?_, h.restartBatch⟩
  · simp only [StorageApplier.receive, h.restartBatch, Bool.false_eq_true, if_false, hwrite]
  · rw [← cons_append, h.received, append_assoc]
  · simpa using hfilled
  · simp
  · exact h.start_le.trans hp.le

theorem upload_pending (h : Gathered sa.ext o ops batches pending st) (hpending : pending ≠ []) :
    ∃ st', sa.upload st = .ok st' ∧ Gathered sa.ext o ops (batches ++ [pending]) [] st' := by
  have hlen := h.filled.len_eq
  have hne : pending.flatMap Oplog.data ≠ [] := fun hnil => hpending (Oplog.flatMap_data_eq_nil.mp hnil)
  have hcontent : (st.buf.reader.readAll (sa.chunk st.uploads.length) (st.buf.len.toNat + 1)).1 =
      pending.flatMap Oplog.data :=
    h.filled.reader.readAll _ (by rw [hlen, Int.toNat_natCast]; exact Nat.lt_succ_self _)
  have hlast : (pending.getLast hpending).ts = st.lastKnownTS := by
    rw [← h.last]
    simp only [h.received]
    rw [getLast_append_of_ne_nil _ hpending]
  have hholds : Holds pending ⟨⟨st.batchStartTS, st.lastKnownTS, sa.ext, .oplog, h.start_le⟩,
      pending.flatMap Oplog.data⟩ := ⟨hpending, rfl, hlast⟩
  have hupload : sa.upload st = .ok { st with
      uploads := st.uploads ++ [⟨⟨st.batchStartTS, st.lastKnownTS, sa.ext, .oplog, h.start_le⟩,
        pending.flatMap Oplog.data⟩]
      buf := (st.buf.reader.readAll (sa.chunk st.uploads.length) (st.buf.len.toNat + 1)).2.reset
      batchStartTS := st.lastKnownTS } := by
    rw [StorageApplier.upload, newArchive_of_le h.start_le]
    dsimp only
    rw [if_neg (by rw [hlen, Nat.cast_eq_zero, length_eq_zero_iff]; exact hne), hcontent]
  refine ⟨_, hupload, ?_, ?_, Buffer.filled_reset _, h.last, le_rfl, h.restartBatch⟩
  · rw [flatten_append, flatten_singleton, append_nil]
    exact h.received
  · exact h.cut.snoc rfl rfl rfl hholds

theorem upload (h : Gathered sa.ext o ops batches pending st) :
    ∃ st' batches', sa.upload st = .ok st' ∧ Gathered sa.ext o ops batches' [] st' := by
  by_cases hpending : pending = []
  · subst hpending
    refine ⟨st, batches, if_pos ?_, h⟩
    exact h.filled.len_eq
  · obtain ⟨st', hupload, hgathered⟩ := h.upload_pending hpending
    exact ⟨st', _, hupload, hgathered⟩

end Gathered

/-- The state of the loop after it has received the operations. -/
def Served (ext : Text) : List (Oplog B) → ApplierState → Prop
  | [], st => st.restartBatch = true ∧ st.uploads = [] ∧ st.buf.Filled []
  | o :: ops, st => ∃ batches pending, Gathered ext o ops batches pending st

namespace Served

variable {sa : StorageApplier} {ext : Text} {ops : List (Oplog B)} {st : ApplierState}

theorem receive (h : Served ext ops st) {p : Oplog B} (hp : ∀ o ∈ ops, o.ts < p.ts) :
    ∃ st', StorageApplier.receive st p = .ok st' ∧ Served ext (ops ++ [p]) st' := by
  cases ops with
  | nil =>
    obtain ⟨hrestart, huploads, hfilled⟩ := h
    obtain ⟨buf, hwrite, hfilled⟩ := hfilled.write p.data
    refine ⟨{ st with lastKnownTS := p.ts, buf := buf, batchStartTS := p.ts, restartBatch := false }, ?_, [], [p], ?_⟩
    · simp only [StorageApplier.receive, hrestart, if_true, hwrite]
    · refine ⟨rfl, ?_, by simpa using hfilled, rfl, le_rfl, rfl⟩
      rw [huploads]
      exact .nil
  | cons o ops =>
    obtain ⟨batches, pending, h⟩ := h
    have hlast : st.lastKnownTS < p.ts := h.last ▸ hp _ (getLast_mem _)
    obtain ⟨st', hreceive, h⟩ := h.receive hlast
    exact ⟨st', hreceive, batches, pending ++ [p], h⟩

theorem upload (h : Served sa.ext ops st) : ∃ st', sa.upload st = .ok st' ∧ Served sa.ext ops st' := by
  cases ops with
  | nil => exact ⟨st, if_pos h.2.2.len_eq, h⟩
  | cons o ops =>
    obtain ⟨batches, pending, h⟩ := h
    obtain ⟨st', batches', hupload, h⟩ := h.upload
    exact ⟨st', hupload, batches', [], h⟩

theorem handle (h : Served sa.ext ops st) {e : ApplyEvent B} (he : ∀ p ∈ e.op?, ∀ o ∈ ops, o.ts < p.ts) :
    ∃ st', sa.handle st e = .ok st' ∧ Served sa.ext (ops ++ e.op?.toList) st' := by
  cases e with
  | timer =>
    obtain ⟨st', hupload, h⟩ := h.upload
    exact ⟨st', hupload, by simpa [ApplyEvent.op?] using h⟩
  | op p =>
    obtain ⟨st', hreceive, h⟩ := h.receive (he p rfl)
    rw [StorageApplier.handle, hreceive, ok_bind, StorageApplier.uploadFull]
    split_ifs with hsize
    · exact ⟨st', rfl, h⟩
    · exact h.upload

theorem foldlM (h : Served sa.ext ops st) {events : List (ApplyEvent B)}
    (hinc : Increasing (ops ++ events.filterMap ApplyEvent.op?)) :
    ∃ st', events.foldlM sa.handle st = .ok st' ∧ Served sa.ext (ops ++ events.filterMap ApplyEvent.op?) st' := by
  induction events generalizing ops st with
  | nil => exact ⟨st, rfl, by simpa using h⟩
  | cons e events ih =>
    have hsplit : ops ++ (e :: events).filterMap ApplyEvent.op? =
        (ops ++ e.op?.toList) ++ events.filterMap ApplyEvent.op? := by
      cases e with
      | op p => simp [ApplyEvent.op?]
      | timer => rw [filterMap_cons_none rfl, ApplyEvent.op?, Option.toList_none, append_nil]
    rw [hsplit] at hinc ⊢
    have he : ∀ p ∈ e.op?, ∀ o ∈ ops, o.ts < p.ts := by
      intro p hp o ho
      rw [Increasing, pairwise_append, pairwise_append] at hinc
      exact hinc.1.2.2 o ho p (Option.mem_toList.mpr hp)
    obtain ⟨st', hhandle, h⟩ := h.handle he
    rw [foldlM_cons, hhandle, ok_bind]
    exact ih h hinc

end Served

namespace Cut

variable {ext : Text} {start stop : Timestamp} {batches : List (List (Oplog B))} {uploads : List Upload}

theorem forall₂ (h : Cut ext start stop batches uploads) : Forall₂ Holds batches uploads := by
  induction h with
  | nil => exact .nil
  | snoc hcut hstart htype hext hholds ih => exact rel_append ih (.cons hholds .nil)

theorem stop_eq (h : Cut ext start stop batches uploads) :
    (uploads.getLast?.map fun u => u.arch.endTS).getD start = stop := by
  cases h with
  | nil => rfl
  | snoc hcut hstart htype hext hholds => simp

theorem isChain (h : Cut ext start stop batches uploads) :
    uploads.IsChain fun u v => v.arch.startTS = u.arch.endTS := by
  induction h with
  | nil => exact .nil
  | @snoc stop batches uploads batch u hcut hstart htype hext hholds ih =>
    rw [isChain_append]
    refine ⟨ih, .singleton _, fun v hv w hw => ?_⟩
    obtain rfl : u = w := by simpa using hw
    have hstop := hcut.stop_eq
    rw [hstart, ← hstop, Option.mem_def.mp hv]
    rfl

theorem head? (h : Cut ext start stop batches uploads) : ∀ u ∈ uploads.head?, u.arch.startTS = start := by
  induction h with
  | nil => simp
  | @snoc stop batches uploads batch u hcut hstart htype hext hholds ih =>
    cases uploads with
    | nil =>
      intro v hv
      obtain rfl : u = v := by simpa using hv
      exact hstart.trans hcut.stop_eq.symm
    | cons v uploads => simpa using ih

end Cut

namespace StorageApplier

theorem serve_served (sa : StorageApplier) (kind : BufferKind) {events : List (ApplyEvent B)}
    (hinc : Increasing (events.filterMap ApplyEvent.op?)) :
    ∃ st, sa.serve (.newBuffer kind) events = .ok st ∧ Served sa.ext (events.filterMap ApplyEvent.op?) st := by
  have hnew : Served (B := B) sa.ext [] { buf := .newBuffer kind } := ⟨rfl, rfl, Buffer.filled_newBuffer kind⟩
  exact hnew.foldlM hinc

theorem flatMap_content {batches : List (List (Oplog B))} {uploads : List Upload} (h : Forall₂ Holds batches uploads) :
    uploads.flatMap Upload.content = batches.flatten.flatMap Oplog.data := by
  induction h with
  | nil => rfl
  | cons hholds _ ih => rw [flatMap_cons, ih, hholds.content, flatten_cons, flatMap_append]

/-- The archives of a run that is closed are those of consecutive batches of its operations. -/
theorem apply_archives (sa : StorageApplier) (kind : BufferKind) (events : List (ApplyEvent B))
    (hinc : Increasing (events.filterMap ApplyEvent.op?)) :
    ∃ uploads batches, sa.apply (.newBuffer kind) events = .ok uploads ∧
      uploads.flatMap Upload.content = (events.filterMap ApplyEvent.op?).flatMap Oplog.data ∧
      batches.flatten = events.filterMap ApplyEvent.op? ∧ Forall₂ Holds batches uploads ∧
      (uploads.head?.map fun u => u.arch.startTS) = (events.filterMap ApplyEvent.op?).head?.map Oplog.ts ∧
      uploads.IsChain fun u v => v.arch.startTS = u.arch.endTS := by
  obtain ⟨st, hserve, hserved⟩ := sa.serve_served kind hinc
  rw [apply, hserve, ok_bind]
  generalize events.filterMap ApplyEvent.op? = ops at hserved
  cases ops with
  | nil =>
    obtain ⟨st', hupload, -, huploads, -⟩ := hserved.upload
    rw [hupload, ok_bind, huploads]
    exact ⟨[], [], rfl, rfl, rfl, .nil, rfl, .nil⟩
  | cons o ops =>
    obtain ⟨batches, pending, hgathered⟩ := hserved
    obtain ⟨st', batches, hupload, hgathered⟩ := hgathered.upload
    rw [hupload, ok_bind]
    have hflatten : batches.flatten = o :: ops := by rw [hgathered.received, append_nil]
    have hholds := hgathered.cut.forall₂
    refine ⟨st'.uploads, batches, rfl, ?_, hflatten, hholds, ?_, hgathered.cut.isChain⟩
    · rw [flatMap_content hholds, hflatten]
    · cases hhead : st'.uploads with
      | nil =>
        rw [hhead, forall₂_nil_right_iff] at hholds
        rw [hholds] at hflatten
        cases hflatten
      | cons u uploads =>
        exact congrArg some (hgathered.cut.head? u (by rw [hhead]; rfl))

/-- Two operations with the timer between them. -/
theorem apply_archives_timer : ∃ uploads batches, StorageApplier.apply ⟨100, [], fun _ _ => 0⟩ (.newBuffer .file)
      [.op (.atSecond 1), .timer, .op (.atSecond 2)] = .ok uploads ∧
    uploads.flatMap Upload.content = [.atSecond 1, .atSecond 2].flatMap Oplog.data ∧
    batches.flatten = [.atSecond 1, .atSecond 2] ∧ Forall₂ Holds batches uploads ∧
    (uploads.head?.map fun u => u.arch.startTS) = some ⟨1, 0⟩ ∧
    uploads.IsChain fun u v => v.arch.startTS = u.arch.endTS :=
  apply_archives ⟨100, [], fun _ _ => 0⟩ .file [.op (.atSecond 1), .timer, .op (.atSecond 2)]
    (pairwise_pair.mpr (by decide))

end StorageApplier

end WalG.Mongo
