import WalG.Foundation.Bytes

/-! # One file of an extraction attempt

Two goroutines handle a file: one decompresses it into a pipe, the other extracts the tar stream
from the pipe.
-/
namespace WalG.Extract
open Foundation List

/-- A file in one attempt: what its decompression writes until it ends, how it ends, and
what the extraction says of the bytes read so far and of the end of the stream. -/
structure Job (F : Type) where
  file : F
  decompressed : Bytes
  decompressOk : Bool
  interpret : Bytes → Option Bool
  interpretEnd : Bytes → Bool

/-- The decompressing goroutine, with whether it failed. -/
inductive Writer where
  | writing
  | closed (failed : Bool)
  | recorded (failed : Bool)
  deriving DecidableEq, Repr

/-- The extracting goroutine, with whether it failed. -/
inductive Reader where
  | reading
  | closed (failed : Bool)
  | recorded (failed : Bool)
  | released (failed : Bool)
  deriving DecidableEq, Repr

structure JobState (F : Type) where
  job : Job F
  read : ℕ
  writer : Writer
  reader : Reader

/-- What a step does outside of the file's own goroutines. -/
inductive Effect where
  | silent
  | store
  | release
  deriving DecidableEq, Repr

def Effect.record (failed : Bool) : Effect := if failed then .store else .silent

variable {F : Type}

namespace Job

variable (job : Job F)

def start : JobState F := ⟨job, 0, .writing, .reading⟩

/-- What the extraction says after `k` bytes. -/
def early (k : ℕ) : Option Bool := job.interpret (job.decompressed.take k)

/-- The extraction succeeds: by its first verdict, or at the end of the stream. -/
def extracts : Bool :=
  ((range (job.decompressed.length + 1)).findSome? job.early).getD (job.interpretEnd job.decompressed)

/-- The decompression succeeds: it ends well, and the extraction reads all it writes. -/
def decompresses : Bool :=
  job.decompressOk && (range job.decompressed.length).all fun k => (job.early k).isNone

end Job

namespace JobState

variable (s : JobState F)

/-- The verdict of the extraction on what it has read. -/
def verdict : Option Bool :=
  match s.job.early s.read with
  | some ok => some ok
  | none => if s.writer = .writing then none else some (s.job.interpretEnd (s.job.decompressed.take s.read))

end JobState

inductive JobStep : JobState F → Effect → JobState F → Prop where
  | transfer {s} (hw : s.writer = .writing) (hr : s.reader = .reading) (hv : s.verdict = none)
    (hlt : s.read < s.job.decompressed.length) : JobStep s .silent { s with read := s.read + 1 }
  | writerEnd {s} (hw : s.writer = .writing) (hend : s.read = s.job.decompressed.length) :
    JobStep s .silent { s with writer := .closed (!s.job.decompressOk) }
  | writerBroken {s} (hw : s.writer = .writing) (hlt : s.read < s.job.decompressed.length)
    (hr : s.reader ≠ .reading) : JobStep s .silent { s with writer := .closed true }
  | writerRecord {s failed} (hw : s.writer = .closed failed) :
    JobStep s (.record failed) { s with writer := .recorded failed }
  | readerEnd {s ok} (hr : s.reader = .reading) (hv : s.verdict = some ok) :
    JobStep s .silent { s with reader := .closed (!ok) }
  | readerRecord {s failed} (hr : s.reader = .closed failed) :
    JobStep s (.record failed) { s with reader := .recorded failed }
  | readerRelease {s failed} (hr : s.reader = .recorded failed) :
    JobStep s .release { s with reader := .released failed }

def Writer.failed? : Writer → Option Bool
  | .writing => none
  | .closed failed | .recorded failed => some failed

def Reader.failed? : Reader → Option Bool
  | .reading => none
  | .closed failed | .recorded failed | .released failed => some failed

def Reader.isReleased : Reader → Bool
  | .released _ => true
  | _ => false

/-- The reader has recorded a failure. -/
def Reader.hasStored : Reader → Bool
  | .recorded failed | .released failed => failed
  | _ => false

/-- What holds of a file's goroutines in every interleaving: the extraction had no verdict
before, the stream has its end only after its last byte, and both report what the file's
data say. -/
structure JobInv (s : JobState F) : Prop where
  read_le : s.read ≤ s.job.decompressed.length
  undecided : ∀ k < s.read, s.job.early k = none
  atEnd : s.reader = .reading → s.writer ≠ .writing → s.read = s.job.decompressed.length
  decided : s.reader ≠ .reading → s.read < s.job.decompressed.length → s.job.early s.read ≠ none
  writer : ∀ failed, s.writer.failed? = some failed → failed = !s.job.decompresses
  reader : ∀ failed, s.reader.failed? = some failed → failed = !s.job.extracts

theorem jobInv_start (job : Job F) : JobInv job.start where
  read_le := Nat.zero_le _
  undecided k hk := absurd hk (Nat.not_lt_zero k)
  atEnd _ h := absurd rfl h
  decided h := absurd rfl h
  writer := nofun
  reader := nofun

theorem JobState.verdict_none {s : JobState F} (hv : s.verdict = none) :
    s.writer = .writing ∧ s.job.early s.read = none := by
  rw [JobState.verdict] at hv
  cases hearly : s.job.early s.read with
  | some ok => rw [hearly] at hv; cases hv
  | none =>
    rw [hearly] at hv
    by_cases hw : s.writer = .writing
    · exact ⟨hw, rfl⟩
    · simp only [if_neg hw] at hv
      cases hv

section Verdict

variable {s : JobState F} (h : JobInv s)

include h

theorem JobInv.extracts_eq {ok : Bool} (hr : s.reader = .reading) (hv : s.verdict = some ok) :
    s.job.extracts = ok := by
  have hbefore : (range s.read).findSome? s.job.early = none :=
    findSome?_eq_none_iff.mpr fun k hk => h.undecided k (mem_range.mp hk)
  rw [JobState.verdict] at hv
  cases hearly : s.job.early s.read with
  | some verdict =>
    rw [hearly] at hv
    cases hv
    have hsplit : range (s.job.decompressed.length + 1) =
        range s.read ++ s.read :: range' (s.read + 1) (s.job.decompressed.length - s.read) := by
      have hle := h.read_le
      have hjoin := @range'_append_1 0 s.read (s.job.decompressed.length - s.read + 1)
      rw [Nat.zero_add] at hjoin
      rw [← range'_succ, range_eq_range', range_eq_range', hjoin]
      congr 1
      omega
    rw [Job.extracts, hsplit, findSome?_append, hbefore, findSome?_cons, hearly]
    rfl
  | none =>
    rw [hearly] at hv
    have hw : s.writer ≠ .writing := by
      intro hw
      simp only [if_pos hw] at hv
      cases hv
    have hread := h.atEnd hr hw
    simp only [if_neg hw, hread, take_length, Option.some.injEq] at hv
    rw [hread] at hbefore hearly
    rw [Job.extracts, range_succ, findSome?_append, hbefore, findSome?_singleton, hearly]
    exact hv

theorem JobInv.decompresses_of_end (hend : s.read = s.job.decompressed.length) :
    s.job.decompresses = s.job.decompressOk := by
  have hall : ((range s.job.decompressed.length).all fun k => (s.job.early k).isNone) = true := by
    rw [all_eq_true]
    intro k hk
    rw [h.undecided k (hend ▸ mem_range.mp hk)]
    rfl
  rw [Job.decompresses, hall, Bool.and_true]

theorem JobInv.decompresses_of_broken (hlt : s.read < s.job.decompressed.length) (hr : s.reader ≠ .reading) :
    s.job.decompresses = false := by
  rw [Job.decompresses, Bool.and_eq_false_iff]
  right
  rw [all_eq_false]
  refine ⟨s.read, mem_range.mpr hlt, ?_⟩
  rw [Option.isNone_iff_eq_none]
  exact h.decided hr hlt

end Verdict

variable {s s' : JobState F} {effect : Effect}

theorem JobInv.step (h : JobInv s) (hstep : JobStep s effect s') : JobInv s' := by
  cases hstep with
  | transfer hw hr hv hlt =>
    refine ⟨hlt, ?_, fun _ hne => absurd hw hne, fun hne => absurd hr hne, ?_, ?_⟩
    · intro k hk
      rcases Nat.lt_succ_iff_lt_or_eq.mp hk with hk | rfl
      · exact h.undecided k hk
      · exact (JobState.verdict_none hv).2
    · intro failed hfailed
      simp only [hw] at hfailed
      cases hfailed
    · intro failed hfailed
      simp only [hr] at hfailed
      cases hfailed
  | writerEnd hw hend =>
    refine ⟨h.read_le, h.undecided, fun _ _ => hend, h.decided, ?_, h.reader⟩
    rintro failed ⟨⟩
    rw [h.decompresses_of_end hend]
  | writerBroken hw hlt hr =>
    refine ⟨h.read_le, h.undecided, fun hreading => absurd hreading hr, h.decided, ?_, h.reader⟩
    rintro failed ⟨⟩
    rw [h.decompresses_of_broken hlt hr]
    rfl
  | writerRecord hw =>
    refine ⟨h.read_le, h.undecided, fun hr _ => h.atEnd hr ?_, h.decided, ?_, h.reader⟩
    · rw [hw]
      exact nofun
    · rintro failed ⟨⟩
      exact h.writer _ (by rw [hw]; rfl)
  | readerEnd hr hv =>
    refine ⟨h.read_le, h.undecided, nofun, ?_, h.writer, ?_⟩
    · intro _ hlt hnone
      have hw : s.writer ≠ .writing := by
        intro hw
        rw [JobState.verdict, hnone] at hv
        simp only [if_pos hw] at hv
        cases hv
      exact absurd (h.atEnd hr hw) hlt.ne
    · rintro failed ⟨⟩
      rw [h.extracts_eq hr hv]
  | readerRecord hr =>
    refine ⟨h.read_le, h.undecided, nofun, fun _ => h.decided ?_, h.writer, ?_⟩
    · rw [hr]
      exact nofun
    · rintro failed ⟨⟩
      exact h.reader _ (by rw [hr]; rfl)
  | readerRelease hr =>
    refine ⟨h.read_le, h.undecided, nofun, fun _ => h.decided ?_, h.writer, ?_⟩
    · rw [hr]
      exact nofun
    · rintro failed ⟨⟩
      exact h.reader _ (by rw [hr]; rfl)

/-- The steps a file still has to make. -/
def JobState.remaining (s : JobState F) : ℕ :=
  s.job.decompressed.length - s.read +
    (match s.writer with
    | .writing => 2
    | .closed _ => 1
    | .recorded _ => 0) +
    match s.reader with
    | .reading => 3
    | .closed _ => 2
    | .recorded _ => 1
    | .released _ => 0

theorem JobStep.remaining_lt (h : JobStep s effect s') : s'.remaining < s.remaining := by
  cases h with
  | transfer hw hr hv hlt =>
    simp only [JobState.remaining, hw, hr]
    omega
  | writerEnd hw | writerBroken hw | writerRecord hw =>
    simp only [JobState.remaining, hw]
    omega
  | readerEnd hr | readerRecord hr | readerRelease hr =>
    simp only [JobState.remaining, hr]
    omega

theorem JobStep.job_eq (h : JobStep s effect s') : s'.job = s.job := by
  cases h <;> rfl

/-- The goroutines of a file never wait for each other forever. -/
theorem JobInv.exists_step (h : JobInv s) (hreader : s.reader.isReleased = false) :
    ∃ effect s', JobStep s effect s' := by
  cases hr : s.reader with
  | reading =>
    cases hv : s.verdict with
    | some ok => exact ⟨_, _, .readerEnd hr hv⟩
    | none =>
      have hw := (JobState.verdict_none hv).1
      rcases Nat.lt_or_eq_of_le h.read_le with hlt | hend
      · exact ⟨_, _, .transfer hw hr hv hlt⟩
      · exact ⟨_, _, .writerEnd hw hend⟩
  | closed failed => exact ⟨_, _, .readerRecord hr⟩
  | recorded failed => exact ⟨_, _, .readerRelease hr⟩
  | released failed =>
    rw [hr] at hreader
    cases hreader

end WalG.Extract
