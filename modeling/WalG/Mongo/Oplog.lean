import WalG.Foundation.Stream
import WalG.Mongo.Archive

/-! # Operations as documents

An operation is a BSON document with its timestamp in the field `ts`.
-/
namespace WalG.Mongo
open Foundation List

inductive ReadResult
  | eof
  | error (rest : Bytes)
  | doc (raw rest : Bytes)
  deriving DecidableEq

/-- The BSON functions of the driver. A read at the end of the buffer ends in order, every
other read takes some of the bytes, and an empty document has no field `ts`. -/
structure Bson where
  newFromIOReader : Bytes → ReadResult
  lookupTS : Bytes → Option Timestamp
  read_nil : newFromIOReader [] = .eof
  error_lt : ∀ {buf rest}, newFromIOReader buf = .error rest → rest.length < buf.length
  doc_lt : ∀ {buf raw rest}, newFromIOReader buf = .doc raw rest → rest.length < buf.length
  lookupTS_nil : lookupTS [] = none

/-- The read of one document: the length, which counts its own four bytes, and the rest, which ends with a zero. -/
def readDocument (buf : Bytes) : ReadResult :=
  match (Reader.ofBytes buf).readLE 4 with
  | .error e => if e = .eof then .eof else .error []
  | .ok (length, r) =>
    match r.readFull (length - 4) with
    | .error e => if e = .eof then .eof else .error []
    | .ok (body, r) => if body.getLast? = some 0 then .doc (leBytes 4 length ++ body) r.data else .error r.data

theorem readDocument_lt {buf rest : Bytes}
    (h : readDocument buf = .error rest ∨ ∃ raw, readDocument buf = .doc raw rest) : rest.length < buf.length := by
  have hne : buf ≠ [] := by
    rintro rfl
    obtain h | ⟨_, h⟩ := h <;> cases h
  unfold readDocument at h
  split at h
  · split_ifs at h <;> simp_all [length_pos_iff]
  · rename_i length r hlength
    have hbuf : buf.length = 4 + r.data.length := by
      rw [show buf = leBytes 4 length ++ r.data from (Reader.readLE_iff.mp hlength).2.1, length_append, leBytes_length]
    split at h
    · split_ifs at h <;> simp_all [length_pos_iff]
    · rename_i body r' hbody
      have hr : r.data.length = body.length + r'.data.length := by
        rw [(Reader.readFull_iff.mp hbody).2.1, length_append]
      have hrest : rest = r'.data := by split_ifs at h <;> simp_all
      rw [hrest]
      omega

/-- Documents with a timestamp `ts` as their first field. -/
def tsBson : Bson where
  newFromIOReader := readDocument
  lookupTS raw :=
    if (raw.drop 4).take 4 = [0x11, 0x74, 0x73, 0] then
      some ⟨leNat ((raw.drop 12).take 4), leNat ((raw.drop 8).take 4)⟩ else none
  read_nil := rfl
  error_lt h := readDocument_lt (.inl h)
  doc_lt h := readDocument_lt (.inr ⟨_, h⟩)
  lookupTS_nil := rfl

/-- A document that is read back from the front of any buffer. -/
structure Oplog (B : Bson) where
  ts : Timestamp
  data : Bytes
  read : ∀ rest, B.newFromIOReader (data ++ rest) = .doc data rest
  lookup : B.lookupTS data = some ts

namespace Oplog

variable {B : Bson}

theorem data_ne (o : Oplog B) : o.data ≠ [] := by
  intro h
  have hread := o.read []
  rw [h, nil_append, B.read_nil] at hread
  cases hread

theorem flatMap_data_eq_nil {ops : List (Oplog B)} : ops.flatMap data = [] ↔ ops = [] := by
  cases ops with
  | nil => simp
  | cons o ops => simp [o.data_ne]

/-- The element `ts: Timestamp(second, 0)` and the end of the document. -/
def tsBody (second : UInt8) : Bytes := [0x11, 0x74, 0x73, 0, 0, 0, 0, 0, second, 0, 0, 0, 0]

theorem readDocument_tsBody (second : UInt8) (rest : Bytes) :
    readDocument ((leBytes 4 17 ++ tsBody second) ++ rest) = .doc (leBytes 4 17 ++ tsBody second) rest := by
  rfl

def atSecond (second : UInt8) : Oplog tsBson where
  ts := ⟨second.toNat, 0⟩
  data := leBytes 4 17 ++ tsBody second
  read := readDocument_tsBody second
  lookup := rfl

end Oplog

/-- Operations in the order of their timestamps. -/
def Increasing {B : Bson} (ops : List (Oplog B)) : Prop := ops.Pairwise fun o p => o.ts < p.ts

/-- The operations of two adjacent ranges, one after the other. -/
theorem Increasing.filter_append {B : Bson} {ops : List (Oplog B)} (h : Increasing ops) {P Q R : Timestamp → Prop}
    [DecidablePred P] [DecidablePred Q] [DecidablePred R] (hlt : ∀ s t, P s → Q t → s < t)
    (hR : ∀ t, R t ↔ P t ∨ Q t) :
    (ops.filter fun o => P o.ts) ++ (ops.filter fun o => Q o.ts) = ops.filter fun o => R o.ts := by
  induction ops with
  | nil => rfl
  | cons o ops ih =>
    rw [Increasing, pairwise_cons] at h
    by_cases hP : P o.ts
    · have hQ : ¬ Q o.ts := fun hQ => lt_irrefl _ (hlt _ _ hP hQ)
      simp [hP, hQ, (hR o.ts).mpr (.inl hP), ih h.2]
    · by_cases hQ : Q o.ts
      · have hnone : ops.filter (fun p => P p.ts) = [] := by
          rw [filter_eq_nil_iff]
          intro p hp hPp
          exact lt_asymm (h.1 p hp) (hlt _ _ (of_decide_eq_true hPp) hQ)
        have hrest := ih h.2
        rw [hnone, nil_append] at hrest
        simp [hP, hQ, (hR o.ts).mpr (.inr hQ), hnone, hrest]
      · have hnot : ¬ R o.ts := fun h => ((hR o.ts).mp h).elim hP hQ
        simp [hP, hQ, hnot, ih h.2]

/-- The first operations are those up to the last of them. -/
theorem Increasing.eq_filter_of_prefix {B : Bson} {ops pre : List (Oplog B)} (h : Increasing ops) (hpre : pre <+: ops)
    (hne : pre ≠ []) : pre = ops.filter fun o => o.ts ≤ (pre.getLast hne).ts := by
  obtain ⟨rest, rfl⟩ := hpre
  rw [Increasing, pairwise_append] at h
  have hle : ∀ o ∈ pre, o.ts ≤ (pre.getLast hne).ts := by
    intro o ho
    have hinc := h.1
    rw [← dropLast_append_getLast hne, mem_append, mem_singleton] at ho
    rw [← dropLast_append_getLast hne, pairwise_append] at hinc
    rcases ho with ho | rfl
    · exact (hinc.2.2 o ho _ (mem_singleton_self _)).le
    · exact le_rfl
  have hgt : ∀ o ∈ rest, ¬ o.ts ≤ (pre.getLast hne).ts := fun o ho =>
    not_le.mpr (h.2.2 _ (getLast_mem hne) o ho)
  rw [List.filter_append, List.filter_eq_self.mpr fun o ho => decide_eq_true (hle o ho),
    filter_eq_nil_iff.mpr fun o ho => by simpa using hgt o ho, append_nil]

theorem Increasing.filter_ts_eq {B : Bson} {ops : List (Oplog B)} (h : Increasing ops) {o : Oplog B} (ho : o ∈ ops) :
    (ops.filter fun p => p.ts = o.ts) = [o] := by
  induction ops with
  | nil => cases ho
  | cons p ops ih =>
    rw [Increasing, pairwise_cons] at h
    rcases mem_cons.mp ho with rfl | ho
    · rw [filter_cons_of_pos (by simp), filter_eq_nil_iff.mpr]
      intro p hp
      simpa using (h.1 p hp).ne'
    · rw [filter_cons_of_neg (by simpa using (h.1 o ho).ne), ih h.2 ho]

end WalG.Mongo
