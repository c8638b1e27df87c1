import WalG.Mongo.Oplog

/-! # Fetching operations from archives

The fetcher is a goroutine with two channels, so it is given by what it sends on them.
-/
namespace WalG.Mongo
open Foundation List

/-- An operation as it is decoded from an archive. -/
structure OplogEntry where
  ts : Timestamp
  data : Bytes
  deriving DecidableEq

inductive FetchError
  | untilBeforeFrom
  | download (arch : Archive)
  | readBson
  | decode
  | fromNotFound (arch : Archive)
  | restorePointNotReached
  deriving DecidableEq

inductive FetchAction
  | data (op : OplogEntry)
  | err (e : FetchError)
  deriving DecidableEq

variable (B : Bson)

/-- The next raw document, unless the buffer ends, and whether its read failed. -/
def nextRaw (buf : Bytes) : Option (Bool × Bytes × Bytes) :=
  match B.newFromIOReader buf with
  | .eof => none
  | .error rest => some (true, [], rest)
  | .doc raw rest => some (false, raw, rest)

theorem nextRaw_lt {buf : Bytes} {failed : Bool} {raw rest : Bytes} (h : nextRaw B buf = some (failed, raw, rest)) :
    rest.length < buf.length := by
  rw [nextRaw] at h
  cases hread : B.newFromIOReader buf with
  | eof => simp [hread] at h
  | error rest' =>
    obtain ⟨-, -, rfl⟩ : true = failed ∧ [] = raw ∧ rest' = rest := by simpa [hread] using h
    exact B.error_lt hread
  | doc raw' rest' =>
    obtain ⟨-, -, rfl⟩ : false = failed ∧ raw' = raw ∧ rest' = rest := by simpa [hread] using h
    exact B.doc_lt hread

variable (since until_ : Timestamp)

/-- What is sent for one archive, and the flag for the next one unless the fetcher returns. -/
def fetchArchive (buf : Bytes) (firstFound : Bool) : List FetchAction × Option Bool :=
  match _h : nextRaw B buf with
  | none => ([], some firstFound)
  | some (failed, raw, rest) =>
    let sent := if failed then [FetchAction.err .readBson] else []
    match B.lookupTS raw with
    | none => (sent ++ [.err .decode], none)
    | some ts =>
      if !firstFound && ts != since then (sent ++ (fetchArchive rest false).1, (fetchArchive rest false).2)
      else if lessTS until_ ts || ts == until_ then (sent, none)
      else (sent ++ .data ⟨ts, raw⟩ :: (fetchArchive rest true).1, (fetchArchive rest true).2)
termination_by buf.length
decreasing_by all_goals exact nextRaw_lt B _h

def fetchPath (download : Archive → Option Bytes) : List Archive → Bool → List FetchAction
  | [], _ => [.err .restorePointNotReached]
  | arch :: path, firstFound =>
    match download arch with
    | none => [.err (.download arch)]
    | some content =>
      match fetchArchive B since until_ content firstFound with
      | (actions, none) => actions
      | (actions, some false) => actions ++ [.err (.fromNotFound arch)]
      | (actions, some true) => actions ++ fetchPath download path true

def fetchBetween (download : Archive → Option Bytes) (path : List Archive) : Except FetchError (List FetchAction) :=
  if lessTS until_ since then .error .untilBeforeFrom
  else .ok (fetchPath B since until_ download path false)

def Oplog.entry {B : Bson} (o : Oplog B) : OplogEntry := ⟨o.ts, o.data⟩

section Ops

variable {B since until_} {buf raw rest : Bytes} {failed firstFound : Bool}

theorem fetchArchive_eof (h : nextRaw B buf = none) :
    fetchArchive B since until_ buf firstFound = ([], some firstFound) := by
  rw [fetchArchive]
  split
  · rfl
  · rename_i heq
    cases h.symm.trans heq

theorem fetchArchive_undecoded (h : nextRaw B buf = some (failed, raw, rest)) (hts : B.lookupTS raw = none) :
    fetchArchive B since until_ buf firstFound =
      ((if failed then [.err .readBson] else []) ++ [.err .decode], none) := by
  rw [fetchArchive]
  split
  · rename_i heq
    cases h.symm.trans heq
  · rename_i heq
    cases h.symm.trans heq
    simp only [hts]

theorem fetchArchive_decoded (h : nextRaw B buf = some (false, raw, rest)) {ts : Timestamp}
    (hts : B.lookupTS raw = some ts) :
    fetchArchive B since until_ buf firstFound =
      if firstFound = false ∧ ts ≠ since then fetchArchive B since until_ rest false
      else if until_ ≤ ts then ([], none)
      else
        (.data ⟨ts, raw⟩ :: (fetchArchive B since until_ rest true).1, (fetchArchive B since until_ rest true).2) := by
  have hstop : (lessTS until_ ts || ts == until_) = decide (until_ ≤ ts) := by
    rw [lessTS_eq, Bool.eq_iff_iff, Bool.or_eq_true, decide_eq_true_iff, decide_eq_true_iff, beq_iff_eq,
      le_iff_lt_or_eq, eq_comm]
  rw [fetchArchive]
  split
  · rename_i heq
    cases h.symm.trans heq
  · rename_i heq
    cases h.symm.trans heq
    simp only [hts, hstop, Bool.false_eq_true, if_false, nil_append, Bool.and_eq_true, Bool.not_eq_true',
      bne_iff_ne, ne_eq, decide_eq_true_iff]

theorem nextRaw_op (o : Oplog B) (rest : Bytes) : nextRaw B (o.data ++ rest) = some (false, o.data, rest) := by
  rw [nextRaw, o.read]

theorem fetchArchive_append {ops : List (Oplog B)} (h : ∀ o ∈ ops, o.ts < until_) (rest : Bytes) :
    fetchArchive B since until_ (ops.flatMap Oplog.data ++ rest) true =
      ((ops.map fun o => .data o.entry) ++ (fetchArchive B since until_ rest true).1,
        (fetchArchive B since until_ rest true).2) := by
  induction ops with
  | nil => rfl
  | cons o ops ih =>
    rw [forall_mem_cons] at h
    rw [flatMap_cons, append_assoc, fetchArchive_decoded (nextRaw_op o _) o.lookup, if_neg (by simp),
      if_neg (not_le.mpr h.1), ih h.2]
    rfl

theorem fetchArchive_stop {o : Oplog B} (h : until_ ≤ o.ts) (rest : Bytes) :
    fetchArchive B since until_ (o.data ++ rest) true = ([], none) := by
  rw [fetchArchive_decoded (nextRaw_op o _) o.lookup, if_neg (by simp), if_pos h]

theorem fetchArchive_skip {ops : List (Oplog B)} (h : ∀ o ∈ ops, o.ts ≠ since) (rest : Bytes) :
    fetchArchive B since until_ (ops.flatMap Oplog.data ++ rest) false = fetchArchive B since until_ rest false := by
  induction ops with
  | nil => rfl
  | cons o ops ih =>
    rw [forall_mem_cons] at h
    rw [flatMap_cons, append_assoc, fetchArchive_decoded (nextRaw_op o _) o.lookup, if_pos ⟨rfl, h.1⟩, ih h.2]

theorem fetchArchive_first {o : Oplog B} (h : o.ts = since) (rest : Bytes) :
    fetchArchive B since until_ (o.data ++ rest) false = fetchArchive B since until_ (o.data ++ rest) true := by
  have hnot : ∀ firstFound, ¬ (firstFound = false ∧ o.ts ≠ since) := fun _ hne => hne.2 h
  rw [fetchArchive_decoded (nextRaw_op o _) o.lookup, if_neg (hnot false),
    fetchArchive_decoded (nextRaw_op o _) o.lookup, if_neg (hnot true)]

theorem fetchArchive_nil : fetchArchive B since until_ [] firstFound = ([], some firstFound) :=
  fetchArchive_eof (by rw [nextRaw, B.read_nil])

end Ops

end WalG.Mongo
