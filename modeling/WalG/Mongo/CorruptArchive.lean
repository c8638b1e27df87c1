import WalG.Mongo.ReplayDeadlock

/-! # Replay of corrupt archives

A document that cannot be read makes the fetcher send two errors, so a replay that comes to such a
document before its restore point hangs, unless the applier fails before.
-/
namespace WalG.Mongo
open Foundation

/-- The operations at the front of a buffer, up to its end or to a document that cannot
be read. -/
inductive Reads (B : Bson) : Bytes → List OplogEntry → Bool → Prop
  | eof {buf} : nextRaw B buf = none → Reads B buf [] false
  | failed {buf raw rest} : nextRaw B buf = some (true, raw, rest) → Reads B buf [] true
  | op {buf raw rest ts ops corrupt} : nextRaw B buf = some (false, raw, rest) → B.lookupTS raw = some ts →
      Reads B rest ops corrupt → Reads B buf (⟨ts, raw⟩ :: ops) corrupt

/-- The operations from the first timestamp on, which may have been found before. -/
def onward (since : Timestamp) (firstFound : Bool) (ops : List OplogEntry) : List OplogEntry :=
  if firstFound then ops else ops.dropWhile fun op => op.ts ≠ since

theorem onward_cons_of_ne {since : Timestamp} {op : OplogEntry} (h : op.ts ≠ since) (ops : List OplogEntry) :
    onward since false (op :: ops) = onward since false ops := by
  simp [onward, h]

theorem onward_cons {since : Timestamp} {firstFound : Bool} (op : OplogEntry)
    (h : ¬ (firstFound = false ∧ op.ts ≠ since)) (ops : List OplogEntry) :
    onward since firstFound (op :: ops) = op :: onward since true ops := by
  cases firstFound with
  | true => rfl
  | false =>
    have hts : op.ts = since := by simpa using h
    simp [onward, hts]

/-- Replay from the archives comes to a document that cannot be read, having sent the
operations: the archives before hold the first timestamp, and none reaches the restore point. -/
inductive Corrupted (B : Bson) (since until_ : Timestamp) (download : Archive → Option Bytes) :
    List Archive → Bool → List OplogEntry → Prop
  | here {arch path firstFound content ops} : download arch = some content → Reads B content ops true →
      (∀ op ∈ onward since firstFound ops, op.ts < until_) →
      Corrupted B since until_ download (arch :: path) firstFound (onward since firstFound ops)
  | later {arch path firstFound content ops ops'} : download arch = some content → Reads B content ops false →
      (∀ op ∈ onward since firstFound ops, op.ts < until_) → (firstFound = true ∨ ∃ op ∈ ops, op.ts = since) →
      Corrupted B since until_ download path true ops' →
      Corrupted B since until_ download (arch :: path) firstFound (onward since firstFound ops ++ ops')

section Archive

variable {B : Bson} {since until_ : Timestamp} {buf : Bytes} {ops : List OplogEntry} {corrupt : Bool}

theorem lookupTS_of_failed {raw rest : Bytes} (h : nextRaw B buf = some (true, raw, rest)) : B.lookupTS raw = none := by
  rw [nextRaw] at h
  cases hread : B.newFromIOReader buf with
  | eof => simp [hread] at h
  | doc raw' rest' => simp [hread] at h
  | error rest' =>
    obtain ⟨rfl, -⟩ : [] = raw ∧ rest' = rest := by simpa [hread] using h
    exact B.lookupTS_nil

/-- The errors after an archive: those of a failed read, or none. -/
def readErrors (corrupt : Bool) : List FetchError := if corrupt then [.readBson, .decode] else []

/-- The flag after an archive, unless the fetcher returns. -/
def foundAfter (since : Timestamp) (firstFound corrupt : Bool) (ops : List OplogEntry) : Option Bool :=
  if corrupt then none else some (firstFound || ops.any fun op => op.ts = since)

theorem fetchArchive_reads (h : Reads B buf ops corrupt) {firstFound : Bool}
    (hlt : ∀ op ∈ onward since firstFound ops, op.ts < until_) :
    fetchArchive B since until_ buf firstFound =
      (script (onward since firstFound ops) (readErrors corrupt), foundAfter since firstFound corrupt ops) := by
  induction h generalizing firstFound with
  | eof hnext =>
    rw [fetchArchive_eof hnext]
    cases firstFound <;> rfl
  | failed hnext =>
    rw [fetchArchive_undecoded hnext (lookupTS_of_failed hnext)]
    cases firstFound <;> rfl
  | @op buf raw rest ts ops corrupt hnext hts _ ih =>
    rw [fetchArchive_decoded hnext hts]
    by_cases hskip : firstFound = false ∧ ts ≠ since
    · obtain ⟨rfl, hne⟩ := hskip
      rw [onward_cons_of_ne hne] at hlt ⊢
      rw [if_pos ⟨rfl, hne⟩, ih hlt]
      cases corrupt <;> simp [foundAfter, hne]
    · rw [onward_cons ⟨ts, raw⟩ hskip, List.forall_mem_cons] at hlt
      rw [onward_cons ⟨ts, raw⟩ hskip, if_neg hskip, if_neg (not_le.mpr hlt.1), ih hlt.2]
      have hfound : foundAfter since firstFound corrupt (⟨ts, raw⟩ :: ops) = foundAfter since true corrupt ops := by
        cases corrupt with
        | true => rfl
        | false =>
          cases firstFound with
          | true => rfl
          | false =>
            have hts : ts = since := by simpa using hskip
            simp [foundAfter, hts]
      rw [hfound]
      rfl

/-- What one archive can do: the fetcher returns with one error at most, or the archive
was read through, to its end or to a failed read. -/
theorem fetchArchive_cases (buf : Bytes) (firstFound : Bool) :
    (∃ ops errs, fetchArchive B since until_ buf firstFound = (script ops errs, none) ∧ errs.length ≤ 1) ∨
      ∃ ops corrupt, Reads B buf ops corrupt ∧ ∀ op ∈ onward since firstFound ops, op.ts < until_ := by
  induction hlen : buf.length using Nat.strong_induction_on generalizing buf firstFound with
  | _ n ih =>
    subst hlen
    rcases hnext : nextRaw B buf with _ | ⟨failed, raw, rest⟩
    · exact .inr ⟨[], false, .eof hnext, by cases firstFound <;> simp [onward]⟩
    · cases failed with
      | true => exact .inr ⟨[], true, .failed hnext, by cases firstFound <;> simp [onward]⟩
      | false =>
        cases hts : B.lookupTS raw with
        | none => exact .inl ⟨[], [.decode], fetchArchive_undecoded hnext hts, le_rfl⟩
        | some ts =>
          have hrest := nextRaw_lt B hnext
          rw [fetchArchive_decoded hnext hts]
          by_cases hskip : firstFound = false ∧ ts ≠ since
          · obtain ⟨rfl, hne⟩ := hskip
            rw [if_pos ⟨rfl, hne⟩]
            rcases ih rest.length hrest rest false rfl with hone | ⟨ops, corrupt, hreads, hlt⟩
            · exact .inl hone
            · exact .inr ⟨⟨ts, raw⟩ :: ops, corrupt, .op hnext hts hreads, by rwa [onward_cons_of_ne hne]⟩
          · rw [if_neg hskip]
            by_cases hstop : until_ ≤ ts
            · exact .inl ⟨[], [], if_pos hstop, Nat.zero_le _⟩
            · rw [if_neg hstop]
              rcases ih rest.length hrest rest true rfl with ⟨ops, errs, heq, hone⟩ | ⟨ops, corrupt, hreads, hlt⟩
              · refine .inl ⟨⟨ts, raw⟩ :: ops, errs, ?_, hone⟩
                rw [heq]
                rfl
              · refine .inr ⟨⟨ts, raw⟩ :: ops, corrupt, .op hnext hts hreads, ?_⟩
                rw [onward_cons ⟨ts, raw⟩ hskip, List.forall_mem_cons]
                exact ⟨not_le.mp hstop, hlt⟩

end Archive

section Path

variable {B : Bson} {since until_ : Timestamp} {download : Archive → Option Bytes} {path : List Archive}
  {firstFound : Bool} {ops : List OplogEntry}

theorem script_append (ops ops' : List OplogEntry) (errs : List FetchError) :
    script ops [] ++ script ops' errs = script (ops ++ ops') errs := by
  simp [script]

theorem Corrupted.fetchPath_eq (h : Corrupted B since until_ download path firstFound ops) :
    fetchPath B since until_ download path firstFound = script ops [.readBson, .decode] := by
  induction h with
  | @here arch path firstFound content ops hcontent hreads hlt =>
    rw [fetchPath, hcontent]
    simp only [fetchArchive_reads hreads hlt]
    rfl
  | @later arch path firstFound content ops ops' hcontent hreads hlt hfound _ ih =>
    have hafter : foundAfter since firstFound false ops = some true := by
      rcases hfound with rfl | ⟨op, hop, hts⟩
      · rfl
      · have hany : (ops.any fun op => op.ts = since) = true := List.any_eq_true.mpr ⟨op, hop, decide_eq_true hts⟩
        simp only [foundAfter, hany, Bool.or_true, Bool.false_eq_true, if_false]
    rw [fetchPath, hcontent]
    simp only [fetchArchive_reads hreads hlt, hafter]
    rw [ih]
    exact script_append _ _ _

/-- The fetcher sends operations and then one error at most, or it comes to a document
that cannot be read. -/
theorem fetchPath_cases (path : List Archive) (firstFound : Bool) :
    ∃ ops errs, fetchPath B since until_ download path firstFound = script ops errs ∧
      (errs.length ≤ 1 ∨ Corrupted B since until_ download path firstFound ops) := by
  induction path generalizing firstFound with
  | nil => exact ⟨[], [.restorePointNotReached], rfl, .inl le_rfl⟩
  | cons arch path ih =>
    cases hcontent : download arch with
    | none => exact ⟨[], [.download arch], by simp only [fetchPath, hcontent]; rfl, .inl le_rfl⟩
    | some content =>
      rcases @fetchArchive_cases B since until_ content firstFound with
        ⟨ops, errs, heq, hone⟩ | ⟨ops, corrupt, hreads, hlt⟩
      · refine ⟨ops, errs, ?_, .inl hone⟩
        simp only [fetchPath, hcontent, heq]
      · cases corrupt with
        | true =>
          have hcorrupt : Corrupted B since until_ download (arch :: path) firstFound (onward since firstFound ops) :=
            .here hcontent hreads hlt
          exact ⟨_, _, hcorrupt.fetchPath_eq, .inr hcorrupt⟩
        | false =>
          have harchive := fetchArchive_reads hreads hlt
          cases hfound : firstFound || ops.any fun op => op.ts = since with
          | false =>
            refine ⟨onward since firstFound ops, [.fromNotFound arch], ?_, .inl le_rfl⟩
            have hafter : foundAfter since firstFound false ops = some false := congrArg some hfound
            simp only [fetchPath, hcontent, harchive, hafter]
            simp [script, readErrors]
          | true =>
            obtain ⟨ops', errs, hpath, hcases⟩ := ih true
            have hafter : foundAfter since firstFound false ops = some true := congrArg some hfound
            refine ⟨onward since firstFound ops ++ ops', errs, ?_, ?_⟩
            · simp only [fetchPath, hcontent, harchive, hafter, hpath]
              exact script_append _ _ _
            · rcases hcases with hone | hcorrupt
              · exact .inl hone
              · refine .inr (.later hcontent hreads hlt ?_ hcorrupt)
                simpa using hfound

/-- A replay completes unless it comes to a document that cannot be read and the applier
takes all operations before it. -/
theorem fetchBetween_completes_iff (B : Bson) (since until_ : Timestamp) (download : Archive → Option Bytes)
    (path : List Archive) (fails : ℕ → Bool) :
    (∀ actions, fetchBetween B since until_ download path = .ok actions → ReplayCompletes actions fails) ↔
      (since ≤ until_ → ∀ ops, Corrupted B since until_ download path false ops →
        ∃ k < ops.length, fails k = true) := by
  constructor
  · intro h hle ops hcorrupt
    have hok : fetchBetween B since until_ download path = .ok (script ops [.readBson, .decode]) := by
      rw [fetchBetween, if_neg (by simpa using hle), hcorrupt.fetchPath_eq]
    exact (completes_script_iff.mp (h _ hok)).resolve_left (by decide)
  · intro h actions hok
    rw [fetchBetween] at hok
    split_ifs at hok with hlt
    cases hok
    obtain ⟨ops, errs, hscript, hcases⟩ := @fetchPath_cases B since until_ download path false
    rw [hscript, completes_script_iff]
    exact hcases.imp_right fun hcorrupt => h (by simpa using hlt) ops hcorrupt

/-- One operation, and then a document that is cut off. -/
theorem fetchBetween_corrupt_hangs : ∃ actions,
    fetchBetween tsBson ⟨1, 0⟩ ⟨5, 0⟩ (fun _ => some ((Oplog.atSecond 1).data ++ (Oplog.atSecond 2).data.take 9))
      [⟨⟨1, 0⟩, ⟨5, 0⟩, [], .oplog, by decide⟩] = .ok actions ∧ ¬ ReplayCompletes actions fun _ => false := by
  refine ⟨script [(Oplog.atSecond 1).entry] [.readBson, .decode], by decide +kernel, ?_⟩
  rw [completes_script_iff]
  simp

end Path

end WalG.Mongo
