import WalG.Mongo.RouteFetch

/-! # Replaying archived operations

Over the archives of runs without a gap, the fetched operations are those of the range, unless a run
began inside it with an archive of several operations.
-/
namespace WalG.Mongo
open Foundation List

variable {B : Bson}

theorem map_ts_eq_of_flatMap {ops ops' : List (Oplog B)} (h : ops.flatMap Oplog.data = ops'.flatMap Oplog.data) :
    ops.map Oplog.ts = ops'.map Oplog.ts := by
  induction ops generalizing ops' with
  | nil => rw [Oplog.flatMap_data_eq_nil.mp h.symm]
  | cons o ops ih =>
    cases ops' with
    | nil => rw [Oplog.flatMap_data_eq_nil.mp h]
    | cons p ops' =>
      rw [flatMap_cons, flatMap_cons] at h
      have hread := o.read (ops.flatMap Oplog.data)
      rw [h, p.read] at hread
      obtain ⟨hdata, hrest⟩ := ReadResult.doc.inj hread
      have hts : o.ts = p.ts := Option.some.inj (o.lookup.symm.trans (hdata ▸ p.lookup))
      rw [map_cons, map_cons, hts, ih hrest.symm]

/-- An operation of the timestamp is in an archive. -/
def ArchivedTS (B : Bson) (stored : List Upload) (ts : Timestamp) : Prop :=
  ∃ u ∈ stored, ∃ ops : List (Oplog B), u.content = ops.flatMap Oplog.data ∧ ∃ o ∈ ops, o.ts = ts

theorem Layout.of_archivedTS {oplog : List (Oplog B)} {ext : Text} {first last ts : Timestamp} {stored : List Upload}
    (h : Layout oplog ext first last stored) (hts : ArchivedTS B stored ts) :
    (∃ o ∈ oplog, o.ts = ts) ∧ first ≤ ts ∧ ts ≤ last := by
  obtain ⟨u, hu, ops, hops, o, ho, rfl⟩ := hts
  obtain ⟨opens, hcontent, -⟩ := h.content u hu
  have hbounds := h.tiling.bounds u.arch (mem_map_of_mem hu)
  have hmem : o.ts ∈ (span oplog opens u.arch).map Oplog.ts :=
    map_ts_eq_of_flatMap (hops.symm.trans hcontent) ▸ mem_map_of_mem ho
  obtain ⟨p, hp, hpts⟩ := mem_map.mp hmem
  obtain ⟨hp, hspan⟩ := mem_filter.mp hp
  obtain ⟨hstart, hend⟩ := of_decide_eq_true hspan
  refine ⟨⟨p, hp, hpts⟩, ?_, hpts ▸ hend.trans hbounds.2⟩
  rcases hstart with hstart | ⟨-, hstart⟩
  · exact hpts ▸ hbounds.1.trans hstart.le
  · exact hpts ▸ hstart ▸ hbounds.1

/-- The operations of the range are fetched, in order and each once. -/
def Replays (oplog : List (Oplog B)) (stored : List Upload) (listing : List Archive) (since until_ : Timestamp) :
    Prop :=
  ∃ path, sequenceBetweenTS listing since until_ = .ok path ∧
    fetchBetween B since until_ (download stored) path =
      .ok (sendData (oplog.filter fun o => since ≤ o.ts ∧ o.ts < until_))

/-- Archived operations are replayed exactly if no run began in the range with an archive
of several operations and no archive of one operation hides the one before it. -/
theorem Pushed.replays_iff {oplog : List (Oplog B)} {ext : Text} {stored : List Upload} {listing : List Archive}
    {since until_ : Timestamp} (hinc : Increasing oplog) (hpushed : Pushed oplog ext stored)
    (hlisting : listing.Perm (stored.map Upload.arch)) (hsince : ArchivedTS B stored since)
    (huntil : ArchivedTS B stored until_) (hle : since ≤ until_) (hearlier : ∃ ts < since, ArchivedTS B stored ts) :
    Replays oplog stored listing since until_ ↔
      Seamless B stored since until_ ∧ Untangled listing since until_ := by
  obtain ⟨u, hu, -⟩ := id hsince
  obtain ⟨first, last, hlayout, -⟩ := (hpushed.layout hinc).resolve_left (ne_nil_of_mem hu)
  obtain ⟨⟨o, ho, hots⟩, -⟩ := hlayout.of_archivedTS hsince
  obtain ⟨⟨p, hp, hpts⟩, -, hlast⟩ := hlayout.of_archivedTS huntil
  have hfirst : first < since := by
    obtain ⟨ts, hlt, hts⟩ := hearlier
    exact (hlayout.of_archivedTS hts).2.1.trans_lt hlt
  have htiling := hlayout.tiling.perm hlisting
  have hnodup := hlisting.nodup_iff.mpr hlayout.nodup
  have hmem : ∀ a ∈ listing, a ∈ stored.map Upload.arch := fun a => hlisting.mem_iff.mp
  have hfetch : ∀ path, fetchBetween B since until_ (download stored) path =
      .ok (fetchPath B since until_ (download stored) path false) := fun path => if_neg (by simpa using hle)
  constructor
  · rintro ⟨path, hpath, hactions⟩
    have huntangled := untangled_of_sequenceBetweenTS htiling hfirst hle hlast hpath
    refine ⟨?_, huntangled⟩
    by_contra hbad
    obtain ⟨route, tail, c, hok, hroute, hend⟩ :=
      sequenceBetweenTS_route htiling hnodup hfirst hle hlast huntangled
    cases hpath.symm.trans hok
    have hbad : ¬ Seamless B stored since c.endTS := fun h =>
      hbad fun u hu hu1 hu2 => h u hu hu1 (hu2.trans_le hend)
    obtain ⟨q, rest, hq1, hq2, hrepeat⟩ := fetchPath_repeats hlayout hinc hmem ho hots hroute hbad htiling
      (fun u hu => hlisting.mem_iff.mpr (mem_map_of_mem hu)) tail
    have hsplit : (oplog.filter fun o => since ≤ o.ts ∧ o.ts < until_) =
        (oplog.filter fun o => since ≤ o.ts ∧ o.ts ≤ q.ts) ++ oplog.filter fun o => q.ts < o.ts ∧ o.ts < until_ := by
      refine (hinc.filter_append (P := fun t => since ≤ t ∧ t ≤ q.ts) (Q := fun t => q.ts < t ∧ t < until_)
        (R := fun t => since ≤ t ∧ t < until_) (fun s t hs ht => hs.2.trans_lt ht.1) fun t => ?_).symm
      rcases le_or_gt t q.ts with ht | ht
      · simp [ht, not_lt.mpr ht, ht.trans_lt hq2]
      · simp [ht, not_le.mpr ht, hq1.trans ht.le]
    rw [hfetch, hrepeat, hsplit, sendData, sendData, map_append] at hactions
    have hrest := append_cancel_left (Except.ok.inj hactions)
    have hhead : FetchAction.data q.entry ∈ (oplog.filter fun o => q.ts < o.ts ∧ o.ts < until_).map
        fun o => FetchAction.data o.entry := hrest ▸ mem_cons_self
    obtain ⟨r, hr, hentry⟩ := mem_map.mp hhead
    have hts : r.ts = q.ts := congrArg OplogEntry.ts (FetchAction.data.inj hentry)
    exact absurd hts (of_decide_eq_true (mem_filter.mp hr).2).1.ne'
  · rintro ⟨hseamless, huntangled⟩
    obtain ⟨route, tail, c, hok, hroute, hend⟩ :=
      sequenceBetweenTS_route htiling hnodup hfirst hle hlast huntangled
    exact ⟨route ++ tail, hok, (hfetch _).trans (congrArg _
      (fetchPath_reached hlayout hinc hmem ho hots hroute hseamless hp hpts hle hend tail))⟩

/-- Four operations, one in each second. -/
def secondsOplog : List (Oplog tsBson) :=
  [.atSecond 1, .atSecond 2, .atSecond 3, .atSecond 4]

theorem increasing_secondsOplog : Increasing secondsOplog := by
  refine .cons ?_ (.cons ?_ (.cons ?_ (.cons ?_ .nil))) <;> decide

/-- An archive of operations under two seconds. -/
def secondsUpload (start stop : ℕ) (h : (⟨start, 0⟩ : Timestamp) ≤ ⟨stop, 0⟩) (ops : List (Oplog tsBson)) : Upload :=
  ⟨⟨⟨start, 0⟩, ⟨stop, 0⟩, [], .oplog, h⟩, ops.flatMap Oplog.data⟩

/-- A run that uploads when the timer fires. -/
def timedRun (first second : Oplog tsBson) : List (ApplyEvent tsBson) := [.op first, .op second, .timer]

def oneRun : List Upload :=
  [secondsUpload 1 2 (by decide) (secondsOplog.take 2), secondsUpload 2 4 (by decide) (secondsOplog.drop 2)]

theorem pushed_oneRun : Pushed secondsOplog [] oneRun :=
  @Pushed.run tsBson secondsOplog [] [] ⟨1, 0⟩ 0 secondsOplog ⟨100, [], fun _ _ => 0⟩ .memory
    (timedRun (.atSecond 1) (.atSecond 2) ++
      timedRun (.atSecond 3) (.atSecond 4)) false oneRun .nil rfl (absurd rfl) rfl ⟨[], rfl⟩ rfl

theorem Pushed.replays_iff_oneRun : Replays secondsOplog oneRun (oneRun.map Upload.arch) ⟨2, 0⟩ ⟨4, 0⟩ := by
  have hiff := Pushed.replays_iff increasing_secondsOplog pushed_oneRun (Perm.refl _)
    ⟨_, mem_cons_self, secondsOplog.take 2, rfl, .atSecond 2, by simp [secondsOplog], rfl⟩
    ⟨_, mem_cons_of_mem _ mem_cons_self, secondsOplog.drop 2, rfl, .atSecond 4, by simp [secondsOplog], rfl⟩
    (by decide)
    ⟨⟨1, 0⟩, by decide, _, mem_cons_self, secondsOplog.take 2, rfl, .atSecond 1, by simp [secondsOplog], rfl⟩
  refine hiff.mpr ⟨?_, ?_⟩
  · unfold Seamless Opens
    decide
  · unfold Untangled
    decide

/-- Two runs, the second from the last operation of the first on. -/
def twoRuns : List Upload :=
  [secondsUpload 1 2 (by decide) (secondsOplog.take 2), secondsUpload 2 3 (by decide) ((secondsOplog.drop 1).take 2)]

theorem pushed_twoRuns : Pushed secondsOplog [] twoRuns := by
  have hfirst : Pushed secondsOplog [] (twoRuns.take 1) :=
    @Pushed.run tsBson secondsOplog [] [] ⟨1, 0⟩ 0 secondsOplog ⟨100, [], fun _ _ => 0⟩ .memory
      (timedRun (.atSecond 1) (.atSecond 2)) false (twoRuns.take 1) .nil rfl (absurd rfl) rfl
      ⟨_, rfl⟩ rfl
  exact @Pushed.run tsBson secondsOplog [] (twoRuns.take 1) ⟨1, 0⟩ 0 (secondsOplog.drop 1) ⟨100, [], fun _ _ => 0⟩ .memory
    (timedRun (.atSecond 2) (.atSecond 3)) false (twoRuns.drop 1) hfirst rfl (fun _ => rfl) rfl
    ⟨_, rfl⟩ rfl

theorem fetchBetween_twoRuns : fetchBetween tsBson ⟨2, 0⟩ ⟨3, 0⟩ (download twoRuns) (twoRuns.map Upload.arch) =
    .ok [.data (Oplog.atSecond 2).entry, .data (Oplog.atSecond 2).entry] := by decide +kernel

/-- The operation at the restart is replayed twice. -/
theorem not_replays_twoRuns : Pushed secondsOplog [] twoRuns ∧ ArchivedTS tsBson twoRuns ⟨1, 0⟩ ∧
    ArchivedTS tsBson twoRuns ⟨2, 0⟩ ∧ ArchivedTS tsBson twoRuns ⟨3, 0⟩ ∧
    ¬ Replays secondsOplog twoRuns (twoRuns.map Upload.arch) ⟨2, 0⟩ ⟨3, 0⟩ := by
  refine ⟨pushed_twoRuns, ⟨_, mem_cons_self, secondsOplog.take 2, rfl, .atSecond 1, by simp [secondsOplog], rfl⟩,
    ⟨_, mem_cons_self, secondsOplog.take 2, rfl, .atSecond 2, by simp [secondsOplog], rfl⟩,
    ⟨_, mem_cons_of_mem _ mem_cons_self, (secondsOplog.drop 1).take 2, rfl, .atSecond 3,
      by simp [secondsOplog], rfl⟩, ?_⟩
  rintro ⟨path, hpath, hfetch⟩
  have hseq : sequenceBetweenTS (twoRuns.map Upload.arch) ⟨2, 0⟩ ⟨3, 0⟩ = .ok (twoRuns.map Upload.arch) := by
    decide +kernel
  cases hseq.symm.trans hpath
  rw [fetchBetween_twoRuns] at hfetch
  have hlength := congrArg length (Except.ok.inj hfetch)
  revert hlength
  decide

end WalG.Mongo
