import WalG.Mongo.Applier
import WalG.Mongo.Sequence

/-! # Runs of the oplog archiver

A run begins at the last archived timestamp, whose operation its cursor returns first, so the first
archive of a run holds the operation at its start and the others do not.
-/
namespace WalG.Mongo
open Foundation List

/-- An archive replaces one of the same name. -/
def store (stored : List Upload) (u : Upload) : List Upload :=
  stored.filter (fun v => v.arch ≠ u.arch) ++ [u]

def lastKnownArchiveTS (archives : List Archive) : Timestamp :=
  archives.foldl (fun ts arch => maxTS ts arch.endTS) 0

def resolveStartingTS (archives : List Archive) (majTS : Timestamp) : Timestamp :=
  let since := lastKnownArchiveTS archives
  if since ≠ 0 then since else majTS

variable {B : Bson}

def tailOplogFrom (oplog : List (Oplog B)) (from_ : Timestamp) : List (Oplog B) :=
  oplog.filter fun o => from_ ≤ o.ts

inductive DiscoveryError
  | firstDocument
  | uploadGapArchive
  deriving DecidableEq

/-- The operations a cursor returns, and the gap that was found before them. -/
structure OplogCursor (B : Bson) where
  gap : Option Archive
  ops : List (Oplog B)

/-- Without the operation of the last timestamp archiving begins anew at the newest one. -/
def buildCursorFromTS (oplog : List (Oplog B)) (since newestTS : Timestamp) (ext : Text) :
    Except DiscoveryError (OplogCursor B) :=
  match tailOplogFrom oplog since with
  | [] => .error .firstDocument
  | op :: ops =>
    if op.ts = since then .ok ⟨none, op :: ops⟩
    else
      match newArchive since newestTS ext .gap with
      | none => .error .uploadGapArchive
      | some arch => .ok ⟨some arch, tailOplogFrom oplog newestTS⟩

/-- The archives of a run up to some event, or to the close of its channel. -/
def StorageApplier.uploaded (sa : StorageApplier) (buf : Buffer) (events : List (ApplyEvent B)) (closed : Bool) :
    Except ApplyError (List Upload) :=
  if closed then sa.apply buf events
  else do
    let st ← sa.serve buf events
    .ok st.uploads

/-- What runs without a gap leave in storage. Each begins at the last archived timestamp
and receives some of the operations of its cursor. -/
inductive Pushed (oplog : List (Oplog B)) (ext : Text) : List Upload → Prop
  | nil : Pushed oplog ext []
  | run {stored majTS newestTS ops sa kind events closed uploads} : Pushed oplog ext stored → sa.ext = ext →
      (stored ≠ [] → resolveStartingTS (stored.map Upload.arch) majTS = lastKnownArchiveTS (stored.map Upload.arch)) →
      buildCursorFromTS oplog (resolveStartingTS (stored.map Upload.arch) majTS) newestTS ext = .ok ⟨none, ops⟩ →
      events.filterMap ApplyEvent.op? <+: ops →
      StorageApplier.uploaded sa (.newBuffer kind) events closed = .ok uploads →
      Pushed oplog ext (uploads.foldl store stored)

/-- The operations after the start of an archive up to its end, with the one at the start
if the archive opens a run. -/
def span (oplog : List (Oplog B)) (opens : Bool) (a : Archive) : List (Oplog B) :=
  oplog.filter fun o => (a.startTS < o.ts ∨ (opens = true ∧ a.startTS = o.ts)) ∧ o.ts ≤ a.endTS

/-- Archives of adjacent spans of the oplog. -/
structure Layout (oplog : List (Oplog B)) (ext : Text) (first last : Timestamp) (stored : List Upload) : Prop where
  tiling : Tiling ext first last (stored.map Upload.arch)
  nodup : (stored.map Upload.arch).Nodup
  content : ∀ u ∈ stored, ∃ opens, u.content = (span oplog opens u.arch).flatMap Oplog.data ∧
    (opens = true → ∃ o ∈ oplog, o.ts = u.arch.startTS) ∧ (u.arch.startTS = u.arch.endTS → opens = true)

theorem mem_store {stored : List Upload} {u v : Upload} :
    v ∈ store stored u ↔ (v ∈ stored ∧ v.arch ≠ u.arch) ∨ v = u := by
  simp [store]

namespace Layout

variable {oplog : List (Oplog B)} {ext : Text} {first last : Timestamp} {stored : List Upload} {u : Upload}

theorem nil (t : Timestamp) : Layout oplog ext t t [] where
  tiling := ⟨by simp, by simp, by simp, fun s hlt hle => absurd hlt (not_lt.mpr hle), by simp, by simp⟩
  nodup := nodup_nil
  content := by simp

theorem le (h : Layout oplog ext first last stored) (hne : stored ≠ []) : first ≤ last := by
  obtain ⟨u, hu⟩ := exists_mem_of_ne_nil stored hne
  have hbounds := h.tiling.bounds u.arch (mem_map_of_mem hu)
  exact hbounds.1.trans (u.arch.start_le_end.trans hbounds.2)

theorem store (h : Layout oplog ext first last stored) (hfirst : first ≤ last) (hstart : u.arch.startTS = last)
    (htype : u.arch.type = .oplog) (hext : u.arch.ext = ext) (opens : Bool)
    (hcontent : u.content = (span oplog opens u.arch).flatMap Oplog.data)
    (hopens : opens = true → ∃ o ∈ oplog, o.ts = u.arch.startTS)
    (hone : u.arch.startTS = u.arch.endTS → opens = true) : Layout oplog ext first u.arch.endTS (store stored u) := by
  have hmem : ∀ {a}, a ∈ (Mongo.store stored u).map Upload.arch →
      (a ∈ stored.map Upload.arch ∧ a.endTS ≤ u.arch.startTS) ∨ a = u.arch := by
    intro a ha
    obtain ⟨v, hv, rfl⟩ := mem_map.mp ha
    rcases mem_store.mp hv with ⟨hv, -⟩ | rfl
    · exact .inl ⟨mem_map_of_mem hv, hstart ▸ (h.tiling.bounds v.arch (mem_map_of_mem hv)).2⟩
    · exact .inr rfl
  have hend : last ≤ u.arch.endTS := hstart ▸ u.arch.start_le_end
  refine ⟨⟨fun a ha => ?_, fun a ha => ?_, fun a ha => ?_, fun t hlt hle => ?_, fun a ha b hb t ha1 ha2 hb1 hb2 => ?_,
    fun a ha haone b hb hb1 hb2 => ?_⟩, ?_, fun v hv => ?_⟩
  · rcases hmem ha with ⟨ha, -⟩ | rfl
    · exact h.tiling.type a ha
    · exact htype
  · rcases hmem ha with ⟨ha, -⟩ | rfl
    · exact h.tiling.ext_eq a ha
    · exact hext
  · rcases hmem ha with ⟨ha, -⟩ | rfl
    · exact ⟨(h.tiling.bounds a ha).1, (h.tiling.bounds a ha).2.trans hend⟩
    · exact ⟨hfirst.trans hstart.ge, le_rfl⟩
  · rcases le_or_gt t last with hlast | hlast
    · obtain ⟨a, ha, ha1, ha2⟩ := h.tiling.cover t hlt hlast
      obtain ⟨v, hv, rfl⟩ := mem_map.mp ha
      refine ⟨v.arch, mem_map_of_mem (mem_store.mpr (.inl ⟨hv, fun heq => ?_⟩)), ha1, ha2⟩
      rw [heq, hstart] at ha1
      exact absurd hlast (not_le.mpr ha1)
    · exact ⟨u.arch, mem_map_of_mem (mem_store.mpr (.inr rfl)), hstart ▸ hlast, hle⟩
  · rcases hmem ha with ⟨ha, hale⟩ | rfl
    · rcases hmem hb with ⟨hb, hble⟩ | rfl
      · exact h.tiling.unique a ha b hb t ha1 ha2 hb1 hb2
      · exact absurd (hb1.trans_le (ha2.trans hale)) (lt_irrefl _)
    · rcases hmem hb with ⟨hb, hble⟩ | rfl
      · exact absurd (ha1.trans_le (hb2.trans hble)) (lt_irrefl _)
      · rfl
  · rcases hmem ha with ⟨ha, hale⟩ | rfl
    · rcases hmem hb with ⟨hb, hble⟩ | rfl
      · exact h.tiling.oneOp a ha haone b hb hb1 hb2
      · exact absurd (hb1.trans_le hale) (lt_irrefl _)
    · rcases hmem hb with ⟨hb, hble⟩ | rfl
      · exact le_antisymm (hble.trans haone.le) hb2
      · rfl
  · rw [Mongo.store, map_append, map_singleton, nodup_append]
    refine ⟨h.nodup.sublist ((filter_sublist).map _), nodup_singleton _, fun a ha b hb => ?_⟩
    obtain ⟨v, hv, rfl⟩ := mem_map.mp ha
    rw [mem_singleton.mp hb]
    simpa using (mem_filter.mp hv).2
  · rcases mem_store.mp hv with ⟨hv, -⟩ | rfl
    · exact h.content v hv
    · exact ⟨opens, hcontent, hopens, hone⟩

theorem cut (hinc : Increasing oplog) {start stop : Timestamp} (h : Layout oplog ext first start stored)
    (hfirst : first ≤ start) (hstart : ∃ o ∈ oplog, o.ts = start) {batches : List (List (Oplog B))}
    {uploads : List Upload} (hcut : Cut ext start stop batches uploads)
    (hpre : batches.flatten <+: tailOplogFrom oplog start) :
    Layout oplog ext first stop (uploads.foldl Mongo.store stored) ∧ start ≤ stop ∧
      ((batches = [] ∧ start = stop) ∨ batches.flatten = oplog.filter fun o => start ≤ o.ts ∧ o.ts ≤ stop) := by
  induction hcut with
  | nil => exact ⟨h, le_rfl, .inl ⟨rfl, rfl⟩⟩
  | @snoc stop batches uploads batch u hcut hu htype hext hholds ih =>
    rw [flatten_append, flatten_singleton] at hpre ⊢
    obtain ⟨hlayout, hle, hflatten⟩ := ih ((prefix_append _ _).trans hpre)
    have hend : stop ≤ u.arch.endTS := hu ▸ u.arch.start_le_end
    rw [foldl_append, foldl_cons, foldl_nil]
    rcases hflatten with ⟨rfl, rfl⟩ | hflatten
    · -- the first archive of the run
      rw [flatten_nil, nil_append] at hpre ⊢
      have hbatch := Increasing.eq_filter_of_prefix (hinc.sublist filter_sublist) hpre hholds.ne_nil
      rw [filter_filter, hholds.last] at hbatch
      have hrange : batch = oplog.filter fun o => start ≤ o.ts ∧ o.ts ≤ u.arch.endTS := by
        rw [hbatch]
        exact filter_congr fun o _ => by rw [Bool.and_comm, Bool.decide_and]
      have hspan : batch = span oplog true u.arch := by
        rw [hrange, span]
        refine filter_congr fun o _ => decide_eq_decide.mpr (and_congr_left' ?_)
        rw [hu, le_iff_lt_or_eq, eq_self, true_and]
      refine ⟨hlayout.store hfirst hu htype hext true (hspan ▸ hholds.content) (fun _ => hu ▸ hstart) fun _ => rfl,
        hend, .inr hrange⟩
    · have htail : tailOplogFrom oplog start = (oplog.filter fun o => start ≤ o.ts ∧ o.ts ≤ stop) ++
          oplog.filter fun o => stop < o.ts := by
        refine (hinc.filter_append (P := fun t => start ≤ t ∧ t ≤ stop) (Q := fun t => stop < t)
          (R := fun t => start ≤ t) (fun s t hs ht => hs.2.trans_lt ht) fun t => ?_).symm
        rcases le_or_gt t stop with ht | ht
        · simp [ht, not_lt.mpr ht]
        · simp [ht, not_le.mpr ht, hle.trans ht.le]
      rw [hflatten, htail, prefix_append_right_inj] at hpre
      have hbatch := Increasing.eq_filter_of_prefix (hinc.sublist filter_sublist) hpre hholds.ne_nil
      rw [filter_filter, hholds.last] at hbatch
      have hlt : stop < u.arch.endTS := by
        have hlast := getLast_mem hholds.ne_nil
        have hmem := hpre.subset hlast
        rw [mem_filter, hholds.last] at hmem
        exact of_decide_eq_true hmem.2
      have hrange : batch = oplog.filter fun o => stop < o.ts ∧ o.ts ≤ u.arch.endTS := by
        rw [hbatch]
        exact filter_congr fun o _ => by rw [Bool.and_comm, Bool.decide_and]
      have hspan : batch = span oplog false u.arch := by
        rw [hrange, span]
        refine filter_congr fun o _ => decide_eq_decide.mpr (and_congr_left' ?_)
        simp [hu]
      refine ⟨hlayout.store (hfirst.trans hle) hu htype hext false (hspan ▸ hholds.content) nofun
        (fun h => absurd h (hu ▸ hlt).ne), hle.trans hend, .inr ?_⟩
      rw [hflatten, hrange]
      refine hinc.filter_append (P := fun t => start ≤ t ∧ t ≤ stop) (Q := fun t => stop < t ∧ t ≤ u.arch.endTS)
        (R := fun t => start ≤ t ∧ t ≤ u.arch.endTS) (fun s t hs ht => hs.2.trans_lt ht.1) fun t => ?_
      rcases le_or_gt t stop with ht | ht
      · simp [ht, not_lt.mpr ht, ht.trans hend]
      · simp [ht, not_le.mpr ht, hle.trans ht.le]

end Layout

theorem foldl_maxTS_eq {archives : List Archive} {m t : Timestamp} (ht : t ≤ m) (hle : ∀ a ∈ archives, a.endTS ≤ m)
    (hmem : t = m ∨ ∃ a ∈ archives, a.endTS = m) : archives.foldl (fun ts arch => maxTS ts arch.endTS) t = m := by
  induction archives generalizing t with
  | nil => exact hmem.resolve_right (by simp)
  | cons a archives ih =>
    rw [forall_mem_cons] at hle
    rw [foldl_cons, maxTS_eq]
    refine ih (max_le ht hle.1) hle.2 ?_
    rcases hmem with rfl | ⟨b, hb, hend⟩
    · exact .inl (max_eq_left hle.1)
    · rcases mem_cons.mp hb with rfl | hb
      · exact .inl (hend ▸ max_eq_right (hend ▸ ht))
      · exact .inr ⟨b, hb, hend⟩

/-- The last known timestamp is the end of the tiled range. -/
theorem Layout.lastKnownArchiveTS_eq {oplog : List (Oplog B)} {ext : Text} {first last : Timestamp}
    {stored : List Upload} (h : Layout oplog ext first last stored) (hne : stored ≠ []) :
    lastKnownArchiveTS (stored.map Upload.arch) = last := by
  refine foldl_maxTS_eq last.zero_le (fun a ha => (h.tiling.bounds a ha).2) (.inr ?_)
  rcases (h.le hne).lt_or_eq with hlt | rfl
  · obtain ⟨a, ha, -, hend⟩ := h.tiling.cover last hlt le_rfl
    exact ⟨a, ha, le_antisymm (h.tiling.bounds a ha).2 hend⟩
  · obtain ⟨u, hu⟩ := exists_mem_of_ne_nil stored hne
    have hbounds := h.tiling.bounds u.arch (mem_map_of_mem hu)
    exact ⟨u.arch, mem_map_of_mem hu, le_antisymm hbounds.2 (hbounds.1.trans u.arch.start_le_end)⟩

theorem buildCursorFromTS_eq {oplog ops : List (Oplog B)} {since newestTS : Timestamp} {ext : Text}
    (h : buildCursorFromTS oplog since newestTS ext = .ok ⟨none, ops⟩) :
    ops = tailOplogFrom oplog since ∧ ∃ o ∈ oplog, o.ts = since := by
  rw [buildCursorFromTS] at h
  cases htail : tailOplogFrom oplog since with
  | nil => simp [htail] at h
  | cons op rest =>
    simp only [htail] at h
    split_ifs at h with hop
    · have hmem : op ∈ tailOplogFrom oplog since := htail ▸ mem_cons_self
      exact ⟨by simpa using h.symm, op, (mem_filter.mp hmem).1, hop⟩
    · cases harch : newArchive since newestTS ext .gap <;> simp [harch] at h

/-- A run has archived batches of the first operations that it received. -/
theorem StorageApplier.uploaded_cut {sa : StorageApplier} {kind : BufferKind} {events : List (ApplyEvent B)}
    {closed : Bool} {uploads : List Upload} (hinc : Increasing (events.filterMap ApplyEvent.op?))
    (h : sa.uploaded (.newBuffer kind) events closed = .ok uploads) :
    uploads = [] ∨ ∃ o ops stop batches, events.filterMap ApplyEvent.op? = o :: ops ∧
      Cut sa.ext o.ts stop batches uploads ∧ batches.flatten <+: o :: ops := by
  obtain ⟨st, hserve, hserved⟩ := sa.serve_served kind hinc
  obtain ⟨st', hst', rfl⟩ : ∃ st', Served sa.ext (events.filterMap ApplyEvent.op?) st' ∧ st'.uploads = uploads := by
    cases closed with
    | false =>
      rw [uploaded, hserve] at h
      exact ⟨st, hserved, Except.ok.inj h⟩
    | true =>
      obtain ⟨st', hupload, hserved⟩ := hserved.upload
      rw [uploaded, if_pos rfl, apply, hserve, ok_bind, hupload, ok_bind] at h
      exact ⟨st', hserved, Except.ok.inj h⟩
  generalize events.filterMap ApplyEvent.op? = ops at hst'
  cases ops with
  | nil => exact .inl hst'.2.1
  | cons o ops =>
    obtain ⟨batches, pending, hgathered⟩ := hst'
    exact .inr ⟨o, ops, st'.batchStartTS, batches, rfl, hgathered.cut, hgathered.received ▸ prefix_append _ _⟩

/-- Runs without a gap tile the time from the first archived operation on. -/
theorem Pushed.layout {oplog : List (Oplog B)} {ext : Text} {stored : List Upload} (hinc : Increasing oplog)
    (h : Pushed oplog ext stored) : stored = [] ∨ ∃ first last, Layout oplog ext first last stored ∧ first ≤ last := by
  induction h with
  | nil => exact .inl rfl
  | @run stored majTS newestTS ops sa kind events closed uploads _ hext hresume hcursor hops huploaded ih =>
    obtain ⟨rfl, hsince⟩ := buildCursorFromTS_eq hcursor
    generalize resolveStartingTS (stored.map Upload.arch) majTS = since at *
    have hreceived : Increasing (events.filterMap ApplyEvent.op?) :=
      hinc.sublist (hops.sublist.trans filter_sublist)
    rcases StorageApplier.uploaded_cut hreceived huploaded with rfl | ⟨o, rest, stop, batches, hevents, hcut, hflatten⟩
    · exact ih
    · have ho : o.ts = since := by
        obtain ⟨p, hp, hpts⟩ := hsince
        rw [hevents] at hops
        have hmem := (mem_filter.mp (hops.subset mem_cons_self)).2
        refine le_antisymm ?_ (of_decide_eq_true hmem)
        have hp : p ∈ tailOplogFrom oplog since := mem_filter.mpr ⟨hp, by simp [hpts]⟩
        obtain ⟨later, hlater⟩ := hops
        rw [← hlater, cons_append] at hp
        have hpair : Increasing (tailOplogFrom oplog since) := hinc.sublist filter_sublist
        rw [← hlater, cons_append, Increasing, pairwise_cons] at hpair
        rcases mem_cons.mp hp with rfl | hp
        · exact hpts.le
        · exact hpts ▸ (hpair.1 p hp).le
      obtain ⟨first, hlayout, hfirst⟩ : ∃ first, Layout oplog ext first since stored ∧ first ≤ since := by
        by_cases hne : stored = []
        · subst hne
          exact ⟨since, .nil since, le_rfl⟩
        · obtain ⟨first, last, hlayout, hfirst⟩ := ih.resolve_left hne
          rw [hresume hne, hlayout.lastKnownArchiveTS_eq hne]
          exact ⟨first, hlayout, hfirst⟩
      rw [hext, ho] at hcut
      obtain ⟨hlayout, hle, -⟩ := hlayout.cut hinc hfirst hsince hcut (hflatten.trans (hevents ▸ hops))
      exact .inr ⟨first, stop, hlayout, hfirst.trans hle⟩

end WalG.Mongo
