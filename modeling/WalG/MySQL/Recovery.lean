import WalG.MySQL.BinlogFetch
import Mathlib.Data.Char
import Mathlib.Data.List.Lex

/-! # The binlogs of a recovery come in order

The binlogs of an unchanging storage were uploaded in the order of their names, so their times do
not decrease.
-/
namespace WalG.MySQL
open Foundation List

/-- The stored binlogs in the order of their names, and how the folder lists them. -/
structure BinlogStorage where
  listing : List StoredObject
  binlogs : List StoredObject
  perm : listing.Perm binlogs
  names : binlogs.Pairwise fun a b => a.binlogName < b.binlogName
  times : SortedBy StoredObject.lastModified binlogs

section Start

theorem lowerTS_le (start : Text) (startTS : ℤ) (objects : List StoredObject) :
    lowerTS start startTS objects ≤ startTS := by
  induction objects generalizing startTS with
  | nil => exact le_rfl
  | cons object objects ih =>
    rw [lowerTS]
    split_ifs with h
    · exact (ih _).trans h.2.le
    · exact ih _

theorem lowerTS_le_of_mem {start : Text} {objects : List StoredObject} {object : StoredObject}
    (hmem : object ∈ objects) (hstart : start <+: object.name) (startTS : ℤ) :
    lowerTS start startTS objects ≤ object.lastModified := by
  induction objects generalizing startTS with
  | nil => cases hmem
  | cons first objects ih =>
    rw [lowerTS]
    rcases mem_cons.mp hmem with rfl | hmem
    · split_ifs with h
      · exact lowerTS_le _ _ _
      · rw [not_and, not_lt] at h
        exact (lowerTS_le _ _ _).trans (h (List.isPrefixOf_iff_prefix.mpr hstart))
    · split_ifs
      · exact ih hmem _
      · exact ih hmem _

theorem getBinlogSinceTS_le {binLogStart backupName : Text} {objects : List StoredObject}
    {sentinels : Except FetchError (List StoredObject)} {startTS : ℤ}
    (hstart : getBinlogSinceTS (some binLogStart) backupName sentinels (.ok objects) = .ok startTS)
    {object : StoredObject} (hmem : object ∈ objects) (hname : object.binlogName = binLogStart) :
    startTS ≤ object.lastModified := by
  cases sentinels with
  | error e => cases hstart
  | ok sentinels =>
    have heq : lowerTS binLogStart (lowerTS backupName maxTime sentinels) objects = startTS :=
      Except.ok.inj hstart
    rw [← heq]
    exact lowerTS_le_of_mem hmem (hname ▸ object.binlogName_prefix) _

end Start

namespace BinlogStorage

variable (st : BinlogStorage) (binlogs : Binlogs) (startTS endTS : ℤ)

def since : List StoredObject := st.binlogs.filter (startTS ≤ ·.lastModified)

/-- What the handler should get. -/
def wanted : List StoredObject := takeThrough (binlogs.after endTS) (st.since startTS)

variable {st binlogs startTS endTS}

theorem since_names : (st.since startTS).Pairwise fun a b => a.binlogName < b.binlogName :=
  st.names.filter _

theorem since_times : SortedBy StoredObject.lastModified (st.since startTS) := st.times.filter _

theorem since_nodup : (st.since startTS).Nodup := by
  refine since_names.imp ?_
  rintro a _ h rfl
  exact lt_irrefl _ h

theorem map_binlogName_injOn {l l' : List StoredObject} (hl : ∀ a ∈ l, a ∈ st.since startTS)
    (hl' : ∀ a ∈ l', a ∈ st.since startTS)
    (h : l.map StoredObject.binlogName = l'.map StoredObject.binlogName) : l = l' := by
  have hnodup : ((st.since startTS).map StoredObject.binlogName).Nodup :=
    pairwise_map.mpr (since_names.imp ne_of_lt)
  induction l generalizing l' with
  | nil => rw [map_eq_nil_iff.mp h.symm]
  | cons a l ih =>
    cases l' with
    | nil => cases h
    | cons b l' =>
      obtain ⟨hab, h⟩ := cons.inj h
      rw [inj_on_of_nodup_map hnodup (hl a mem_cons_self) (hl' b mem_cons_self) hab,
        ih (fun c hc => hl c (mem_cons_of_mem _ hc)) (fun c hc => hl' c (mem_cons_of_mem _ hc)) h]

/-- The sorts give exactly the sorted orders of the binlogs since the start. -/
theorem forall_sort_iff {P : List StoredObject → Prop} :
    (∀ sort : SliceSort StoredObject, P (getLogsCoveringInterval sort st.listing startTS true)) ↔
      ∀ l, SortedBy StoredObject.lastModified l → l.Perm (st.since startTS) → P l := by
  constructor
  · intro h l hl hperm
    have hold : (st.binlogs.filter fun b => !decide (startTS ≤ b.lastModified)).filter
        (startTS ≤ ·.lastModified) = [] := by
      rw [filter_filter, filter_eq_nil_iff]
      intro b _
      simp
    have hsince : ∀ b ∈ l, startTS ≤ b.lastModified := by
      intro b hb
      have hmem := mem_filter.mp (hperm.mem_iff.mp hb)
      exact of_decide_eq_true hmem.2
    have hall : ((st.binlogs.filter fun b => !decide (startTS ≤ b.lastModified)) ++ l).Perm st.listing :=
      (perm_append_comm.trans (hperm.append_right _)).trans
        ((filter_append_perm _ _).trans st.perm.symm)
    have hsorted : SortedBy StoredObject.lastModified
        ((st.binlogs.filter fun b => !decide (startTS ≤ b.lastModified)) ++ l) := by
      refine pairwise_append.mpr ⟨st.times.filter _, hl, fun a ha b hb => ?_⟩
      have ha := (mem_filter.mp ha).2
      rw [Bool.not_eq_true', decide_eq_false_iff_not, not_le] at ha
      exact ha.le.trans (hsince b hb)
    have hordered : ((st.binlogs.filter fun b => !decide (startTS ≤ b.lastModified)) ++ l).Pairwise
        fun a b => decide (b.lastModified < a.lastModified) = false :=
      hsorted.imp fun h => decide_eq_false h.not_gt
    obtain ⟨sort, hsort⟩ := SliceSort.exists_sort_eq hall hordered
    have hl' := h sort
    rw [getLogsCoveringInterval_true, hsort, filter_append, hold, nil_append,
      filter_eq_self.mpr fun b hb => decide_eq_true (hsince b hb)] at hl'
    exact hl'
  · intro h sort
    rw [getLogsCoveringInterval_true]
    exact h _ ((sortedBy_sort sort st.listing).filter _)
      (((sort.perm _ _).trans st.perm).filter _)

theorem forall_fetchLogs_iff : (∀ sort fuel, fetchLogs binlogs endTS sort (.ok st.listing) (fuel + 2) startTS =
        some ((st.wanted binlogs startTS endTS).map StoredObject.binlogName, none)) ↔
      TiesBehind StoredObject.lastModified (binlogs.after endTS) (st.since startTS) ∧
        ∀ b ∈ st.wanted binlogs startTS endTS, binlogs.Usable b := by
  simp only [fetchLogs_eq_iff, forall_const]
  rw [forall_sort_iff (P := fun l => (∀ b ∈ takeThrough (binlogs.after endTS) l, binlogs.Usable b) ∧
    (takeThrough (binlogs.after endTS) l).map StoredObject.binlogName =
      (st.wanted binlogs startTS endTS).map StoredObject.binlogName), ← takeThrough_perm_iff since_times since_nodup]
  constructor
  · intro h
    refine ⟨fun l hl hperm => ?_, (h _ since_times (Perm.refl _)).1⟩
    exact map_binlogName_injOn (fun a ha => hperm.mem_iff.mp (takeThrough_subset ha))
      (fun a ha => takeThrough_subset ha) (h l hl hperm).2
  · rintro ⟨hcut, husable⟩ l hl hperm
    rw [hcut l hl hperm]
    exact ⟨husable, rfl⟩

/-- A binlog since the start is wanted if none before it begins after the end. -/
theorem mem_wanted_iff {b : StoredObject} (hb : b ∈ st.since startTS) :
    b ∈ st.wanted binlogs startTS endTS ↔
      ∀ c ∈ st.since startTS, c.binlogName < b.binlogName → binlogs.after endTS c = false := by
  obtain ⟨front, rest, hsplit⟩ := append_of_mem hb
  have hnames := @since_names st startTS
  have hnodup := @since_nodup st startTS
  rw [hsplit] at hnames hnodup
  obtain ⟨-, hrest, hfront⟩ := pairwise_append.mp hnames
  have hnot : b ∉ front := fun hmem => lt_irrefl _ (hfront b hmem b mem_cons_self)
  rw [wanted, hsplit, mem_takeThrough_iff hnot]
  constructor
  · intro h c hc hlt
    rcases mem_append.mp hc with hc | hc
    · exact h c hc
    · rcases mem_cons.mp hc with rfl | hc
      · exact absurd hlt (lt_irrefl _)
      · exact absurd hlt ((pairwise_cons.mp hrest).1 c hc).not_gt
  · intro h c hc
    exact h c (mem_append_left _ hc) (hfront c hc b mem_cons_self)

/-- However the sort chooses, the recovery gets the binlogs in order, with the one the
backup started in, exactly if ties come behind a binlog that begins after the end,
none before the first binlog of the backup does, and all wanted ones can be used. -/
theorem fetchLogs_inOrder_iff {binLogStart backupName : Text} {sentinels : Except FetchError (List StoredObject)}
    (hstart : getBinlogSinceTS (some binLogStart) backupName sentinels (.ok st.listing) = .ok startTS) :
    ((∀ sort fuel, fetchLogs binlogs endTS sort (.ok st.listing) (fuel + 2) startTS =
        some ((st.wanted binlogs startTS endTS).map StoredObject.binlogName, none)) ∧
      ∀ b ∈ st.binlogs, b.binlogName = binLogStart → b ∈ st.wanted binlogs startTS endTS) ↔
    TiesBehind StoredObject.lastModified (binlogs.after endTS) (st.since startTS) ∧
      (∀ b ∈ st.binlogs, b.binlogName = binLogStart → ∀ c ∈ st.since startTS,
        c.binlogName < b.binlogName → binlogs.after endTS c = false) ∧
      ∀ b ∈ st.wanted binlogs startTS endTS, binlogs.Usable b := by
  have hmem : ∀ b ∈ st.binlogs, b.binlogName = binLogStart → b ∈ st.since startTS := by
    intro b hb hname
    have hle := getBinlogSinceTS_le hstart (st.perm.mem_iff.mpr hb) hname
    exact mem_filter.mpr ⟨hb, decide_eq_true hle⟩
  rw [forall_fetchLogs_iff]
  constructor
  · rintro ⟨⟨hties, husable⟩, hfirst⟩
    exact ⟨hties, fun b hb hname => (mem_wanted_iff (hmem b hb hname)).mp (hfirst b hb hname), husable⟩
  · rintro ⟨hties, hfirst, husable⟩
    exact ⟨⟨hties, husable⟩, fun b hb hname =>
      (mem_wanted_iff (hmem b hb hname)).mpr (hfirst b hb hname)⟩

def firstBinlog (time : ℤ) : StoredObject := ⟨"binlog.000001.lz4".toList, time⟩

def secondBinlog (time : ℤ) : StoredObject := ⟨"binlog.000002.lz4".toList, time⟩

/-- Two binlogs, uploaded one after the other; the folder lists the newer one first. -/
def twoBinlogs (time time' : ℤ) (h : time ≤ time') : BinlogStorage where
  listing := [secondBinlog time', firstBinlog time]
  binlogs := [firstBinlog time, secondBinlog time']
  perm := Perm.swap _ _ _
  names := by
    rw [pairwise_pair]
    have hname : trimFileExtension "binlog.000001.lz4".toList <
        trimFileExtension "binlog.000002.lz4".toList := by decide +kernel
    exact hname
  times := pairwise_pair.mpr h

/-- Every file begins at the start of the epoch, and the handler takes all. -/
def epochBinlogs : Binlogs := ⟨fun _ => some (binlogMagic ++ replicate 13 0), fun _ => true⟩

theorem epochBinlogs_usable (b : StoredObject) : epochBinlogs.Usable b := by
  refine ⟨?_, rfl⟩
  change (getBinlogStartTimestamp (binlogMagic ++ replicate 13 0)).isSome = true
  decide

theorem fetchLogs_inOrder_iff_twoTimes :
    getBinlogSinceTS (some "binlog.000001".toList) "stream_20200101T000000Z".toList
        (.ok [⟨"stream_20200101T000000Z_backup_stop_sentinel.json".toList, 5⟩])
        (.ok (twoBinlogs 3 7 (by decide)).listing) = .ok 3 ∧
      ∀ sort fuel, fetchLogs epochBinlogs second sort (.ok (twoBinlogs 3 7 (by decide)).listing) (fuel + 2) 3 =
        some (((twoBinlogs 3 7 (by decide)).wanted epochBinlogs 3 second).map StoredObject.binlogName, none) := by
  have hstart : getBinlogSinceTS (some "binlog.000001".toList) "stream_20200101T000000Z".toList
      (.ok [⟨"stream_20200101T000000Z_backup_stop_sentinel.json".toList, 5⟩])
      (.ok (twoBinlogs 3 7 (by decide)).listing) = .ok 3 := by decide +kernel
  have hafter : ∀ b, epochBinlogs.after second b = false := fun b => by
    change epochBinlogs.after second (firstBinlog 0) = false
    decide +kernel
  refine ⟨hstart, ((fetchLogs_inOrder_iff hstart).mpr ⟨?_, ?_, ?_⟩).1⟩
  · have hsince : (twoBinlogs 3 7 (by decide)).since 3 = [firstBinlog 3, secondBinlog 7] := rfl
    rw [hsince]
    intro a ha b hb hne heq
    rcases mem_pair.mp ha with rfl | rfl <;> rcases mem_pair.mp hb with rfl | rfl
    · exact absurd rfl hne
    · exact absurd heq (by decide)
    · exact absurd heq (by decide)
    · exact absurd rfl hne
  · exact fun _ _ _ c _ _ => hafter c
  · exact fun b _ => epochBinlogs_usable b

/-- Two binlogs of one time: a stable sort leaves them as the folder lists them, the second one first. -/
theorem fetchLogs_tie_swapped : getBinlogSinceTS (some "binlog.000001".toList) "stream_20200101T000000Z".toList
        (.ok [⟨"stream_20200101T000000Z_backup_stop_sentinel.json".toList, 5⟩])
        (.ok (twoBinlogs 3 3 le_rfl).listing) = .ok 3 ∧
      fetchLogs epochBinlogs second (mergeSlice _) (.ok (twoBinlogs 3 3 le_rfl).listing) 2 3 =
        some (["binlog.000002".toList, "binlog.000001".toList], none) ∧
      ((twoBinlogs 3 3 le_rfl).wanted epochBinlogs 3 second).map StoredObject.binlogName =
        ["binlog.000001".toList, "binlog.000002".toList] := by
  have hordered : [secondBinlog 3, firstBinlog 3].Pairwise fun a b =>
      decide (b.lastModified < a.lastModified) = false := by decide
  refine ⟨by decide +kernel, ?_, by decide +kernel⟩
  rw [fetchLogs_eq_iff 0, getLogsCoveringInterval_true,
    show (mergeSlice _).sort _ (twoBinlogs 3 3 le_rfl).listing = _ from mergeSlice_of_ordered hordered]
  exact ⟨fun b _ => epochBinlogs_usable b, by decide +kernel⟩

end BinlogStorage

end WalG.MySQL
