import WalG.Delete.Storage

/-! # Storages with proper backups

The sentinels of such a storage are those of distinct backup names, and their content can be read.
-/
namespace WalG.Delete
open Foundation Wal List

theorem mem_subFolder {path object : Text} {objects : List Text} :
    object ∈ subFolder path objects ↔ path ++ object ∈ objects := by
  rw [subFolder, mem_filterMap]
  constructor
  · rintro ⟨o, ho, hdrop⟩
    split_ifs at hdrop with hstart
    obtain ⟨t, rfl⟩ := isPrefixOf_iff_prefix.mp hstart
    rw [drop_left, Option.some.injEq] at hdrop
    rwa [← hdrop]
  · intro h
    refine ⟨path ++ object, h, ?_⟩
    rw [if_pos (List.isPrefixOf_iff_prefix.mpr (prefix_append _ _)), drop_left]

structure PgStorage (w : WalSize) where
  storage : Storage
  names : List (PgBackupName w)
  increment : PgBackupName w → Option IncrementInfo
  metadata : PgBackupName w → BackupMetadata
  names_nodup : names.Nodup
  sentinels : storage.getBackupSentinelObjects = names.map PgBackupName.sentinel
  sentinel_read : ∀ n ∈ names, storage.sentinel n.text = some (increment n)
  meta_read : ∀ n ∈ names, storage.fetchMeta n.text = some (metadata n)

namespace PgStorage

variable {w : WalSize} (s : PgStorage w) (byTime : Bool)

def permanent (n : PgBackupName w) : Bool := (s.metadata n).isPermanent

def startTimes (name : Text) : Option ℤ :=
  if name ∈ s.storage.getBackups then (s.storage.fetchMeta name).map BackupMetadata.startTime else none

def less : Text → Text → Bool :=
  if byTime then makeLessFunc w s.startTimes else postgresTimelineAndSegmentNoLess w

def time (n : PgBackupName w) : ℤ :=
  if byTime then (s.metadata n).startTime else s.storage.lastModified (baseBackupPath ++ n.sentinel)

def object (n : PgBackupName w) : BackupObject where
  name := n.sentinel
  backupName := n.text
  backupTime := s.time byTime n
  isFullBackup := (s.increment n).isNone
  baseBackupName := ((s.increment n).map IncrementInfo.incrementFullName).getD []
  incrementFromName := ((s.increment n).map IncrementInfo.incrementFrom).getD []

theorem object_injective : Function.Injective (s.object byTime) := fun _ _ h =>
  text_injective (congrArg BackupObject.backupName h)

def permanentBackups : List Text := (s.names.filter s.permanent).map PgBackupName.text

def permanentWals : List Text :=
  (s.names.filter s.permanent).flatMap fun n => permanentWalNames w n.start.timeline (s.metadata n)

def isPermanent : Text → Except DeleteError Bool :=
  Delete.isPermanent (· ∈ s.permanentBackups) (· ∈ s.permanentWals)

def handler : DeleteHandler where
  backups := s.names.map (s.object byTime)
  less := s.less byTime
  isPermanent := s.isPermanent

theorem getBackups_eq : s.storage.getBackups = s.names.map PgBackupName.text := by
  rw [Storage.getBackups, s.sentinels, map_map]
  apply map_congr_left
  intro n _
  rw [Function.comp_apply, stripRightmostBackupName_sentinel]

theorem collectPermanent_eq {names : List (PgBackupName w)} (h : ∀ n ∈ names, n ∈ s.names) :
    collectPermanent w s.storage.fetchMeta (names.map PgBackupName.text) =
      .ok ((names.filter s.permanent).map PgBackupName.text, (names.filter s.permanent).flatMap
        fun n => permanentWalNames w n.start.timeline (s.metadata n)) := by
  induction names with
  | nil => rfl
  | cons n names ih =>
    rw [forall_mem_cons] at h
    rw [map_cons, collectPermanent, ih h.2, s.meta_read n h.1, parseTimelineFromBackupName_text]
    cases hp : (s.metadata n).isPermanent with
    | false => simp [permanent, hp, bind, Except.bind]
    | true => simp [permanent, hp, bind, Except.bind]

theorem getBackupStartTimeMap_eq : s.storage.getBackupStartTimeMap = some s.startTimes := by
  rw [Storage.getBackupStartTimeMap, if_pos]
  · rfl
  · rw [getBackups_eq, all_map, all_eq_true]
    intro n hn
    rw [Function.comp_apply, s.meta_read n hn]
    rfl

theorem startTimes_text {n : PgBackupName w} (hn : n ∈ s.names) :
    s.startTimes n.text = some (s.metadata n).startTime := by
  rw [startTimes, getBackups_eq, if_pos (mem_map_of_mem hn), s.meta_read n hn, Option.map_some]

theorem makePostgresBackupObject_eq {n : PgBackupName w} (hn : n ∈ s.names) :
    s.storage.makePostgresBackupObject (if byTime then some s.startTimes else none) n.sentinel =
      .ok (s.object byTime n) := by
  simp only [Storage.makePostgresBackupObject, n.fetchPgBackupName_sentinel, s.sentinel_read n hn]
  cases byTime <;> cases hi : s.increment n <;>
    simp [object, time, hi, s.startTimes_text hn]

theorem newPostgresDeleteHandler_eq : s.storage.newPostgresDeleteHandler w byTime = .ok (s.handler byTime) := by
  have hobjects : ∀ names : List (PgBackupName w), (∀ n ∈ names, n ∈ s.names) →
      (names.map PgBackupName.sentinel).mapM
          (s.storage.makePostgresBackupObject (if byTime then some s.startTimes else none)) =
        .ok (names.map (s.object byTime)) := by
    intro names h
    induction names with
    | nil => rfl
    | cons n names ih =>
      rw [forall_mem_cons] at h
      rw [map_cons, mapM_cons, s.makePostgresBackupObject_eq byTime h.1, ih h.2]
      rfl
  have hpermanent := s.collectPermanent_eq fun n (hn : n ∈ s.names) => hn
  rw [Storage.newPostgresDeleteHandler, Storage.getPermanentBackupsAndWals, getBackups_eq, hpermanent,
    getBackupStartTimeMap_eq, s.sentinels]
  simp only [bind, Except.bind, hobjects s.names fun n hn => hn]
  cases byTime <;> rfl

/-- What the backups are ordered by. -/
def key (n : PgBackupName w) : ℤ ×ₗ ℤ :=
  if byTime then toLex ((s.metadata n).startTime, 0) else toLex ((n.start.timeline : ℤ), (n.start.no : ℤ))

section Compare

variable {m n : PgBackupName w}

theorem timelineAndSegmentNoLess_eq {o p : Text} {a b : ℕ × ℕ}
    (ho : tryFetchTimelineAndLogSegNo w o = some a) (hp : tryFetchTimelineAndLogSegNo w p = some b) :
    postgresTimelineAndSegmentNoLess w o p =
      decide (toLex ((a.1 : ℤ), (a.2 : ℤ)) < toLex ((b.1 : ℤ), (b.2 : ℤ))) := by
  rw [postgresTimelineAndSegmentNoLess, ho, hp]
  simp only [Prod.Lex.toLex_lt_toLex, Nat.cast_lt, Nat.cast_inj, Bool.decide_or, Bool.decide_and]

theorem less_of_names {o p : Text} (hm : m ∈ s.names) (hn : n ∈ s.names)
    (ho : tryFetchTimelineAndLogSegNo w o = some (m.start.timeline, m.start.no))
    (hp : tryFetchTimelineAndLogSegNo w p = some (n.start.timeline, n.start.no))
    (ho' : fetchPgBackupName o = m.text) (hp' : fetchPgBackupName p = n.text) :
    s.less byTime o p = decide (s.key byTime m < s.key byTime n) := by
  cases byTime with
  | false =>
    exact timelineAndSegmentNoLess_eq ho hp
  | true =>
    have hne : ∀ k : PgBackupName w, k.text ≠ [] := fun k =>
      ne_nil_of_length_pos (by rcases k.text_length with h | h <;> omega)
    simp only [less, key, if_true, makeLessFunc, ho', hp', if_neg (hne _), s.startTimes_text hm,
      s.startTimes_text hn, Prod.Lex.toLex_lt_toLex, lt_self_iff_false, and_false, or_false]

theorem less_sentinel (hm : m ∈ s.names) (hn : n ∈ s.names) :
    s.less byTime m.sentinel n.sentinel = decide (s.key byTime m < s.key byTime n) :=
  s.less_of_names byTime hm hn m.tryFetch_sentinel n.tryFetch_sentinel m.fetchPgBackupName_sentinel
    n.fetchPgBackupName_sentinel

theorem less_stored (hm : m ∈ s.names) (hn : n ∈ s.names) {rest : Text} (h : PgBackupName.Ends rest) :
    s.less byTime (baseBackupPath ++ (m.text ++ rest)) n.sentinel =
      decide (s.key byTime m < s.key byTime n) :=
  s.less_of_names byTime hm hn (m.tryFetch_stored rest) n.tryFetch_sentinel
    (m.fetchPgBackupName_stored h) n.fetchPgBackupName_sentinel

theorem less_wal (segment : WalSegment w) {extension : Text} (h : '_' ∉ extension) :
    s.less byTime (walPath ++ (segment.filename ++ extension)) n.sentinel =
      if byTime then decide (segment.no < n.start.no)
      else decide (toLex ((segment.timeline : ℤ), (segment.no : ℤ)) <
        toLex ((n.start.timeline : ℤ), (n.start.no : ℤ))) := by
  have hwal := tryFetch_wal segment extension
  cases byTime with
  | false =>
    exact timelineAndSegmentNoLess_eq hwal n.tryFetch_sentinel
  | true =>
    simp only [less, if_true, makeLessFunc, fetchPgBackupName_wal segment h, postgresSegmentNoLess,
      hwal, n.tryFetch_sentinel]

end Compare

section OfBackups

variable (names : List (PgBackupName w)) (hnodup : names.Nodup)
  (increment : PgBackupName w → Option IncrementInfo) (metadata : PgBackupName w → BackupMetadata)
  (others : List Text)

theorem subFolder_map (path : Text) :
    subFolder path (names.map fun n => path ++ n.sentinel) = names.map PgBackupName.sentinel := by
  induction names with
  | nil => rfl
  | cons n names ih =>
    have hstart : path.isPrefixOf (path ++ n.sentinel) = true :=
      isPrefixOf_iff_prefix.mpr (prefix_append _ _)
    rw [map_cons, subFolder, filterMap_cons, hstart, if_pos rfl, drop_left, ← subFolder, ih, map_cons]

theorem subFolder_disjoint {path : Text} (h : ∀ o ∈ others, path.isPrefixOf o = false) :
    subFolder path others = [] := by
  rw [subFolder, filterMap_eq_nil_iff]
  intro o ho
  rw [h o ho, if_neg Bool.false_ne_true]

theorem filter_sentinels : (names.map PgBackupName.sentinel).filter
    (fun object => '/' ∉ object ∧ sentinelSuffix.isSuffixOf object) = names.map PgBackupName.sentinel := by
  rw [filter_eq_self]
  intro o ho
  obtain ⟨n, -, rfl⟩ := mem_map.mp ho
  rw [decide_eq_true_eq, isSuffixOf_iff_suffix]
  exact ⟨(sentinel_trimmed n).2, suffix_append _ _⟩

theorem find?_text {n : PgBackupName w} (hn : n ∈ names) :
    names.find? (fun m => decide (m.text = n.text)) = some n := by
  induction names with
  | nil => cases hn
  | cons m names ih =>
    rw [find?_cons]
    by_cases hm : m.text = n.text
    · rw [decide_eq_true hm, text_injective hm]
    · rw [decide_eq_false hm]
      rcases mem_cons.mp hn with rfl | hn
      · exact absurd rfl hm
      · exact ih hn

theorem no_others : ∀ o ∈ ([] : List Text), baseBackupPath.isPrefixOf o = false :=
  fun _ h => absurd h not_mem_nil

/-- The storage of some backups, with objects outside their folder. -/
def ofBackups (hothers : ∀ o ∈ others, baseBackupPath.isPrefixOf o = false) : PgStorage w where
  storage :=
    { objects := names.map (fun n => baseBackupPath ++ n.sentinel) ++ others
      lastModified := fun _ => 0
      sentinel := fun name => (names.find? (·.text = name)).map increment
      fetchMeta := fun name => (names.find? (·.text = name)).map metadata }
  names := names
  increment := increment
  metadata := metadata
  names_nodup := hnodup
  sentinels := by
    rw [Storage.getBackupSentinelObjects, subFolder, filterMap_append, ← subFolder, ← subFolder,
      subFolder_map, subFolder_disjoint others hothers, append_nil, filter_sentinels]
  sentinel_read n hn := by simp only [find?_text names hn, Option.map_some]
  meta_read n hn := by simp only [find?_text names hn, Option.map_some]

end OfBackups

end PgStorage

end WalG.Delete
