import WalG.MySQL.BinlogPush

/-! # Each finished binlog is archived once

A server's binlogs are numbered upwards.
-/
namespace WalG.MySQL
open Foundation List

/-- The binlogs a server lists and the one it writes, by their numbers. -/
structure Moment where
  files : List ℕ
  current : ℕ
  nodup : files.Nodup
  le_current : ∀ n ∈ files, n ≤ current

/-- A finished binlog of the list. -/
def Moment.Finished (m : Moment) (n : ℕ) : Prop := n ∈ m.files ∧ n < m.current

/-- Later the server may have purged old binlogs, and new ones have new numbers. -/
def Later (m m' : Moment) : Prop := m.current ≤ m'.current ∧ ∀ n ∈ m'.files, n ≤ m.current → n ∈ m.files

theorem Later.finished {m m' : Moment} (h : Later m m') {k n : ℕ} (hk : m.Finished k)
    (hn : m'.Finished n) (hnk : n ≤ k) : m.Finished n :=
  ⟨h.2 n hn.1 (hnk.trans hk.2.le), hnk.trans_lt hk.2⟩

/-- The names of two numbers are in their order: with zeros for the missing digits
the smaller number does not become the larger one. -/
def NameBefore (m n : ℕ) : Prop := m * 10 ^ (decimalWidth 6 n - decimalWidth 6 m) ≤ n

theorem nameBefore_of_width {m n : ℕ} (hmn : m < n) (h : decimalWidth 6 m = decimalWidth 6 n) : NameBefore m n := by
  rw [NameBefore, h, Nat.sub_self, pow_zero, mul_one]
  exact hmn.le

variable (base : Text)

theorem binlogName_lt_iff {m n : ℕ} (hmn : m < n) : binlogName base m < binlogName base n ↔ NameBefore m n := by
  have happend : StrictMono fun t : Text => (base ++ ['.']) ++ t := fun _ _ h => append_left_lt h
  have hname : ∀ n, binlogName base n = (base ++ ['.']) ++ formatDecimal 6 n := fun n => by
    rw [binlogName, append_assoc, singleton_append]
  rw [NameBefore, ← formatDecimal_lt_iff hmn, hname, hname]
  exact happend.lt_iff_lt

theorem binlogName_injective : Function.Injective (binlogName base) := by
  intro m n h
  exact formatDecimal_injective 6 (cons.inj (append_cancel_left h)).2

theorem nil_lt_binlogName (n : ℕ) : [] < binlogName base n := by
  rw [binlogName]
  cases base with
  | nil => exact nil_lt_cons _ _
  | cons c base => exact nil_lt_cons _ _

def Moment.server (m : Moment) : Server :=
  ⟨m.files.map (binlogName base), binlogName base m.current⟩

variable (sort : SliceSort Text) (outcomes : Outcomes)

def push (s : PushState) (m : Moment) : PushState := s.handleBinlogPush outcomes sort (m.server base) []

/-- One push after another, starting without a cache. -/
def pushRuns (moments : List Moment) : PushState := moments.foldl (push base sort outcomes) .initial

/-- After the pushes every finished binlog of a list has been uploaded once, in the
order of the numbers. -/
structure Archived (moments : List Moment) (s : PushState) : Prop where
  once : ∀ m ∈ moments, ∀ n, m.Finished n → s.uploaded.count (binlogName base n) = 1
  increasing : ∃ numbers : List ℕ, s.uploaded = numbers.map (binlogName base) ∧ numbers.Pairwise (· < ·)

def Pending (s : PushState) (m : Moment) (n : ℕ) : Prop :=
  m.Finished n ∧ binlogName base n ∉ s.uploaded

/-- The names a push has to compare are ordered like their numbers: the pending
binlogs among themselves, with the current binlog and with the cached one. -/
structure NamesOrdered (s : PushState) (m : Moment) : Prop where
  current : ∀ n, Pending base s m n → NameBefore n m.current
  cached : ∀ c, s.lastArchivedBinlog = some (binlogName base c) → ∀ n, Pending base s m n → NameBefore c n
  pending : ∀ n n', Pending base s m n → Pending base s m n' → n < n' → NameBefore n n'

/-- What any pushes leave: uploads in the order of their names, the last one cached. -/
structure Reached (moments : List Moment) (s : PushState) (numbers : List ℕ) : Prop where
  uploaded : s.uploaded = numbers.map (binlogName base)
  cached : s.lastArchivedBinlog = numbers.getLast?.map (binlogName base)
  ascending : (numbers.map (binlogName base)).Pairwise (· < ·)
  finished : ∀ n ∈ numbers, ∃ m ∈ moments, m.Finished n

variable {base sort outcomes} {s : PushState} {before : List Moment} {m : Moment} {numbers added : List ℕ}

/-- The numbers a push adds: those with a name before the current and after the cached one. -/
structure Added (base : Text) (s : PushState) (m : Moment) (added : List ℕ) : Prop where
  ascending : (added.map (binlogName base)).Pairwise (· < ·)
  mem_iff : ∀ n, n ∈ added ↔ m.Finished n ∧ binlogName base n < binlogName base m.current ∧
    s.getLastArchivedBinlog < binlogName base n

theorem exists_added (hsucceed : outcomes.Succeed) (s : PushState) (m : Moment) :
    ∃ added : List ℕ, Added base s m added ∧ push base sort outcomes s m =
      ⟨(added.map (binlogName base)).getLast?.or s.lastArchivedBinlog, s.uploaded ++ added.map (binlogName base)⟩ := by
  set finished := (m.files.map (binlogName base)).filter (· < binlogName base m.current) with hfinished
  have hsorted : getMySQLSortedBinlogs sort (m.server base) [] = sort.sort (fun a b => a < b) finished := rfl
  have hperm := sort.perm (fun a b => decide (a < b)) finished
  have hnodup : finished.Nodup := (m.nodup.map (binlogName_injective base)).filter _
  have hle : (sort.sort (fun a b => decide (a < b)) finished).Pairwise (· ≤ ·) :=
    sort.sorted_key fun _ _ _ _ => decide_eq_decide.mpr Iff.rfl
  have hascending : (sort.sort (fun a b => decide (a < b)) finished).Pairwise (· < ·) :=
    (hle.and (hperm.nodup_iff.mpr hnodup)).imp fun h => lt_of_le_of_ne h.1 h.2
  have hmem : ∀ b ∈ (sort.sort (fun a b => decide (a < b)) finished).filter (s.getLastArchivedBinlog < ·),
      b ∈ Set.range (binlogName base) := by
    intro b hb
    have hb := mem_of_mem_filter (hperm.mem_iff.mp (mem_of_mem_filter hb))
    obtain ⟨n, -, rfl⟩ := mem_map.mp hb
    exact ⟨n, rfl⟩
  have hrange := (Set.ext_iff.mp (Set.range_list_map (binlogName base)) _).mpr hmem
  obtain ⟨added, hadded⟩ := hrange
  refine ⟨added, ⟨?_, fun n => ?_⟩, ?_⟩
  · rw [hadded]
    exact hascending.filter _
  · rw [← mem_map_of_injective (binlogName_injective base), hadded, mem_filter, hperm.mem_iff, hfinished,
      mem_filter, mem_map_of_injective (binlogName_injective base), decide_eq_true_eq, decide_eq_true_eq]
    constructor
    · rintro ⟨⟨hn, hlt⟩, hcached⟩
      refine ⟨⟨hn, lt_of_le_of_ne (m.le_current n hn) ?_⟩, hlt, hcached⟩
      rintro rfl
      exact lt_irrefl _ hlt
    · rintro ⟨hn, hlt, hcached⟩
      exact ⟨⟨hn.1, hlt⟩, hcached⟩
  · rw [push, PushState.handleBinlogPush, hsorted, archiveBinlogs_eq hsucceed hascending, hadded]

section Step

variable (h : Reached base before s numbers)

include h

theorem Reached.le_cached {n : ℕ} (hn : n ∈ numbers) : binlogName base n ≤ s.getLastArchivedBinlog := by
  have hlast : s.getLastArchivedBinlog = (numbers.getLast?.map (binlogName base)).getD [] := by
    rw [PushState.getLastArchivedBinlog, h.cached]
  rw [hlast]
  have hasc := h.ascending
  induction numbers using reverseRecOn with
  | nil => cases hn
  | append_singleton numbers c _ =>
    rw [getLast?_concat, Option.map_some, Option.getD_some]
    rcases mem_append.mp hn with hn | hn
    · rw [map_append, pairwise_append] at hasc
      exact (hasc.2.2 _ (mem_map_of_mem hn) _ mem_cons_self).le
    · rw [mem_singleton.mp hn]

theorem Reached.push (hadded : Added base s m added) :
    Reached base (before ++ [m]) ⟨(added.map (binlogName base)).getLast?.or s.lastArchivedBinlog,
      s.uploaded ++ added.map (binlogName base)⟩ (numbers ++ added) where
  uploaded := by rw [h.uploaded, map_append]
  cached := by
    rw [h.cached, getLast?_append, getLast?_map]
    cases added.getLast? <;> rfl
  ascending := by
    rw [map_append, pairwise_append]
    refine ⟨h.ascending, hadded.ascending, ?_⟩
    intro a ha b hb
    obtain ⟨k, hk, rfl⟩ := mem_map.mp ha
    obtain ⟨n, hn, rfl⟩ := mem_map.mp hb
    exact (h.le_cached hk).trans_lt ((hadded.mem_iff n).mp hn).2.2
  finished := by
    intro n hn
    rcases mem_append.mp hn with hn | hn
    · obtain ⟨m', hm', hfin⟩ := h.finished n hn
      exact ⟨m', mem_append_left _ hm', hfin⟩
    · exact ⟨m, mem_append_right _ mem_cons_self, ((hadded.mem_iff n).mp hn).1⟩

theorem Reached.nodup : s.uploaded.Nodup := by
  rw [h.uploaded]
  exact h.ascending.imp ne_of_lt

theorem Reached.mem_uploaded {n : ℕ} : binlogName base n ∈ s.uploaded ↔ n ∈ numbers := by
  rw [h.uploaded, mem_map_of_injective (binlogName_injective base)]

theorem Reached.archived_iff : Archived base before s ↔
      numbers.Pairwise (· < ·) ∧ ∀ m ∈ before, ∀ n, m.Finished n → n ∈ numbers := by
  constructor
  · intro ha
    obtain ⟨numbers', heq, hinc⟩ := ha.increasing
    rw [h.uploaded] at heq
    rw [map_injective_iff.mpr (binlogName_injective base) heq]
    refine ⟨hinc, fun m hm n hn => ?_⟩
    rw [← map_injective_iff.mpr (binlogName_injective base) heq, ← h.mem_uploaded, ← count_pos_iff, ha.once m hm n hn]
    exact Nat.one_pos
  · rintro ⟨hinc, hall⟩
    refine ⟨fun m hm n hn => ?_, numbers, h.uploaded, hinc⟩
    exact count_eq_one_of_mem h.nodup (h.mem_uploaded.mpr (hall m hm n hn))

variable (harchived : Archived base before s) (hlater : ∀ m' ∈ before, Later m' m)

include harchived hlater

theorem lt_of_pending {k n : ℕ} (hk : k ∈ numbers) (hn : Pending base s m n) : k < n := by
  by_contra hle
  obtain ⟨m', hm', hfin⟩ := h.finished k hk
  have hold := (hlater m' hm').finished hfin hn.1 (not_lt.mp hle)
  exact hn.2 (h.mem_uploaded.mpr ((h.archived_iff.mp harchived).2 m' hm' n hold))

theorem mem_added_iff (hnames : NamesOrdered base s m) (hadded : Added base s m added) {n : ℕ} :
    n ∈ added ↔ Pending base s m n := by
  rw [hadded.mem_iff]
  constructor
  · rintro ⟨hfin, -, hcached⟩
    refine ⟨hfin, fun hmem => ?_⟩
    exact (h.le_cached (h.mem_uploaded.mp hmem)).not_gt hcached
  · intro hn
    refine ⟨hn.1, (binlogName_lt_iff base hn.1.2).mpr (hnames.current n hn), ?_⟩
    cases hlast : numbers.getLast? with
    | none =>
      rw [PushState.getLastArchivedBinlog, h.cached, hlast]
      exact nil_lt_binlogName base n
    | some c =>
      have hc : s.lastArchivedBinlog = some (binlogName base c) := by rw [h.cached, hlast, Option.map_some]
      rw [PushState.getLastArchivedBinlog, hc]
      have hlt := lt_of_pending h harchived hlater (mem_of_getLast? hlast) hn
      exact (binlogName_lt_iff base hlt).mpr (hnames.cached c hc n hn)

theorem archived_push (hnames : NamesOrdered base s m) (hadded : Added base s m added) :
    (numbers ++ added).Pairwise (· < ·) ∧
      ∀ m' ∈ before ++ [m], ∀ n, m'.Finished n → n ∈ numbers ++ added := by
  obtain ⟨hinc, hall⟩ := h.archived_iff.mp harchived
  have hmem := fun n => mem_added_iff h harchived hlater hnames hadded (n := n)
  constructor
  · rw [pairwise_append]
    refine ⟨hinc, ?_, fun k hk n hn => lt_of_pending h harchived hlater hk ((hmem n).mp hn)⟩
    refine (pairwise_map.mp hadded.ascending).imp_of_mem fun {n n'} hn hn' hlt => ?_
    by_contra hle
    rcases lt_or_eq_of_le (not_lt.mp hle) with hgt | rfl
    · have hbefore := hnames.pending n' n ((hmem n').mp hn') ((hmem n).mp hn) hgt
      exact lt_asymm hlt ((binlogName_lt_iff base hgt).mpr hbefore)
    · exact lt_irrefl _ hlt
  · intro m' hm' n hn
    rw [mem_append]
    rcases mem_append.mp hm' with hm' | hm'
    · exact .inl (hall m' hm' n hn)
    · rw [mem_singleton.mp hm'] at hn
      by_cases hup : n ∈ numbers
      · exact .inl hup
      · exact .inr ((hmem n).mpr ⟨hn, fun hmem => hup (h.mem_uploaded.mp hmem)⟩)

omit harchived hlater in
theorem namesOrdered_of_archived (hadded : Added base s m added) (hinc : (numbers ++ added).Pairwise (· < ·))
    (hall : ∀ m' ∈ before ++ [m], ∀ n, m'.Finished n → n ∈ numbers ++ added) : NamesOrdered base s m := by
  have hmem : ∀ n, Pending base s m n → n ∈ added := by
    intro n hn
    rcases mem_append.mp (hall m (by simp) n hn.1) with hup | hup
    · exact absurd (h.mem_uploaded.mpr hup) hn.2
    · exact hup
  obtain ⟨-, hinc', hlt⟩ := pairwise_append.mp hinc
  refine ⟨fun n hn => ?_, fun c hc n hn => ?_, fun n n' hn hn' hnn' => ?_⟩
  · exact (binlogName_lt_iff base hn.1.2).mp ((hadded.mem_iff n).mp (hmem n hn)).2.1
  · have hcached := ((hadded.mem_iff n).mp (hmem n hn)).2.2
    rw [PushState.getLastArchivedBinlog, hc, Option.getD_some] at hcached
    have hlast : c ∈ numbers := by
      rw [h.cached, Option.map_eq_some_iff] at hc
      obtain ⟨c', hc', heq⟩ := hc
      rw [← binlogName_injective base heq]
      exact mem_of_getLast? hc'
    exact (binlogName_lt_iff base (hlt c hlast n (hmem n hn))).mp hcached
  · rw [← binlogName_lt_iff base hnn']
    obtain ⟨i, hi, rfl⟩ := mem_iff_getElem.mp (hmem n hn)
    obtain ⟨j, hj, rfl⟩ := mem_iff_getElem.mp (hmem n' hn')
    rcases lt_trichotomy i j with hij | rfl | hji
    · exact pairwise_iff_getElem.mp (pairwise_map.mp hadded.ascending) i j hi hj hij
    · exact absurd hnn' (lt_irrefl _)
    · exact absurd hnn' (pairwise_iff_getElem.mp hinc' j i hj hi hji).not_gt

end Step

section Runs

variable (hsucceed : outcomes.Succeed)

theorem pushRuns_concat (moments : List Moment) (m : Moment) :
    pushRuns base sort outcomes (moments ++ [m]) =
      push base sort outcomes (pushRuns base sort outcomes moments) m := by
  rw [pushRuns, foldl_append]
  rfl

include hsucceed

theorem exists_reached (moments : List Moment) :
    ∃ numbers, Reached base moments (pushRuns base sort outcomes moments) numbers := by
  induction moments using reverseRecOn with
  | nil => exact ⟨[], rfl, rfl, Pairwise.nil, nofun⟩
  | append_singleton moments m ih =>
    obtain ⟨numbers, h⟩ := ih
    obtain ⟨added, hadded, heq⟩ := exists_added hsucceed (pushRuns base sort outcomes moments) m
    rw [pushRuns_concat, heq]
    exact ⟨_, h.push hadded⟩

theorem archived_concat_iff {moments : List Moment} (hlater : ∀ m' ∈ moments, Later m' m)
    (harchived : Archived base moments (pushRuns base sort outcomes moments)) :
    Archived base (moments ++ [m]) (pushRuns base sort outcomes (moments ++ [m])) ↔
      NamesOrdered base (pushRuns base sort outcomes moments) m := by
  obtain ⟨numbers, h⟩ := @exists_reached base sort outcomes hsucceed moments
  obtain ⟨added, hadded, heq⟩ := exists_added hsucceed (pushRuns base sort outcomes moments) m
  rw [pushRuns_concat, heq, (h.push hadded).archived_iff]
  constructor
  · rintro ⟨hinc, hall⟩
    exact namesOrdered_of_archived h hadded hinc hall
  · intro hnames
    exact archived_push h harchived hlater hnames hadded

theorem archived_of_width {w : ℕ} {moments : List Moment} (hlater : moments.Pairwise Later)
    (hwidth : ∀ m ∈ moments, ∀ n ∈ m.current :: m.files, decimalWidth 6 n = w) :
    Archived base moments (pushRuns base sort outcomes moments) := by
  induction moments using reverseRecOn with
  | nil => exact ⟨nofun, [], rfl, Pairwise.nil⟩
  | append_singleton moments m ih =>
    obtain ⟨hlater', -, hm⟩ := pairwise_append.mp hlater
    have hlast : ∀ m' ∈ moments, Later m' m := fun m' hm' => hm m' hm' m mem_cons_self
    have ih := ih hlater' fun m' hm' => hwidth m' (mem_append_left _ hm')
    have hm := hwidth m (mem_append_right _ mem_cons_self)
    have hfile : ∀ {n}, Pending base (pushRuns base sort outcomes moments) m n →
        decimalWidth 6 n = w := fun hn => hm _ (mem_cons_of_mem _ hn.1.1)
    obtain ⟨numbers, h⟩ := @exists_reached base sort outcomes hsucceed moments
    refine (archived_concat_iff hsucceed hlast ih).mpr
      ⟨fun n hn => ?_, fun c hc n hn => ?_, fun n n' hn hn' hlt => ?_⟩
    · exact nameBefore_of_width hn.1.2 ((hfile hn).trans (hm _ mem_cons_self).symm)
    · rw [h.cached, Option.map_eq_some_iff] at hc
      obtain ⟨c', hc', heq⟩ := hc
      rw [binlogName_injective base heq] at hc'
      have hmem := mem_of_getLast? hc'
      obtain ⟨m', hm', hfin⟩ := h.finished c hmem
      have hc := hwidth m' (mem_append_left _ hm') c (mem_cons_of_mem _ hfin.1)
      exact nameBefore_of_width (lt_of_pending h ih hlast hmem hn) (hc.trans (hfile hn).symm)
    · exact nameBefore_of_width hlt ((hfile hn).trans (hfile hn').symm)

/-- Every push keeps the archive complete and in order exactly if at every push the
names to be compared are ordered like their numbers. -/
theorem archived_iff_namesOrdered {moments : List Moment} (hlater : moments.Pairwise Later) :
    (∀ done rest, moments = done ++ rest → Archived base done (pushRuns base sort outcomes done)) ↔
      ∀ done m rest, moments = done ++ m :: rest →
        NamesOrdered base (pushRuns base sort outcomes done) m := by
  have hbefore : ∀ {done m rest}, moments = done ++ m :: rest → ∀ m' ∈ done, Later m' m := by
    rintro done m rest rfl m' hm'
    exact (pairwise_append.mp hlater).2.2 m' hm' m mem_cons_self
  have hsplit : ∀ {done m rest}, moments = done ++ m :: rest → moments = (done ++ [m]) ++ rest := by
    intro done m rest heq
    rw [heq, append_assoc, singleton_append]
  constructor
  · intro hall done m rest heq
    exact (archived_concat_iff hsucceed (hbefore heq) (hall done _ heq)).mp
      (hall (done ++ [m]) rest (hsplit heq))
  · intro hnames done
    induction done using reverseRecOn with
    | nil => exact fun _ _ => ⟨nofun, [], rfl, Pairwise.nil⟩
    | append_singleton done m ih =>
      intro rest heq
      have heq' : moments = done ++ m :: rest := by
        rw [heq, append_assoc, singleton_append]
      exact (archived_concat_iff hsucceed (hbefore heq') (ih _ heq')).mpr (hnames done m rest heq')

end Runs

def allSucceed : Outcomes := ⟨fun _ => true, fun _ => true⟩

theorem allSucceed_succeed : allSucceed.Succeed := ⟨fun _ => rfl, fun _ => rfl⟩

/-- Two moments of a server that purged its first binlog in between. -/
def earlier : Moment := ⟨[1, 2, 3], 3, by decide, by decide⟩

def afterPurge : Moment := ⟨[2, 3, 4], 4, by decide, by decide⟩

theorem archived_iff_namesOrdered_purge : allSucceed.Succeed ∧ [earlier, afterPurge].Pairwise Later ∧
      NamesOrdered "binlog".toList
        (pushRuns "binlog".toList (mergeSlice Text) allSucceed [earlier]) afterPurge := by
  have hlater : [earlier, afterPurge].Pairwise Later := by
    simp [Later, earlier, afterPurge]
  refine ⟨allSucceed_succeed, hlater, ?_⟩
  refine (archived_iff_namesOrdered allSucceed_succeed hlater).mp (fun done rest heq => ?_)
    [earlier] afterPurge [] rfl
  rw [heq] at hlater
  refine archived_of_width (w := 6) allSucceed_succeed (pairwise_append.mp hlater).1 fun m hm => ?_
  have hm : m ∈ [earlier, afterPurge] := by
    rw [heq]
    exact mem_append_left _ hm
  rcases mem_pair.mp hm with rfl | rfl <;> decide +kernel

/-- The first binlog with seven digits is current, the one before it is finished. -/
def seventhDigit : Moment := ⟨[999999, 1000000], 1000000, by decide, by decide⟩

/-- The finished binlog is not uploaded: its name is not before the current one. -/
theorem not_archived_seventhDigit :
    (pushRuns "binlog".toList (mergeSlice _) allSucceed [seventhDigit]).uploaded = [] ∧
      ¬ Archived "binlog".toList [seventhDigit]
        (pushRuns "binlog".toList (mergeSlice _) allSucceed [seventhDigit]) := by
  generalize mergeSlice _ = sort
  have hnone : (seventhDigit.server "binlog".toList).binaryLogs.filter
      (· < binlogName "binlog".toList 1000000) = [] := by decide +kernel
  have hrun : pushRuns "binlog".toList sort allSucceed [seventhDigit] = .initial := by
    have hsort : getMySQLSortedBinlogs sort (seventhDigit.server "binlog".toList) [] =
        sort.sort (fun a b => a < b) ((seventhDigit.server "binlog".toList).binaryLogs.filter
          (· < binlogName "binlog".toList 1000000)) := rfl
    rw [hnone, (sort.perm _ _).eq_nil] at hsort
    rw [pushRuns, foldl_cons, foldl_nil, push, PushState.handleBinlogPush, hsort]
    rfl
  rw [hrun]
  refine ⟨rfl, fun h => ?_⟩
  have hcount := h.once seventhDigit mem_cons_self 999999 ⟨by decide, by decide⟩
  cases hcount

end WalG.MySQL
