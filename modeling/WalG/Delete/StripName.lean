import WalG.Delete.ObjectNames

/-! # Backup names of objects and permanence

Every object of a backup gives back the backup's name when it is stripped, so the permanence test
finds it by its name relative to the root.
-/
namespace WalG.Delete
open Foundation Wal List

variable {u : Text} {w : WalSize} (n : PgBackupName w)

theorem beforeMark_append (h : '_' ∉ u) (t : Text) :
    beforeMark backupMark (u ++ t) = u ++ beforeMark backupMark t := by
  induction u with
  | nil => rfl
  | cons c u ih =>
    rw [mem_cons, not_or] at h
    have hno : backupMark.isPrefixOf (c :: (u ++ t)) = false := by
      have hmark : backupMark = '_' :: "backup".toList := rfl
      rw [hmark, isPrefixOf_cons_cons, beq_eq_false_iff_ne.mpr h.1, Bool.false_and]
    rw [cons_append, beforeMark, hno, if_neg Bool.false_ne_true, ih h.2, cons_append]

theorem beforeMark_segment (s : WalSegment w) (t : Text) :
    beforeMark backupMark ('_' :: (s.filename ++ t)) =
      '_' :: (s.filename ++ beforeMark backupMark t) := by
  have hno : backupMark.isPrefixOf ('_' :: (s.filename ++ t)) = false := by
    obtain ⟨c, u, hcu⟩ := exists_cons_of_ne_nil
      (ne_nil_of_length_pos (by rw [WalSegment.filename_length]; decide) : s.filename ≠ [])
    have hc : 'b' ≠ c := by
      rintro rfl
      exact notMem_filename s (by decide) (hcu ▸ mem_cons_self)
    have hmark : backupMark = '_' :: 'b' :: "ackup".toList := rfl
    rw [hcu, hmark, cons_append, isPrefixOf_cons_cons, isPrefixOf_cons_cons,
      beq_eq_false_iff_ne.mpr hc, Bool.false_and, Bool.and_false]
  rw [beforeMark, hno, if_neg Bool.false_ne_true, beforeMark_append (notMem_filename s (by decide))]

/-- No part of a backup name is cut off: none of its underscores begins the mark. -/
theorem beforeMark_text (t : Text) : beforeMark backupMark (n.text ++ t) = n.text ++ beforeMark backupMark t := by
  have hsplit : ∀ u : Text, backupNamePrefix ++ u = "base".toList ++ '_' :: u := fun _ => rfl
  have hmark : ∀ u : Text, deltaMark ++ u = '_' :: ("D".toList ++ '_' :: u) := fun _ => rfl
  have hdelta : ∀ u : Text, beforeMark backupMark ('_' :: ("D".toList ++ u)) =
      '_' :: ("D".toList ++ beforeMark backupMark u) := fun u => by
    rw [← beforeMark_append (by decide)]
    rfl
  rw [PgBackupName.text, append_assoc, hsplit, beforeMark_append (by decide), append_assoc,
    beforeMark_segment, hsplit, append_assoc]
  cases n.base with
  | none =>
    rw [nil_append, append_nil, cons_append]
  | some base =>
    dsimp only
    rw [append_assoc, hmark, hdelta, beforeMark_segment, hmark]
    simp only [append_assoc, cons_append]

theorem slash_notMem_text : '/' ∉ n.text := by
  have hdigits : ∀ s : WalSegment w, '/' ∉ s.filename := fun s => notMem_filename s (by decide)
  have hstart : '/' ∉ backupNamePrefix := by decide
  have hmark : '/' ∉ deltaMark := by decide
  rw [PgBackupName.text]
  cases n.base with
  | none => simp [hstart, hdigits]
  | some base => simp [hstart, hdigits, hmark]

theorem rdropWhile_slash_append (h : '/' ∉ u) (t : Text) :
    (u ++ t).rdropWhile (· = '/') = u ++ t.rdropWhile (· = '/') := by
  have hu : u.reverse.dropWhile (fun c => decide (c = '/')) = u.reverse := by
    rw [dropWhile_eq_self_iff]
    intro hlen heq
    rw [decide_eq_true_eq] at heq
    exact h (mem_reverse.mp (heq ▸ getElem_mem hlen))
  rw [rdropWhile, reverse_append, dropWhile_append, hu, rdropWhile]
  split_ifs with hempty
  · rw [List.isEmpty_iff] at hempty
    rw [hempty, reverse_reverse, reverse_nil, append_nil]
  · rw [reverse_append, reverse_reverse]

theorem trimSlashes_append (h : '/' ∉ u) (hne : u ≠ []) (t : Text) :
    trimSlashes (u ++ t) = u ++ t.rdropWhile (· = '/') := by
  have hdrop : (u ++ t).dropWhile (· = '/') = u ++ t := by
    obtain ⟨c, v, rfl⟩ := exists_cons_of_ne_nil hne
    have hc : ¬ c = '/' := fun heq => h (heq ▸ mem_cons_self)
    rw [cons_append, dropWhile_cons_of_neg (by simpa using hc)]
  rw [trimSlashes, hdrop, rdropWhile_slash_append h]

theorem takeWhile_of_notMem (h : '/' ∉ u) : u.takeWhile (· ≠ '/') = u := by
  rw [takeWhile_eq_self_iff]
  exact fun c hc => decide_eq_true fun heq => h (heq ▸ hc)

/-- Of an object in a folder, the name of the folder is stripped. -/
theorem stripLeftmostBackupName_folder (h : '/' ∉ u) (hne : u ≠ []) (t : Text) :
    stripLeftmostBackupName (u ++ '/' :: t) = stripBackupSuffix u := by
  have hnil : (('/' :: t).rdropWhile (· = '/')).takeWhile (· ≠ '/') = [] := by
    obtain ⟨v, hv⟩ := rdropWhile_prefix (· = '/') ('/' :: t)
    cases hdrop : ('/' :: t).rdropWhile (· = '/') with
    | nil => rfl
    | cons c r =>
      rw [hdrop, cons_append, cons.injEq] at hv
      rw [hv.1, takeWhile_cons_of_neg (by simp)]
  have hall : ∀ c ∈ u, decide (c ≠ '/') = true := fun c hc =>
    decide_eq_true fun heq => h (heq ▸ hc)
  rw [stripLeftmostBackupName, trimSlashes_append h hne, takeWhile_append_of_pos hall, hnil, append_nil]

theorem text_ne_nil : n.text ≠ [] :=
  ne_nil_of_length_pos (by rcases n.text_length with h | h <;> omega)

theorem sentinel_trimmed : trimSlashes n.sentinel = n.sentinel ∧ '/' ∉ n.sentinel := by
  have htrim : sentinelSuffix.rdropWhile (· = '/') = sentinelSuffix := by decide +kernel
  have hslash : '/' ∉ sentinelSuffix := by decide +kernel
  constructor
  · rw [PgBackupName.sentinel, trimSlashes_append (slash_notMem_text n) (text_ne_nil n), htrim]
  · rw [PgBackupName.sentinel, mem_append, not_or]
    exact ⟨slash_notMem_text n, hslash⟩

theorem stripBackupSuffix_sentinel : stripBackupSuffix n.sentinel = n.text := by
  have hmark : beforeMark backupMark sentinelSuffix = [] := by decide +kernel
  rw [stripBackupSuffix, PgBackupName.sentinel, beforeMark_text, hmark, append_nil]

/-- The sentinel and the objects in the folder of a backup are stripped to its name. -/
theorem stripLeftmostBackupName_text {rest : Text} (h : PgBackupName.Ends rest) :
    stripLeftmostBackupName (n.text ++ rest) = n.text := by
  rcases h with rfl | ⟨path, rfl⟩
  · obtain ⟨htrim, hslash⟩ := sentinel_trimmed n
    rw [← PgBackupName.sentinel, stripLeftmostBackupName, htrim, takeWhile_of_notMem hslash,
      stripBackupSuffix_sentinel]
  · have hstrip := beforeMark_text n []
    rw [append_nil, beforeMark, append_nil] at hstrip
    rw [stripLeftmostBackupName_folder (slash_notMem_text n) (text_ne_nil n), stripBackupSuffix, hstrip]

theorem stripRightmostBackupName_sentinel : stripRightmostBackupName n.sentinel = n.text := by
  obtain ⟨htrim, hslash⟩ := sentinel_trimmed n
  have hall : n.sentinel.rtakeWhile (· ≠ '/') = n.sentinel := by
    rw [rtakeWhile_eq_self_iff]
    exact fun c hc => decide_eq_true fun heq => hslash (heq ▸ hc)
  rw [stripRightmostBackupName, htrim, hall, stripBackupSuffix_sentinel]

/-- The timeline is read from the first segment of the name. -/
theorem parseTimelineFromBackupName_text : parseTimelineFromBackupName n.text = .ok (some n.start.timeline) := by
  have hlen : ¬ n.text.length < backupNamePrefix.length + 8 := by
    rcases n.text_length with h | h <;> rw [h] <;> decide
  rw [parseTimelineFromBackupName, if_neg (text_ne_nil n), if_neg hlen, PgBackupName.text, drop_left,
    n.start.filename_eq]
  simp only [append_assoc]
  rw [take_left' (hexFixed_length 8 _), parseHex_hexFixed (by decide) n.start.timeline_lt n.start.timeline_lt]

section Permanent

variable (permanentBackups permanentWals : Text → Bool)

theorem isPermanent_baseBackup (t : Text) :
    isPermanent permanentBackups permanentWals (baseBackupPath ++ t) =
      .ok (permanentBackups (stripLeftmostBackupName t)) := by
  have hwal : ¬ (baseBackupPath ++ t).take walPath.length = walPath := by
    rw [show (baseBackupPath ++ t).take walPath.length = "baseback".toList from rfl]
    decide
  have hlen : baseBackupPath.length ≤ (baseBackupPath ++ t).length := (prefix_append _ t).length_le
  have hshort : ¬ (baseBackupPath ++ t).length < walPath.length := not_lt.mpr (le_trans (by decide) hlen)
  rw [isPermanent, if_neg hshort, if_neg hwal, if_neg (not_lt.mpr hlen), if_pos take_left, drop_left]

/-- From the root, every object of a backup is as permanent as the backup. -/
theorem isPermanent_stored {rest : Text} (h : PgBackupName.Ends rest) :
    isPermanent permanentBackups permanentWals (baseBackupPath ++ (n.text ++ rest)) =
      .ok (permanentBackups n.text) := by
  rw [isPermanent_baseBackup, stripLeftmostBackupName_text n h]

/-- From the root, a segment is looked up by its name, under any extension. -/
theorem isPermanent_wal (s : WalSegment w) (extension : Text) :
    isPermanent permanentBackups permanentWals (walPath ++ (s.filename ++ extension)) =
      .ok (permanentWals s.filename) := by
  have hshort : ¬ (walPath ++ (s.filename ++ extension)).length < walPath.length :=
    not_lt.mpr (prefix_append _ _).length_le
  have hshort' : ¬ (walPath ++ (s.filename ++ extension)).length < walPath.length + 24 := by
    rw [length_append, length_append, WalSegment.filename_length]
    omega
  rw [isPermanent, if_neg hshort, if_pos take_left, if_neg hshort', drop_left, take_left' s.filename_length]

theorem stripBackupSuffix_length_le (u : Text) : (stripBackupSuffix u).length ≤ u.length := by
  rw [stripBackupSuffix]
  induction u with
  | nil => exact le_rfl
  | cons c u ih =>
    rw [beforeMark]
    split_ifs
    · exact Nat.zero_le _
    · rw [length_cons, length_cons]
      exact Nat.succ_le_succ ih

theorem stripLeftmostBackupName_length_le (o : Text) : (stripLeftmostBackupName o).length ≤ o.length := by
  calc (stripLeftmostBackupName o).length
      ≤ ((trimSlashes o).takeWhile (· ≠ '/')).length := stripBackupSuffix_length_le _
    _ ≤ (trimSlashes o).length := (List.takeWhile_prefix _).length_le
    _ ≤ (o.dropWhile (· = '/')).length := (List.rdropWhile_prefix _ _).length_le
    _ ≤ o.length := (dropWhile_suffix _).length_le

/-- An object of a backup, by its name in the folder of the backups, is never
permanent: the test looks for the folders of the root. -/
theorem isPermanent_of_strip {n : PgBackupName w} {o : Text} (h : stripLeftmostBackupName o = n.text) :
    isPermanent permanentBackups permanentWals o = .ok false := by
  have htext : 29 ≤ n.text.length := by rcases n.text_length with h | h <;> omega
  have hlen : 29 ≤ o.length := htext.trans (h ▸ stripLeftmostBackupName_length_le o)
  have hno : ∀ u : Text, '/' ∉ u → u ≠ [] → u.length < 29 → ∀ k, o.take k ≠ u ++ ['/'] := by
    intro u hslash hne hshort k htake
    have ho : o = u ++ '/' :: o.drop k := by
      conv_lhs => rw [← take_append_drop k o, htake]
      simp
    rw [ho, stripLeftmostBackupName_folder hslash hne] at h
    have hle := stripBackupSuffix_length_le u
    rw [h] at hle
    omega
  have hwal : ¬ o.take walPath.length = walPath := by
    rw [show walPath = "wal_005".toList ++ ['/'] from by decide +kernel]
    exact hno _ (by decide +kernel) (by decide +kernel) (by decide +kernel) _
  have hbase : ¬ o.take baseBackupPath.length = baseBackupPath := by
    rw [show baseBackupPath = "basebackups_005".toList ++ ['/'] from by decide +kernel]
    exact hno _ (by decide +kernel) (by decide +kernel) (by decide +kernel) _
  have hshort : ¬ o.length < walPath.length := not_lt.mpr (le_trans (by decide) hlen)
  have hshort' : ¬ o.length < baseBackupPath.length := not_lt.mpr (le_trans (by decide) hlen)
  rw [isPermanent, if_neg hshort, if_neg hwal, if_neg hshort', if_neg hbase]

end Permanent

theorem text_injective {m n : PgBackupName w} (h : m.text = n.text) : m = n := by
  obtain ⟨ms, mb⟩ := m
  obtain ⟨ns, nb⟩ := n
  obtain ⟨hstart, hbase⟩ := append_inj (append_cancel_left h)
    (by rw [WalSegment.filename_length, WalSegment.filename_length])
  have hmark : ∀ s : WalSegment w, deltaMark ++ s.filename ≠ [] := fun s => by
    simp [show deltaMark ≠ [] by decide]
  obtain rfl := WalSegment.filename_injective hstart
  cases mb with
  | none =>
    cases nb with
    | none => rfl
    | some s => exact absurd hbase.symm (hmark s)
  | some r =>
    cases nb with
    | none => exact absurd hbase (hmark r)
    | some s => rw [WalSegment.filename_injective (append_cancel_left hbase)]

/-- No sentinel is a prefix of another one, so the search for a prefix finds one backup. -/
theorem sentinel_isPrefix {m n : PgBackupName w} (h : m.sentinel <+: n.sentinel) : m = n := by
  obtain ⟨t, ht⟩ := h
  have hmark : beforeMark backupMark (sentinelSuffix ++ t) = [] := rfl
  apply text_injective
  rw [← stripBackupSuffix_sentinel n, ← ht, stripBackupSuffix, PgBackupName.sentinel, append_assoc,
    beforeMark_text, hmark, append_nil]

end WalG.Delete
