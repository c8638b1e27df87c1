import WalG.Mark.Catalog

/-! # Permanence is closed under ancestors

In every catalog that pushes and marks can lead to, the increment ancestors of a permanent backup
are permanent.
-/
namespace WalG.Mark
open Foundation Wal Delete List

section Relations

variable (backups : List BackupEntry)

/-- `x` was made as an increment from `p`. -/
def IncrementOf (p x : Text) : Prop :=
  ∃ b ∈ backups, b.name = x ∧ b.increment.map IncrementDetails.incrementFrom = some p

def Permanent (x : Text) : Prop := ∃ b ∈ backups, b.name = x ∧ b.isPermanent = true

end Relations

/-- Newest first: names are new, and bases are there before. -/
inductive Ordered : List BackupEntry → Prop where
  | nil : Ordered []
  | cons {b backups} (hnew : ∀ a ∈ backups, a.name ≠ b.name)
    (hbase : ∀ details, b.increment = some details → ∃ a ∈ backups, a.name = details.incrementFrom)
    (hrest : Ordered backups) : Ordered (b :: backups)

structure Sound (backups : List BackupEntry) : Prop where
  ordered : Ordered backups
  closed : AncestorClosed (IncrementOf backups) (Permanent backups)

variable {backups : List BackupEntry} {b : BackupEntry} {x p : Text}

section Catalog

theorem Ordered.fetch_eq (h : Ordered backups) (hb : b ∈ backups) : fetch backups b.name = some b := by
  induction h with
  | nil => cases hb
  | @cons a backups hnew _ _ ih =>
    rw [fetch, find?_cons]
    rcases mem_cons.mp hb with rfl | hb
    · rw [decide_eq_true rfl]
    · rw [decide_eq_false (hnew b hb).symm]
      exact ih hb

theorem mem_of_fetch (h : fetch backups x = some b) : b ∈ backups ∧ b.name = x :=
  ⟨mem_of_find?_eq_some h, of_decide_eq_true (find?_some (p := fun b : BackupEntry => decide (b.name = x)) h)⟩

theorem Ordered.unique (h : Ordered backups) {a : BackupEntry} (ha : a ∈ backups) (hb : b ∈ backups)
    (heq : a.name = b.name) : a = b := by
  have hfetch := h.fetch_eq ha
  rw [heq, h.fetch_eq hb] at hfetch
  exact (Option.some.inj hfetch).symm

theorem Ordered.not_incrementOf_self (h : Ordered backups) : ¬ IncrementOf backups x x := by
  induction h with
  | nil => rintro ⟨b, hb, -⟩; cases hb
  | @cons a backups hnew hbase _ ih =>
    rintro ⟨b, hb, rfl, hfrom⟩
    rcases mem_cons.mp hb with rfl | hb
    · obtain ⟨details, hdetails, hname⟩ := Option.map_eq_some_iff.mp hfrom
      obtain ⟨c, hc, hcname⟩ := hbase details hdetails
      exact hnew c hc (hcname.trans hname)
    · exact ih ⟨b, hb, rfl, hfrom⟩

end Catalog

section SetIsPermanent

variable {value : Bool} {n : Text}

theorem names_setIsPermanent :
    (setIsPermanent value backups n).map BackupEntry.name = backups.map BackupEntry.name := by
  rw [setIsPermanent, map_map]
  apply map_congr_left
  intro b _
  rw [Function.comp_apply, BackupEntry.write_name]

theorem incrementOf_setIsPermanent : IncrementOf (setIsPermanent value backups n) p x ↔ IncrementOf backups p x := by
  simp only [IncrementOf, setIsPermanent, mem_map, exists_exists_and_eq_and, BackupEntry.write_name,
    BackupEntry.write_increment]

theorem Ordered.setIsPermanent (h : Ordered backups) : Ordered (setIsPermanent value backups n) := by
  induction h with
  | nil => exact .nil
  | @cons b backups hnew hbase _ ih =>
    refine .cons (fun c hc => ?_) (fun details hdetails => ?_) ih
    · obtain ⟨a, ha, rfl⟩ := mem_map.mp hc
      rw [BackupEntry.write_name, BackupEntry.write_name]
      exact hnew a ha
    · rw [BackupEntry.write_increment] at hdetails
      obtain ⟨a, ha, haname⟩ := hbase details hdetails
      exact ⟨a.write value n, mem_map_of_mem ha, (a.write_name value n).trans haname⟩

theorem permanent_setIsPermanent_true (hn : n ∈ backups.map BackupEntry.name) :
    Permanent (setIsPermanent true backups n) x ↔ Permanent backups x ∨ x = n := by
  constructor
  · rintro ⟨c, hc, rfl, hp⟩
    obtain ⟨b, hb, rfl⟩ := mem_map.mp hc
    rw [BackupEntry.write] at hp ⊢
    split_ifs at hp ⊢ with hname
    · exact .inr hname
    · exact .inl ⟨b, hb, rfl, hp⟩
  · have hwrite : ∀ b : BackupEntry, b.isPermanent = true ∨ b.name = n →
        (b.write true n).isPermanent = true := by
      intro b hb
      rw [BackupEntry.write]
      split_ifs with hname
      · rfl
      · exact hb.resolve_right hname
    rintro (⟨b, hb, rfl, hp⟩ | rfl)
    · exact ⟨b.write true n, mem_map_of_mem hb, b.write_name true n, hwrite b (.inl hp)⟩
    · obtain ⟨b, hb, hname⟩ := mem_map.mp hn
      exact ⟨b.write true x, mem_map_of_mem hb, (b.write_name true x).trans hname, hwrite b (.inr hname)⟩

theorem permanent_setIsPermanent_false :
    Permanent (setIsPermanent false backups n) x ↔ Permanent backups x ∧ x ≠ n := by
  constructor
  · rintro ⟨c, hc, rfl, hp⟩
    obtain ⟨b, hb, rfl⟩ := mem_map.mp hc
    rw [BackupEntry.write] at hp ⊢
    split_ifs at hp ⊢ with hname
    exact ⟨⟨b, hb, rfl, hp⟩, hname⟩
  · rintro ⟨⟨b, hb, rfl, hp⟩, hne⟩
    refine ⟨b.write false n, mem_map_of_mem hb, b.write_name false n, ?_⟩
    rwa [BackupEntry.write, if_neg hne]

end SetIsPermanent

section Marks

theorem Sound.set_true (h : Sound backups) {n : Text} (hn : n ∈ backups.map BackupEntry.name)
    (hbase : ∀ p, IncrementOf backups p n → Permanent backups p) : Sound (setIsPermanent true backups n) := by
  refine ⟨h.ordered.setIsPermanent, fun p x hstep hx => ?_⟩
  rw [permanent_setIsPermanent_true hn] at hx ⊢
  exact h.closed.mark hbase p x (incrementOf_setIsPermanent.mp hstep) hx

theorem Sound.foldl_true (h : Sound backups) {names : List Text}
    (hnames : ∀ n ∈ names, n ∈ backups.map BackupEntry.name)
    (hfirst : AncestorsFirst (IncrementOf backups) (Permanent backups) names) :
    Sound (names.foldl (setIsPermanent true) backups) ∧
      (names.foldl (setIsPermanent true) backups).map BackupEntry.name = backups.map BackupEntry.name ∧
      ∀ x, Permanent (names.foldl (setIsPermanent true) backups) x ↔ Permanent backups x ∨ x ∈ names := by
  induction names generalizing backups with
  | nil => exact ⟨h, rfl, fun x => by simp⟩
  | cons n names ih =>
    rw [forall_mem_cons] at hnames
    have hset := h.set_true hnames.1 hfirst.1
    have hrelation : IncrementOf (setIsPermanent true backups n) = IncrementOf backups := by
      funext p x
      exact propext incrementOf_setIsPermanent
    have hpermanent : Permanent (setIsPermanent true backups n) = fun y => Permanent backups y ∨ y = n := by
      funext y
      exact propext (permanent_setIsPermanent_true hnames.1)
    obtain ⟨hsound, hnames', hiff⟩ := ih hset (by rw [names_setIsPermanent]; exact hnames.2)
      (by rw [hrelation, hpermanent]; exact hfirst.2)
    refine ⟨hsound, hnames'.trans names_setIsPermanent, fun x => ?_⟩
    rw [foldl_cons, hiff, permanent_setIsPermanent_true hnames.1, mem_cons, or_assoc]

/-- The names of impermanent backups that complete a chain, lower ones first. -/
structure ChainMarks (backups : List BackupEntry) (x : Text) (names : List Text) : Prop where
  known : ∀ n ∈ names, n ∈ backups.map BackupEntry.name
  first : AncestorsFirst (IncrementOf backups) (Permanent backups) names
  covers : Permanent backups x ∨ x ∈ names

theorem ChainMarks.increment (hb : b ∈ backups) {names : List Text}
    (hbase : ∀ p, IncrementOf backups p b.name → Permanent backups p ∨ p ∈ names)
    (hknown : ∀ n ∈ names, n ∈ backups.map BackupEntry.name)
    (hfirst : AncestorsFirst (IncrementOf backups) (Permanent backups) names) :
    ChainMarks backups b.name (names ++ if b.isPermanent then [] else [b.name]) := by
  split_ifs with hp
  · rw [append_nil]
    exact ⟨hknown, hfirst, .inl ⟨b, hb, rfl, hp⟩⟩
  · refine ⟨fun n hn => ?_, hfirst.concat hbase, .inr (mem_append_right _ (mem_singleton_self _))⟩
    rcases mem_append.mp hn with hn | hn
    · exact hknown n hn
    · rw [mem_singleton.mp hn]
      exact mem_map_of_mem hb

theorem IncrementOf.eq_base (h : Ordered backups) (hb : b ∈ backups) (hp : IncrementOf backups p b.name) :
    b.increment.map IncrementDetails.incrementFrom = some p := by
  obtain ⟨c, hc, hname, hfrom⟩ := hp
  rwa [h.unique hc hb hname] at hfrom

/-- The search goes down the chain and ends, since bases are older. -/
theorem getBackupsToMarkPermanent_eq (h : Ordered backups) {older : List BackupEntry}
    (holder : older <:+ backups) (ho : Ordered older) (hb : b ∈ older) {rounds : ℕ} (hrounds : older.length ≤ rounds) :
    ∃ names, getBackupsToMarkPermanent backups rounds b.name = some (.ok names) ∧
      ChainMarks backups b.name names := by
  induction ho generalizing b rounds with
  | nil => cases hb
  | @cons a older hnew hbase _ ih =>
    have hsuffix : older <:+ backups := (suffix_cons a older).trans holder
    rw [length_cons] at hrounds
    rcases mem_cons.mp hb with rfl | hb
    · obtain ⟨rounds, rfl⟩ : ∃ k, rounds = k + 1 := ⟨rounds - 1, by omega⟩
      have hmem : b ∈ backups := holder.subset mem_cons_self
      rw [getBackupsToMarkPermanent, h.fetch_eq hmem]
      cases hi : b.increment with
      | none =>
        refine ⟨[] ++ if b.isPermanent then [] else [b.name], by simp [hi], ?_⟩
        refine ChainMarks.increment hmem (fun p hp => ?_) (fun n hn => absurd hn not_mem_nil) trivial
        have hfrom := hp.eq_base h hmem
        rw [hi] at hfrom
        cases hfrom
      | some details =>
        obtain ⟨c, hc, hname⟩ := hbase details hi
        obtain ⟨names, hnames, hmarks⟩ := @ih c hsuffix hc rounds (by omega)
        rw [hname] at hnames hmarks
        refine ⟨names ++ if b.isPermanent then [] else [b.name], by simp [hi, hnames, Except.map], ?_⟩
        refine ChainMarks.increment hmem (fun p hp => ?_) hmarks.known hmarks.first
        have hfrom := hp.eq_base h hmem
        rw [hi, Option.map_some, Option.some.injEq] at hfrom
        rw [← hfrom]
        exact hmarks.covers
    · exact ih hsuffix hb (by omega)

theorem ChainMarks.performed {names : List Text} (h : ChainMarks backups x names) (cut : Option ℕ) :
    (∀ n ∈ performed cut names, n ∈ backups.map BackupEntry.name) ∧
      AncestorsFirst (IncrementOf backups) (Permanent backups) (performed cut names) := by
  cases cut with
  | none => exact ⟨h.known, h.first⟩
  | some writes => exact ⟨fun n hn => h.known n (mem_of_mem_take hn), h.first.take writes⟩

theorem Sound.markBackup_true (h : Sound backups) {marked : List BackupEntry} {cut : Option ℕ}
    (hmark : markBackup backups x true cut = some (.ok marked)) :
    Sound marked ∧ marked.map BackupEntry.name = backups.map BackupEntry.name ∧
      (cut = none → Permanent marked x) := by
  rw [markBackup, getBackupsToMark, if_pos rfl] at hmark
  cases hfetch : fetch backups x with
  | none =>
    cases hlen : backups.length with
    | zero => simp [hlen, getBackupsToMarkPermanent] at hmark
    | succ rounds => simp [hlen, getBackupsToMarkPermanent, hfetch, Except.map] at hmark
  | some b =>
    obtain ⟨hb, rfl⟩ := mem_of_fetch hfetch
    obtain ⟨names, hnames, hmarks⟩ :=
      getBackupsToMarkPermanent_eq h.ordered (suffix_refl backups) h.ordered hb le_rfl
    rw [hnames] at hmark
    cases hmark
    obtain ⟨hknown, hfirst⟩ := hmarks.performed cut
    obtain ⟨hsound, hsame, hiff⟩ := h.foldl_true hknown hfirst
    refine ⟨hsound, hsame, ?_⟩
    rintro rfl
    exact (hiff b.name).mpr hmarks.covers

theorem backupHasPermanentInFuture_iff (h : Ordered backups) :
    backupHasPermanentInFuture (getGraphFromBaseToIncrement backups) x
        ((getPermanentBackups backups).filter (· ≠ x)) = true ↔
      ∃ c, IncrementOf backups x c ∧ Permanent backups c := by
  rw [backupHasPermanentInFuture, any_eq_true]
  constructor
  · rintro ⟨c, hc, hp⟩
    obtain ⟨b, hb, rfl⟩ := mem_map.mp hc
    obtain ⟨hb, hfrom⟩ := mem_filter.mp hb
    rw [decide_eq_true_eq] at hp hfrom
    obtain ⟨a, ha, hname⟩ := mem_map.mp (mem_filter.mp hp).1
    exact ⟨b.name, ⟨b, hb, rfl, hfrom⟩, ⟨a, (mem_filter.mp ha).1, hname, (mem_filter.mp ha).2⟩⟩
  · rintro ⟨c, hstep, a, ha, hname, hp⟩
    have hne : c ≠ x := fun heq => h.not_incrementOf_self (heq ▸ hstep)
    obtain ⟨b, hb, rfl, hfrom⟩ := hstep
    refine ⟨b.name, mem_map_of_mem (mem_filter.mpr ⟨hb, decide_eq_true hfrom⟩), ?_⟩
    rw [decide_eq_true_eq, mem_filter]
    exact ⟨hname ▸ mem_map_of_mem (mem_filter.mpr ⟨ha, hp⟩), decide_eq_true hne⟩

/-- Marking as impermanent is refused for the direct increments. -/
theorem getBackupsToMarkImpermanent_eq (h : Ordered backups) (hb : b ∈ backups) :
    (∃ c, IncrementOf backups b.name c ∧ Permanent backups c) ∧
        getBackupsToMarkImpermanent backups b.name = .error .backupHasPermanentBackupInFuture ∨
      (¬ ∃ c, IncrementOf backups b.name c ∧ Permanent backups c) ∧
        getBackupsToMarkImpermanent backups b.name = .ok (if b.isPermanent then [b.name] else []) := by
  rw [← backupHasPermanentInFuture_iff h, getBackupsToMarkImpermanent, h.fetch_eq hb]
  dsimp only
  split_ifs with hfuture hp
  · exact .inl ⟨hfuture, rfl⟩
  · exact .inr ⟨hfuture, rfl⟩
  · exact .inr ⟨hfuture, rfl⟩

theorem Sound.set_false (h : Sound backups) {n : Text}
    (hfuture : ¬ ∃ c, IncrementOf backups n c ∧ Permanent backups c) : Sound (setIsPermanent false backups n) := by
  refine ⟨h.ordered.setIsPermanent, fun p y hstep hy => ?_⟩
  rw [permanent_setIsPermanent_false] at hy ⊢
  exact h.closed.unmark (fun c hc hp => hfuture ⟨c, hc, hp⟩) p y (incrementOf_setIsPermanent.mp hstep) hy

theorem performed_of_length_le_one {cut : Option ℕ} {names : List Text} (h : names.length ≤ 1) :
    performed cut names = [] ∨ performed cut names = names := by
  cases cut with
  | none => exact .inr rfl
  | some writes =>
    rw [performed]
    cases writes with
    | zero => exact .inl rfl
    | succ writes => exact .inr (take_of_length_le (by omega))

theorem Sound.markBackup_false (h : Sound backups) {marked : List BackupEntry} {cut : Option ℕ}
    (hmark : markBackup backups x false cut = some (.ok marked)) : Sound marked := by
  rw [markBackup, getBackupsToMark, if_neg Bool.false_ne_true, Option.map_some, Option.some.injEq] at hmark
  cases hfetch : fetch backups x with
  | none =>
    rw [getBackupsToMarkImpermanent, hfetch] at hmark
    cases hmark
  | some b =>
    obtain ⟨hb, rfl⟩ := mem_of_fetch hfetch
    rcases getBackupsToMarkImpermanent_eq h.ordered hb with ⟨-, heq⟩ | ⟨hfuture, heq⟩
    · rw [heq] at hmark
      cases hmark
    · rw [heq] at hmark
      have hlen : (if b.isPermanent then [b.name] else []).length ≤ 1 := by split_ifs <;> simp
      cases hmark
      dsimp only
      rcases @performed_of_length_le_one cut _ hlen with hnone | hall
      · rw [hnone]
        exact h
      · rw [hall]
        split_ifs
        · exact h.set_false hfuture
        · exact h

end Marks

section Operations

variable {marked : List BackupEntry} {args : PushArguments} {base : Option (BackupEntry × ℕ)}

theorem mem_of_configureDeltaBackup {count : ℕ}
    (h : configureDeltaBackup backups args = .ok (some (b, count))) : b ∈ backups := by
  by_cases hmax : args.maxDeltas = 0
  · rw [configureDeltaBackup, if_pos hmax] at h
    cases h
  rw [configureDeltaBackup, if_neg hmax] at h
  cases hbase : args.deltaBase with
  | none => simp [hbase] at h
  | some previousBackupName =>
    cases hprevious : fetch backups previousBackupName with
    | none => simp [hbase, hprevious] at h
    | some previousBackup =>
      simp only [hbase, hprevious] at h
      split_ifs at h
      · cases h
      · cases h
      · cases h
      · split at h
        · cases h
        · next hfull =>
          split_ifs at h
          rw [← (Prod.mk.inj (Option.some.inj (Except.ok.inj h))).1]
          exact (mem_of_fetch hfull).1
      · rw [← (Prod.mk.inj (Option.some.inj (Except.ok.inj h))).1]
        exact (mem_of_fetch hprevious).1

theorem mem_of_pushBase {count : ℕ} (h : pushBase backups args = .ok (some (b, count))) : b ∈ backups := by
  rw [pushBase] at h
  split_ifs at h
  · cases h
  · cases hbase : configureDeltaBackup backups args with
    | error e =>
      rw [hbase] at h
      cases h
    | ok base =>
      rw [hbase] at h
      simp only [bind, Except.bind] at h
      cases base with
      | none => cases h
      | some base =>
        obtain ⟨previousBackup, incrementCount⟩ := base
        dsimp only at h
        split_ifs at h
        rw [Option.some.inj (Except.ok.inj h)] at hbase
        exact mem_of_configureDeltaBackup hbase

theorem Sound.markBackups (h : Sound backups) {cut : Option ℕ}
    (hmark : markBackups backups args base cut = some (.ok marked)) :
    Sound marked ∧ marked.map BackupEntry.name = backups.map BackupEntry.name ∧
      (cut = none → args.isPermanent = true → ∀ b ∈ base, Permanent marked b.1.name) := by
  have hsame : some (Except.ok backups) = some (Except.ok (ε := MarkError) marked) → marked = backups :=
    fun heq => (Except.ok.inj (Option.some.inj heq)).symm
  cases base with
  | none =>
    obtain rfl := hsame hmark
    exact ⟨h, rfl, fun _ _ b hb => nomatch hb⟩
  | some base =>
    rw [Mark.markBackups] at hmark
    split_ifs at hmark with hp
    · obtain ⟨hsound, hnames, hpermanent⟩ := h.markBackup_true hmark
      refine ⟨hsound, hnames, fun hcut _ b hb => ?_⟩
      cases hb
      exact hpermanent hcut
    · obtain rfl := hsame hmark
      exact ⟨h, rfl, fun _ hp' => absurd hp' hp⟩

theorem newBackupEntry_increment : (newBackupEntry args base).increment.map IncrementDetails.incrementFrom =
    base.map fun b => b.1.name := by
  cases base <;> rfl

theorem newBackupEntry_isPermanent : (newBackupEntry args base).isPermanent = args.isPermanent := by
  cases base <;> rfl

theorem Sound.uploadMetadata (h : Sound marked) {e : BackupEntry} (hnew : ∀ a ∈ marked, a.name ≠ e.name)
    (hbase : ∀ p, e.increment.map IncrementDetails.incrementFrom = some p →
      (∃ a ∈ marked, a.name = p) ∧ (e.isPermanent = true → Permanent marked p)) :
    Sound (uploadMetadata marked e) := by
  have hfilter : marked.filter (·.name ≠ e.name) = marked :=
    filter_eq_self.mpr fun a ha => decide_eq_true (hnew a ha)
  rw [Mark.uploadMetadata, hfilter]
  refine ⟨.cons hnew (fun details hdetails => ?_) h.ordered, ?_⟩
  · exact (hbase details.incrementFrom (by rw [hdetails, Option.map_some])).1
  · rintro p x ⟨b, hb, rfl, hfrom⟩ ⟨c, hc, hname, hp⟩
    have hpermanent : Permanent marked p := by
      rcases mem_cons.mp hb with rfl | hold
      · rcases mem_cons.mp hc with rfl | hold
        · exact (hbase p hfrom).2 hp
        · exact absurd hname (hnew c hold)
      · rcases mem_cons.mp hc with rfl | hold'
        · exact absurd hname.symm (hnew b hold)
        · exact h.closed p b.name ⟨b, hold, rfl, hfrom⟩ ⟨c, hold', hname, hp⟩
    obtain ⟨a, ha, haname, hap⟩ := hpermanent
    exact ⟨a, mem_cons_of_mem _ ha, haname, hap⟩

theorem Sound.step (h : Sound backups) (hstep : Step backups marked) : Sound marked := by
  cases hstep with
  | @push marked args base hbase hmark hnew =>
    obtain ⟨hsound, hnames, hpermanent⟩ := h.markBackups hmark
    have hmem : ∀ p : Text, p ∈ marked.map BackupEntry.name ↔ p ∈ backups.map BackupEntry.name := by
      intro p
      rw [hnames]
    refine hsound.uploadMetadata (fun a ha heq => ?_) fun p hp => ?_
    · obtain ⟨b, hb, hname⟩ := mem_map.mp ((hmem a.name).mp (mem_map_of_mem ha))
      exact hnew b hb (hname.trans heq)
    · rw [newBackupEntry_increment] at hp
      obtain ⟨⟨previousBackup, count⟩, rfl, rfl⟩ := Option.map_eq_some_iff.mp hp
      have hprevious := (hmem previousBackup.name).mpr (mem_map_of_mem (mem_of_pushBase hbase))
      rw [newBackupEntry_isPermanent]
      exact ⟨mem_map.mp hprevious, fun hp => hpermanent rfl hp _ rfl⟩
  | pushCut hbase hmark => exact (h.markBackups hmark).1
  | @mark _ _ toPermanent _ hmark =>
    cases toPermanent with
    | true => exact (h.markBackup_true hmark).1
    | false => exact h.markBackup_false hmark

end Operations

end WalG.Mark
