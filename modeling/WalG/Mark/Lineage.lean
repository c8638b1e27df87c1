import WalG.Mark.Closure

/-! # The full backup of a chain

A push copies the name of the full backup from the sentinel of its base.
-/
namespace WalG.Mark
open Foundation Wal Delete List Function

/-- The name of the full backup, as the sentinel tells it. -/
def BackupEntry.rootName (b : BackupEntry) : Text :=
  match b.increment with
  | some details => details.incrementFullName
  | none => b.name

/-- Newest first: names are new, and the name of the full backup is that of the base. -/
inductive Lineage : List BackupEntry → Prop where
  | nil : Lineage []
  | cons {b backups} (hname : b.name ≠ []) (hnew : ∀ a ∈ backups, a.name ≠ b.name)
    (hbase : ∀ details, b.increment = some details →
      ∃ a ∈ backups, a.name = details.incrementFrom ∧ a.rootName = details.incrementFullName)
    (hrest : Lineage backups) : Lineage (b :: backups)

variable {backups marked : List BackupEntry} {args : PushArguments} {base : Option (BackupEntry × ℕ)}

/-- Marks change neither names nor increments. -/
def KeepsLinks (f : BackupEntry → BackupEntry) : Prop := ∀ b, (f b).name = b.name ∧ (f b).increment = b.increment

theorem KeepsLinks.rootName {f : BackupEntry → BackupEntry} (hf : KeepsLinks f) (b : BackupEntry) :
    (f b).rootName = b.rootName := by
  rw [BackupEntry.rootName, BackupEntry.rootName, (hf b).1, (hf b).2]

theorem Lineage.map (h : Lineage backups) {f : BackupEntry → BackupEntry} (hf : KeepsLinks f) :
    Lineage (backups.map f) := by
  induction h with
  | nil => exact .nil
  | @cons b backups hname hnew hbase _ ih =>
    refine .cons ?_ (fun c hc => ?_) (fun details hdetails => ?_) ih
    · rw [(hf b).1]
      exact hname
    · obtain ⟨a, ha, rfl⟩ := mem_map.mp hc
      rw [(hf a).1, (hf b).1]
      exact hnew a ha
    · rw [(hf b).2] at hdetails
      obtain ⟨a, ha, haname, haroot⟩ := hbase details hdetails
      exact ⟨f a, mem_map_of_mem ha, (hf a).1.trans haname, (hf.rootName a).trans haroot⟩

theorem foldl_setIsPermanent (value : Bool) (names : List Text) (backups : List BackupEntry) :
    ∃ f, KeepsLinks f ∧ names.foldl (setIsPermanent value) backups = backups.map f := by
  induction names generalizing backups with
  | nil => exact ⟨id, fun _ => ⟨rfl, rfl⟩, (map_id backups).symm⟩
  | cons n names ih =>
    obtain ⟨f, hf, heq⟩ := ih (setIsPermanent value backups n)
    refine ⟨f ∘ BackupEntry.write value n, fun b => ?_, ?_⟩
    · rw [comp_apply, (hf _).1, (hf _).2, BackupEntry.write_name, BackupEntry.write_increment]
      exact ⟨rfl, rfl⟩
    · rw [foldl_cons, heq, setIsPermanent, map_map]

theorem markBackup_keepsLinks {backupName : Text} {toPermanent : Bool} {cut : Option ℕ}
    (h : markBackup backups backupName toPermanent cut = some (.ok marked)) :
    ∃ f, KeepsLinks f ∧ marked = backups.map f := by
  rw [markBackup] at h
  obtain ⟨backupsToMark, -, h⟩ := Option.map_eq_some_iff.mp h
  cases backupsToMark with
  | error e => cases h
  | ok names =>
    obtain ⟨f, hf, heq⟩ := foldl_setIsPermanent toPermanent (performed cut names) backups
    exact ⟨f, hf, (Except.ok.inj h).symm.trans heq⟩

theorem markBackups_keepsLinks {cut : Option ℕ} (h : markBackups backups args base cut = some (.ok marked)) :
    ∃ f, KeepsLinks f ∧ marked = backups.map f := by
  have hsame : some (Except.ok backups) = some (Except.ok (ε := MarkError) marked) →
      ∃ f, KeepsLinks f ∧ marked = backups.map f := fun heq =>
    ⟨id, fun _ => ⟨rfl, rfl⟩, (Except.ok.inj (Option.some.inj heq)).symm.trans (map_id backups).symm⟩
  cases base with
  | none => exact hsame h
  | some base =>
    rw [markBackups] at h
    split_ifs at h
    · exact markBackup_keepsLinks h
    · exact hsame h

theorem newBackupEntry_name_ne_nil (args : PushArguments) (base : Option (BackupEntry × ℕ)) :
    (newBackupEntry args base).name ≠ [] := by
  cases base with
  | none => exact append_ne_nil_of_left_ne_nil (by decide) _
  | some base =>
    refine append_ne_nil_of_left_ne_nil (append_ne_nil_of_left_ne_nil ?_ _) _
    decide

theorem Lineage.push (h : Lineage backups) (hbase : pushBase backups args = .ok base)
    (hmark : markBackups backups args base none = some (.ok marked))
    (hnew : ∀ b ∈ backups, b.name ≠ (newBackupEntry args base).name) :
    Lineage (uploadMetadata marked (newBackupEntry args base)) := by
  obtain ⟨f, hf, rfl⟩ := markBackups_keepsLinks hmark
  have hnew' : ∀ a ∈ backups.map f, a.name ≠ (newBackupEntry args base).name := by
    intro c hc
    obtain ⟨a, ha, rfl⟩ := mem_map.mp hc
    rw [(hf a).1]
    exact hnew a ha
  rw [uploadMetadata, filter_eq_self.mpr fun a ha => decide_eq_true (hnew' a ha)]
  refine .cons (newBackupEntry_name_ne_nil args base) hnew' (fun details hdetails => ?_) (h.map hf)
  cases base with
  | none => cases hdetails
  | some base =>
    obtain ⟨previousBackup, incrementCount⟩ := base
    cases hdetails
    refine ⟨f previousBackup, mem_map_of_mem (mem_of_pushBase hbase), (hf previousBackup).1, ?_⟩
    exact hf.rootName previousBackup

theorem Lineage.step (h : Lineage backups) {after : List BackupEntry} (hstep : Step backups after) :
    Lineage after := by
  cases hstep with
  | push hbase hmark hnew => exact h.push hbase hmark hnew
  | pushCut _ hmark =>
    obtain ⟨f, hf, rfl⟩ := markBackups_keepsLinks hmark
    exact h.map hf
  | mark hmark =>
    obtain ⟨f, hf, rfl⟩ := markBackup_keepsLinks hmark
    exact h.map hf

theorem Reachable.lineage (h : Reachable backups) : Lineage backups := by
  induction h with
  | refl => exact .nil
  | tail _ hstep ih => exact ih.step hstep

section Chain

variable {b : BackupEntry}

theorem Lineage.names_nodup (h : Lineage backups) : (backups.map BackupEntry.name).Nodup := by
  induction h with
  | nil => exact nodup_nil
  | @cons b backups _ hnew _ _ ih =>
    rw [map_cons, nodup_cons]
    refine ⟨fun hmem => ?_, ih⟩
    obtain ⟨a, ha, hname⟩ := mem_map.mp hmem
    exact hnew a ha hname

theorem Lineage.name_ne_nil (h : Lineage backups) (hb : b ∈ backups) : b.name ≠ [] := by
  induction h with
  | nil => cases hb
  | cons hname _ _ _ ih =>
    rcases mem_cons.mp hb with rfl | hb
    · exact hname
    · exact ih hb

theorem Lineage.exists_base (h : Lineage backups) (hb : b ∈ backups) {details : IncrementDetails}
    (hdetails : b.increment = some details) :
    ∃ a ∈ backups, a.name = details.incrementFrom ∧ a.rootName = details.incrementFullName := by
  induction h with
  | nil => cases hb
  | cons _ _ hbase _ ih =>
    rcases mem_cons.mp hb with rfl | hb
    · obtain ⟨a, ha, hname⟩ := hbase details hdetails
      exact ⟨a, mem_cons_of_mem _ ha, hname⟩
    · obtain ⟨a, ha, hname⟩ := ih hb
      exact ⟨a, mem_cons_of_mem _ ha, hname⟩

/-- The names can be counted so that bases come before their increments. -/
theorem Lineage.exists_rank (h : Lineage backups) : ∃ rank : Text → ℕ, ∀ b ∈ backups, ∀ details,
    b.increment = some details → rank details.incrementFrom < rank b.name := by
  induction h with
  | nil => exact ⟨fun _ => 0, by simp⟩
  | @cons b backups _ hnew hbase hrest ih =>
    obtain ⟨rank, hrank⟩ := ih
    have hfrom : ∀ c ∈ b :: backups, ∀ details, c.increment = some details → details.incrementFrom ≠ b.name := by
      intro c hc details hdetails
      obtain ⟨a, ha, hname, -⟩ : ∃ a ∈ backups, a.name = details.incrementFrom ∧
          a.rootName = details.incrementFullName := by
        rcases mem_cons.mp hc with rfl | hc
        · exact hbase details hdetails
        · exact hrest.exists_base hc hdetails
      rw [← hname]
      exact hnew a ha
    refine ⟨update rank b.name
      (1 + (b.increment.map fun details => rank details.incrementFrom).getD 0), fun c hc details hdetails => ?_⟩
    rw [update_of_ne (hfrom c hc details hdetails)]
    rcases mem_cons.mp hc with rfl | hc
    · rw [update_self, hdetails, Option.map_some, Option.getD_some]
      omega
    · rw [update_of_ne (hnew c hc)]
      exact hrank c hc details hdetails

end Chain

end WalG.Mark
