import WalG.Foundation.SliceSort

/-! # The collections of the rating composer

The loop over the files, sorted by rating, starts a new collection where the current one is over
the threshold and where the ratings leave zero.
-/
namespace WalG.Backup
open Foundation List

variable {F H : Type}

structure RatedComposeFileInfo (F : Type) where
  info : F
  updateRating : ℕ
  expectedSize : ℕ

/-- The files of one tarball; their sizes are summed up in 64 bits. -/
structure TarFilesCollection (F : Type) where
  files : List (RatedComposeFileInfo F) := []
  expectedSize : ℕ := 0

structure RatingTarBallComposer (F H : Type) where
  filesToCompose : List (RatedComposeFileInfo F)
  headersToCompose : List H
  tarSizeThreshold : ℕ

def TarFilesCollection.addFile (collection : TarFilesCollection F) (file : RatedComposeFileInfo F) :
    TarFilesCollection F :=
  ⟨collection.files ++ [file], (collection.expectedSize + file.expectedSize) % 2 ^ 64⟩

def sortFiles (sort : SliceSort (RatedComposeFileInfo F)) (files : List (RatedComposeFileInfo F)) :
    List (RatedComposeFileInfo F) :=
  sort.sort (fun a b => a.updateRating < b.updateRating) files

/-- The loop, with the current collection and the rating of the file before. -/
def composeLoop (tarSizeThreshold : ℕ) : TarFilesCollection F → ℕ → List (RatedComposeFileInfo F) →
    List (TarFilesCollection F)
  | current, _, [] => [current]
  | current, prevUpdateRating, file :: files =>
    if tarSizeThreshold < current.expectedSize ∨ prevUpdateRating = 0 ∧ 0 < file.updateRating then
      current :: composeLoop tarSizeThreshold (TarFilesCollection.addFile {} file) file.updateRating files
    else composeLoop tarSizeThreshold (current.addFile file) file.updateRating files

def RatingTarBallComposer.composeFiles (c : RatingTarBallComposer F H) (sort : SliceSort (RatedComposeFileInfo F)) :
    List H × List (TarFilesCollection F) :=
  (c.headersToCompose, composeLoop c.tarSizeThreshold {} 0 (sortFiles sort c.filesToCompose))

def sizes (files : List (RatedComposeFileInfo F)) : ℕ := (files.map (·.expectedSize)).sum

/-- Ratings of zero and other ratings are apart, and the last file alone may lead over the threshold. -/
structure WellComposed (threshold : ℕ) (files : List (RatedComposeFileInfo F)) : Prop where
  ratings : ∀ a ∈ files, ∀ b ∈ files, a.updateRating = 0 → b.updateRating = 0
  sizes : sizes files.dropLast ≤ threshold

variable {threshold prev : ℕ} {current : TarFilesCollection F} {file : RatedComposeFileInfo F}
  {files : List (RatedComposeFileInfo F)}

theorem wellComposed_addFile (hratings : ∀ a ∈ current.files, (a.updateRating = 0 ↔ file.updateRating = 0))
    (hsize : sizes current.files ≤ threshold) : WellComposed threshold (current.addFile file).files := by
  refine ⟨?_, by simpa [TarFilesCollection.addFile] using hsize⟩
  simp only [TarFilesCollection.addFile, forall_mem_append, forall_mem_singleton]
  exact ⟨fun a ha => ⟨fun b hb h => (hratings b hb).mpr ((hratings a ha).mp h), (hratings a ha).mp⟩,
    fun b hb => (hratings b hb).mpr, id⟩

/-- The invariant of the loop: the current collection has its true size, and its ratings are zero if and only if the
one before is. -/
theorem composeLoop_spec (hcurrent : WellComposed threshold current.files)
    (hsize : current.expectedSize = sizes current.files) (hprev : ∀ a ∈ current.files, (a.updateRating = 0 ↔ prev = 0))
    (hsorted : files.Pairwise fun a b => a.updateRating ≤ b.updateRating) (hle : ∀ a ∈ files, prev ≤ a.updateRating)
    (hsum : sizes (current.files ++ files) < 2 ^ 64) :
    (composeLoop threshold current prev files).flatMap (·.files) = current.files ++ files ∧
      ∀ c ∈ composeLoop threshold current prev files, WellComposed threshold c.files := by
  induction files generalizing current prev with
  | nil => simpa [composeLoop] using hcurrent
  | cons file files ih =>
    obtain ⟨hfile, hsorted⟩ := pairwise_cons.mp hsorted
    have hsum' : sizes current.files + (file.expectedSize + sizes files) < 2 ^ 64 := by simpa [sizes] using hsum
    have hnext {current' : TarFilesCollection F} (hsize' : current'.expectedSize = sizes current'.files)
        (hratings : ∀ a ∈ current'.files, (a.updateRating = 0 ↔ file.updateRating = 0))
        (hthreshold : sizes current'.files ≤ threshold) (hle' : sizes current'.files ≤ sizes current.files) :=
      @ih file.updateRating (current'.addFile file) (wellComposed_addFile hratings hthreshold)
        (by simp [TarFilesCollection.addFile, sizes, hsize'] at hsum' hle' ⊢; omega)
        (by simpa [TarFilesCollection.addFile, or_imp, forall_and] using hratings) hsorted hfile
        (by simp [TarFilesCollection.addFile, sizes] at hsum' hle' ⊢; omega)
    rw [composeLoop]
    split_ifs with hsplit
    · obtain ⟨hflat, hgood⟩ := @hnext {} rfl (by simp) (Nat.zero_le _) (Nat.zero_le _)
      rw [flatMap_cons, hflat, forall_mem_cons]
      exact ⟨by simp [TarFilesCollection.addFile], hcurrent, hgood⟩
    · obtain ⟨hthreshold, hzero⟩ := not_or.mp hsplit
      have hiff : prev = 0 ↔ file.updateRating = 0 := by
        have := hle file mem_cons_self
        omega
      obtain ⟨hflat, hgood⟩ := hnext hsize (fun a ha => (hprev a ha).trans hiff) (hsize ▸ not_lt.mp hthreshold) le_rfl
      exact ⟨by simpa [TarFilesCollection.addFile] using hflat, hgood⟩

/-- The collections are made of the sorted files, and each is well composed. -/
theorem composeFiles_spec (c : RatingTarBallComposer F H) (sort : SliceSort (RatedComposeFileInfo F))
    (hsum : sizes c.filesToCompose < 2 ^ 64) :
    ((c.composeFiles sort).2.flatMap (·.files)).Perm c.filesToCompose ∧
      ((c.composeFiles sort).2.flatMap (·.files)).Pairwise (fun a b => a.updateRating ≤ b.updateRating) ∧
      ∀ collection ∈ (c.composeFiles sort).2,
        ((∀ a ∈ collection.files, a.updateRating = 0) ∨ ∀ a ∈ collection.files, 0 < a.updateRating) ∧
        sizes collection.files.dropLast ≤ c.tarSizeThreshold := by
  have hperm : (sortFiles sort c.filesToCompose).Perm c.filesToCompose := sort.perm _ _
  have hsorted : (sortFiles sort c.filesToCompose).Pairwise fun a b => a.updateRating ≤ b.updateRating :=
    sort.sorted_key fun _ _ _ _ => rfl
  have hsizes : sizes (sortFiles sort c.filesToCompose) = sizes c.filesToCompose := (hperm.map _).sum_eq
  obtain ⟨hflat, hgood⟩ := @composeLoop_spec F c.tarSizeThreshold 0 {} _ ⟨by simp, Nat.zero_le _⟩ rfl (by simp) hsorted
    (fun _ _ => Nat.zero_le _) (by simpa [hsizes] using hsum)
  rw [nil_append] at hflat
  refine ⟨hflat ▸ hperm, hflat ▸ hsorted, fun collection hmem => ⟨?_, (hgood collection hmem).sizes⟩⟩
  by_cases hzero : ∃ a ∈ collection.files, a.updateRating = 0
  · obtain ⟨a, ha, hrating⟩ := hzero
    exact .inl fun b hb => (hgood collection hmem).ratings a ha b hb hrating
  · exact .inr fun a ha => Nat.pos_of_ne_zero fun hrating => hzero ⟨a, ha, hrating⟩

/-- A file that is not updated and one that is. -/
def twoRatings : RatingTarBallComposer Unit Unit := ⟨[⟨(), 3, 10⟩, ⟨(), 0, 20⟩], [], 5⟩

theorem composeFiles_twoRatings : sizes twoRatings.filesToCompose < 2 ^ 64 ∧
    ((twoRatings.composeFiles (mergeSlice _)).2.flatMap (·.files)).Perm twoRatings.filesToCompose :=
  ⟨by decide, (composeFiles_spec twoRatings (mergeSlice _) (by decide)).1⟩

end WalG.Backup
