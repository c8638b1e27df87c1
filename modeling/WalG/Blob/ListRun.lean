import WalG.Blob.Server

/-! # What a block list request does to the index

The loop over the entries settles each block it meets: its upload is committed or given up, and from
then on the block does not change.
-/
namespace WalG.Blob
open Foundation List Function

namespace Block

/-- The state in which an entry leaves its block, seen from before the request. -/
def Settles (b₀ b : Block) : Prop :=
  b.uploadedRev = 0 ∧
    ((b.committedRev = b₀.committedRev ∧ b.committedSize = b₀.committedSize ∧
        (b₀.uploadedRev = 0 ∨ b₀.committedRev ≠ 0)) ∨
      (b₀.uploadedRev ≠ 0 ∧ b.committedRev = b₀.uploadedRev ∧ b.committedSize = b₀.uploadedSize))

/-- A discarded revision is none at all or one that was replaced. -/
def Discards (b₀ b : Block) (rev : ℕ) : Prop :=
  rev = 0 ∨ (b₀.uploadedRev ≠ 0 ∧ b.committedRev = b₀.uploadedRev ∧ rev = b₀.committedRev)

variable {b b' b₀ : Block} {id : Text} {mode : BlockMode} {discarded : Option ℕ}

theorem select_settles (h : b.select id mode = .ok (b', discarded)) :
    b.Settles b' ∧ ∀ rev ∈ discarded, b.Discards b' rev := by
  cases mode with
  | committed =>
    simp only [select] at h
    split_ifs at h with hcommitted huploaded
    · cases h
      refine ⟨⟨rfl, .inl ⟨rfl, rfl, .inr hcommitted⟩⟩, ?_⟩
      rintro rev ⟨⟩
      exact .inl rfl
    · cases h
      have hzero : b.uploadedRev = 0 := not_not.mp huploaded
      exact ⟨⟨hzero, .inl ⟨rfl, rfl, .inl hzero⟩⟩, nofun⟩
  | uncommitted =>
    simp only [select] at h
    split_ifs at h with huploaded hcommitted
    · cases h
      refine ⟨⟨rfl, .inr ⟨huploaded, rfl, rfl⟩⟩, ?_⟩
      rintro rev ⟨⟩
      exact .inr ⟨huploaded, rfl, rfl⟩
    · cases h
      exact ⟨⟨rfl, .inr ⟨huploaded, rfl, rfl⟩⟩, nofun⟩
  | latest =>
    simp only [select] at h
    split_ifs at h with huploaded hcommitted
    · cases h
      refine ⟨⟨rfl, .inr ⟨huploaded, rfl, rfl⟩⟩, ?_⟩
      rintro rev ⟨⟩
      exact .inr ⟨huploaded, rfl, rfl⟩
    · cases h
      exact ⟨⟨rfl, .inr ⟨huploaded, rfl, rfl⟩⟩, nofun⟩
    · cases h
      have hzero : b.uploadedRev = 0 := not_not.mp huploaded
      exact ⟨⟨hzero, .inl ⟨rfl, rfl, .inl hzero⟩⟩, nofun⟩

theorem Settles.trans (h : b₀.Settles b) (h' : b.Settles b') :
    b₀.Settles b' ∧ b'.committedSize = b.committedSize ∧ b'.committedRev = b.committedRev := by
  rcases h'.2 with ⟨hrev, hsize, -⟩ | ⟨hne, -⟩
  · exact ⟨⟨h'.1, by rw [hrev, hsize]; exact h.2⟩, hsize, hrev⟩
  · exact absurd h.1 hne

theorem Discards.of_settles (h : b₀.Settles b) {rev : ℕ} (h' : b.Discards b' rev) : rev = 0 := by
  rcases h' with hzero | ⟨hne, -⟩
  · exact hzero
  · exact absurd h.1 hne

end Block

namespace Index

/-- The loop has settled the blocks it has met, and touched no other. -/
structure Settled (icache : Text → Option Block) (run : ListRun) : Prop where
  untouched : ∀ id, id ∉ run.newBlocks → run.icache id = icache id
  settled : ∀ id ∈ run.newBlocks, ∃ b₀ b, icache id = some b₀ ∧ run.icache id = some b ∧ b₀.Settles b
  garbage : ∀ name ∈ run.garbage, ∃ id ∈ run.newBlocks, ∃ b₀ b rev, icache id = some b₀ ∧ run.icache id = some b ∧
    name = objectName id rev ∧ b₀.Discards b rev
  size : run.size = (run.newBlocks.map fun id => (run.icache id).elim 0 Block.committedSize).sum % 2 ^ 64

theorem settled_init (icache : Text → Option Block) : Settled icache ⟨icache, [], [], 0⟩ :=
  ⟨fun _ _ => rfl, nofun, nofun, rfl⟩

variable {icache : Text → Option Block} {run : ListRun} (h : Settled icache run)

include h

theorem Settled.lookup {id : Text} {b : Block} (hb : run.icache id = some b) :
    ∃ b₀, icache id = some b₀ ∧ ((id ∉ run.newBlocks ∧ b = b₀) ∨ (id ∈ run.newBlocks ∧ b₀.Settles b)) := by
  by_cases hmem : id ∈ run.newBlocks
  · obtain ⟨b₀, b', hb₀, hb', hsettles⟩ := h.settled id hmem
    cases hb'.symm.trans hb
    exact ⟨b₀, hb₀, .inr ⟨hmem, hsettles⟩⟩
  · exact ⟨b, (h.untouched id hmem).symm.trans hb, .inl ⟨hmem, rfl⟩⟩

theorem Settled.step {id : Text} {mode : BlockMode} {b b' : Block} {discarded : Option ℕ}
    (hb : run.icache id = some b) (hselect : { b with offset := run.size }.select id mode = .ok (b', discarded)) :
    Settled icache
      { icache := update run.icache id (some b')
        newBlocks := run.newBlocks ++ [id]
        garbage := run.garbage ++ (discarded.map (objectName id)).toList
        size := (run.size + b'.committedSize) % 2 ^ 64 } := by
  obtain ⟨hsettles, hdiscards⟩ := Block.select_settles hselect
  have hsettles : b.Settles b' := hsettles
  obtain ⟨b₀, hb₀, hcase⟩ := h.lookup hb
  -- seen from before the request, and with the size counted so far
  have hnew : b₀.Settles b' ∧ (id ∈ run.newBlocks → b'.committedSize = b.committedSize ∧
      b'.committedRev = b.committedRev) := by
    rcases hcase with ⟨hfresh, rfl⟩ | ⟨-, hold⟩
    · exact ⟨hsettles, fun hmem => absurd hmem hfresh⟩
    · obtain ⟨htrans, hkept⟩ := hold.trans hsettles
      exact ⟨htrans, fun _ => hkept⟩
  have hother : ∀ id' ∈ run.newBlocks, id' ≠ id → update run.icache id (some b') id' = run.icache id' :=
    fun id' _ hne => update_of_ne hne _ _
  refine ⟨fun id' hid' => ?_, fun id' hid' => ?_, fun name hname => ?_, ?_⟩
  · simp only [mem_append, mem_singleton, not_or] at hid'
    dsimp only
    rw [update_of_ne hid'.2]
    exact h.untouched id' hid'.1
  · by_cases hid : id' = id
    · subst hid
      exact ⟨b₀, b', hb₀, update_self .., hnew.1⟩
    · have hmem : id' ∈ run.newBlocks := by simpa [hid] using hid'
      dsimp only
      rw [hother id' hmem hid]
      exact h.settled id' hmem
  · rcases mem_append.mp hname with hold | hold
    · obtain ⟨id', hid', b₁, b₂, rev, hb₁, hb₂, rfl, hrev⟩ := h.garbage name hold
      refine ⟨id', mem_append_left _ hid', b₁, ?_⟩
      by_cases hid : id' = id
      · subst hid
        refine ⟨b', rev, hb₁, update_self .., rfl, ?_⟩
        cases hb₂.symm.trans hb
        rcases hrev with hzero | ⟨hne, hcommitted, hrev⟩
        · exact .inl hzero
        · exact .inr ⟨hne, (hnew.2 hid').2.trans hcommitted, hrev⟩
      · exact ⟨b₂, rev, hb₁, (hother id' hid' hid).trans hb₂, rfl, hrev⟩
    · simp only [Option.mem_toList, Option.map_eq_some_iff] at hold
      obtain ⟨rev, hrev, rfl⟩ := hold
      refine ⟨id, mem_append_right _ (mem_singleton_self id), b₀, b', rev, hb₀, update_self .., rfl, ?_⟩
      rcases hcase with ⟨-, rfl⟩ | ⟨-, hold⟩
      · exact hdiscards rev hrev
      · exact .inl (Block.Discards.of_settles hold (hdiscards rev hrev))
  · have hsum :
        (run.newBlocks.map fun id' => (update run.icache id (some b') id').elim 0 Block.committedSize) =
        run.newBlocks.map fun id' => (run.icache id').elim 0 Block.committedSize := by
      apply map_congr_left
      intro id' hid'
      by_cases hid : id' = id
      · subst hid
        rw [update_self, hb]
        exact (hnew.2 hid').1
      · rw [hother id' hid' hid]
    rw [map_append, sum_append, hsum, h.size]
    simp [Nat.add_mod]

theorem putEntries_ok {entries : List XBlockIn} {run' : ListRun}
    (hrun : putEntries run entries = (none, run')) : Settled icache run' := by
  induction entries generalizing run with
  | nil =>
    obtain rfl := (Prod.mk.inj hrun).2
    exact h
  | cons entry entries ih =>
    rw [putEntries] at hrun
    cases hb : run.icache entry.id with
    | none => rw [hb] at hrun; cases hrun
    | some b =>
      simp only [hb] at hrun
      cases hselect : { b with offset := run.size }.select entry.id entry.mode with
      | error e => rw [hselect] at hrun; cases hrun
      | ok result =>
        rw [hselect] at hrun
        exact ih (h.step hb hselect) hrun

end Index

namespace Block

/-- A block during a request, seen from before it: the same up to its offset, or settled. -/
def Becomes (b₀ b : Block) : Prop :=
  (b.uploadedRev = b₀.uploadedRev ∧ b.uploadedSize = b₀.uploadedSize ∧ b.committedRev = b₀.committedRev ∧
    b.committedSize = b₀.committedSize) ∨ b₀.Settles b

end Block

namespace Index

variable {icache : Text → Option Block} {run : ListRun}

/-- The entry finds what its mode asks for, when the entries with the ids `before` come first. -/
def Available (icache : Text → Option Block) (before : List Text) (entry : XBlockIn) : Prop :=
  ∃ b, icache entry.id = some b ∧
    match entry.mode with
    | .latest => True
    | .uncommitted => b.uploadedRev ≠ 0 ∧ entry.id ∉ before
    | .committed => b.committedRev ≠ 0 ∨ (b.uploadedRev ≠ 0 ∧ entry.id ∈ before)

/-- Every entry of the list finds what it asks for. -/
def Acceptable (icache : Text → Option Block) : List Text → List XBlockIn → Prop
  | _, [] => True
  | before, entry :: entries => Available icache before entry ∧ Acceptable icache (before ++ [entry.id]) entries

def Commits (icache : Text → Option Block) (before : List Text) (entry : XBlockIn) : Prop :=
  entry.mode ≠ .committed ∧ entry.id ∉ before ∧ ∃ b, icache entry.id = some b ∧ b.uploadedRev ≠ 0

/-- No entry commits an upload before one is met that does not find what it asks for. -/
def CommitsNothing (icache : Text → Option Block) : List Text → List XBlockIn → Prop
  | _, [] => True
  | before, entry :: entries =>
    Available icache before entry →
      ¬ Commits icache before entry ∧ CommitsNothing icache (before ++ [entry.id]) entries

/-- Nothing is committed so far. -/
def Uncommitting (icache : Text → Option Block) (run : ListRun) : Prop :=
  ∀ id b₀ b, icache id = some b₀ → run.icache id = some b →
    b.committedRev = b₀.committedRev ∧ b.committedSize = b₀.committedSize

variable (h : Settled icache run)

include h

theorem Settled.becomes (id : Text) :
    (run.icache id = none ∧ icache id = none) ∨
      ∃ b₀ b, icache id = some b₀ ∧ run.icache id = some b ∧ b₀.Becomes b := by
  by_cases hmem : id ∈ run.newBlocks
  · obtain ⟨b₀, b, hb₀, hb, hsettles⟩ := h.settled id hmem
    exact .inr ⟨b₀, b, hb₀, hb, .inr hsettles⟩
  · rw [h.untouched id hmem]
    cases hb : icache id with
    | none => exact .inl ⟨rfl, rfl⟩
    | some b => exact .inr ⟨b, b, rfl, rfl, .inl ⟨rfl, rfl, rfl, rfl⟩⟩

/-- A rejected list has changed no block beyond settling it. -/
theorem putEntries_becomes (entries : List XBlockIn) (id : Text) :
    ((putEntries run entries).2.icache id = none ∧ icache id = none) ∨
      ∃ b₀ b, icache id = some b₀ ∧ (putEntries run entries).2.icache id = some b ∧ b₀.Becomes b := by
  induction entries generalizing run with
  | nil => exact h.becomes id
  | cons entry entries ih =>
    rw [putEntries]
    cases hb : run.icache entry.id with
    | none => exact h.becomes id
    | some b =>
      cases hselect : { b with offset := run.size }.select entry.id entry.mode with
      | error e =>
        simp only [hselect]
        by_cases hid : id = entry.id
        · subst hid
          obtain ⟨b₀, hb₀, hcase⟩ := h.lookup hb
          refine .inr ⟨b₀, _, hb₀, update_self .., ?_⟩
          rcases hcase with ⟨-, rfl⟩ | ⟨-, hsettles⟩
          · exact .inl ⟨rfl, rfl, rfl, rfl⟩
          · exact .inr hsettles
        · rw [update_of_ne hid]
          exact h.becomes id
      | ok result =>
        simp only [hselect]
        exact ih (h.step hb hselect)

theorem Settled.select_ok {entry : XBlockIn} {b : Block}
    (hb : run.icache entry.id = some b) (havailable : Available icache run.newBlocks entry) :
    ∃ result, { b with offset := run.size }.select entry.id entry.mode = .ok result := by
  obtain ⟨b₀, hb₀, hmode⟩ := havailable
  obtain ⟨b₁, hb₁, hcase⟩ := h.lookup hb
  cases hb₁.symm.trans hb₀
  cases hentry : entry.mode with
  | latest =>
    simp only [Block.select]
    split_ifs <;> exact ⟨_, rfl⟩
  | uncommitted =>
    rw [hentry] at hmode
    rcases hcase with ⟨-, rfl⟩ | ⟨hmem, -⟩
    · simp only [Block.select, if_neg hmode.1]
      exact ⟨_, rfl⟩
    · exact absurd hmem hmode.2
  | committed =>
    rw [hentry] at hmode
    have hcommitted : b.committedRev ≠ 0 := by
      rcases hcase with ⟨hfresh, rfl⟩ | ⟨-, -, ⟨hrev, -, hkept⟩ | ⟨hne, hrev, -⟩⟩
      · exact hmode.resolve_right fun hright => hfresh hright.2
      · rw [hrev]
        rcases hmode with hne | ⟨hne, -⟩
        · exact hne
        · exact hkept.resolve_left hne
      · rwa [hrev]
    simp only [Block.select, if_neg hcommitted]
    split_ifs <;> exact ⟨_, rfl⟩

/-- A list whose entries all find what they ask for is accepted. -/
theorem putEntries_acceptable {entries : List XBlockIn}
    (hentries : Acceptable icache run.newBlocks entries) : (putEntries run entries).1 = none := by
  induction entries generalizing run with
  | nil => rfl
  | cons entry entries ih =>
    obtain ⟨havailable, hrest⟩ := hentries
    have hsome : run.icache entry.id ≠ none := by
      obtain ⟨b₀, hb₀, -⟩ := havailable
      intro hnone
      rcases h.becomes entry.id with ⟨-, hnone'⟩ | ⟨-, b, -, hb, -⟩
      · cases hb₀.symm.trans hnone'
      · cases hnone.symm.trans hb
    obtain ⟨b, hb⟩ := Option.ne_none_iff_exists'.mp hsome
    obtain ⟨result, hselect⟩ := h.select_ok hb havailable
    rw [putEntries]
    simp only [hb, hselect]
    exact ih (h.step hb hselect) hrest

theorem Settled.available_of_select (hnothing : Uncommitting icache run) {entry : XBlockIn}
    {b b' : Block} {discarded : Option ℕ} (hb : run.icache entry.id = some b)
    (hselect : { b with offset := run.size }.select entry.id entry.mode = .ok (b', discarded)) :
    Available icache run.newBlocks entry := by
  obtain ⟨b₀, hb₀, hcase⟩ := h.lookup hb
  refine ⟨b₀, hb₀, ?_⟩
  cases hentry : entry.mode with
  | latest => trivial
  | uncommitted =>
    simp only [hentry, Block.select] at hselect
    by_cases hzero : b.uploadedRev = 0
    · rw [if_pos hzero] at hselect
      cases hselect
    · rcases hcase with ⟨hfresh, rfl⟩ | ⟨-, hsettles⟩
      · exact ⟨hzero, hfresh⟩
      · exact absurd hsettles.1 hzero
  | committed =>
    simp only [hentry, Block.select] at hselect
    by_cases hzero : b.committedRev = 0
    · rw [if_pos hzero] at hselect
      cases hselect
    · exact .inl ((hnothing entry.id b₀ b hb₀ hb).1 ▸ hzero)

theorem Settled.select_keeps {entry : XBlockIn} {b b' : Block} {discarded : Option ℕ}
    (hb : run.icache entry.id = some b) (hcommits : ¬ Commits icache run.newBlocks entry)
    (hselect : { b with offset := run.size }.select entry.id entry.mode = .ok (b', discarded)) :
    b'.committedRev = b.committedRev ∧ b'.committedSize = b.committedSize := by
  obtain ⟨b₀, hb₀, hcase⟩ := h.lookup hb
  rcases (Block.select_settles hselect).1.2 with ⟨hrev, hsize, -⟩ | ⟨hne, hrev, hsize⟩
  · exact ⟨hrev, hsize⟩
  · have hne : b.uploadedRev ≠ 0 := hne
    rcases hcase with ⟨hfresh, rfl⟩ | ⟨-, hsettles⟩
    · cases hentry : entry.mode with
      | committed =>
        rw [hentry] at hselect
        simp only [Block.select] at hselect
        split_ifs at hselect with hzero
        cases hselect
        exact ⟨rfl, rfl⟩
      | uncommitted => exact absurd ⟨by rw [hentry]; decide, hfresh, b, hb₀, hne⟩ hcommits
      | latest => exact absurd ⟨by rw [hentry]; decide, hfresh, b, hb₀, hne⟩ hcommits
    · exact absurd hsettles.1 hne

/-- A rejected list that commits nothing before the entry it is rejected at leaves all committed sizes. -/
theorem putEntries_commitsNothing (hnothing : Uncommitting icache run)
    {entries : List XBlockIn} (hentries : CommitsNothing icache run.newBlocks entries) :
    ∀ id b₀ b, icache id = some b₀ → (putEntries run entries).2.icache id = some b →
      b.committedSize = b₀.committedSize := by
  induction entries generalizing run with
  | nil => exact fun id b₀ b hb₀ hb => (hnothing id b₀ b hb₀ hb).2
  | cons entry entries ih =>
    rw [putEntries]
    cases hb : run.icache entry.id with
    | none => exact fun id b₀ b hb₀ hb => (hnothing id b₀ b hb₀ hb).2
    | some b =>
      cases hselect : { b with offset := run.size }.select entry.id entry.mode with
      | error e =>
        simp only [hselect]
        intro id b₀ b₁ hb₀ hb₁
        by_cases hid : id = entry.id
        · subst hid
          rw [update_self] at hb₁
          cases hb₁
          exact (hnothing entry.id b₀ b hb₀ hb).2
        · rw [update_of_ne hid] at hb₁
          exact (hnothing id b₀ b₁ hb₀ hb₁).2
      | ok result =>
        simp only [hselect]
        obtain ⟨hcommits, hrest⟩ := hentries (h.available_of_select hnothing hb hselect)
        refine ih (h.step hb hselect) ?_ hrest
        intro id b₀ b₁ hb₀ hb₁
        dsimp only at hb₁
        by_cases hid : id = entry.id
        · subst hid
          rw [update_self] at hb₁
          cases hb₁
          obtain ⟨hrev, hsize⟩ := h.select_keeps hb hcommits hselect
          obtain ⟨hrev₀, hsize₀⟩ := hnothing entry.id b₀ b hb₀ hb
          exact ⟨hrev.trans hrev₀, hsize.trans hsize₀⟩
        · rw [update_of_ne hid] at hb₁
          exact hnothing id b₀ b₁ hb₀ hb₁

end Index

end WalG.Blob
