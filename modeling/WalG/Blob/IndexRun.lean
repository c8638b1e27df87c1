import WalG.Blob.ListRun
import WalG.Foundation.SliceSort

/-! # Runs of index operations

Besides its list of blocks the index keeps the committed blocks ordered by their offsets, as they
stood when the list was put.
-/
namespace WalG.Blob
open Foundation List Function

/-- The block of an id that the index has. -/
def Index.block (idx : Index) (id : Text) : Block := (idx.icache id).getD ⟨0, 0, 0, 0, 0⟩

/-- An index with the ids of its committed blocks in the order of the offsets. -/
structure CachedIndex extends Index where
  ocache : List Text

def Index.buildCache (sort : SliceSort Text) (idx : Index) : CachedIndex where
  toIndex := idx
  ocache := sort.sort (fun id id' => (idx.block id).offset < (idx.block id').offset)
    (idx.blocks.filter fun id => 0 < (idx.block id).committedRev)

inductive IndexOp where
  | putBlock (id : Text) (size : ℕ)
  | putBlockList (entries : List XBlockIn)
  | clear

def Index.apply (idx : Index) : IndexOp → Index
  | .putBlock id size => (idx.putBlock id size).2
  | .putBlockList entries => (idx.putBlockList entries).2
  | .clear => idx.clear.2

def Index.run (ops : List IndexOp) : Index := ops.foldl Index.apply newIndex

/-- An accepted list and a clearing build the cache anew. -/
def Index.Rebuilds (idx : Index) : IndexOp → Prop
  | .putBlock _ _ => False
  | .putBlockList entries => ∃ garbage, (idx.putBlockList entries).1 = .ok garbage
  | .clear => True

namespace CachedIndex

variable (sort : SliceSort Text) (idx : CachedIndex)

def putBlock (id : Text) (size : ℕ) : Text × CachedIndex :=
  ((idx.toIndex.putBlock id size).1, ⟨(idx.toIndex.putBlock id size).2, idx.ocache⟩)

/-- The cache is built anew only if the list is accepted. -/
def putBlockList (entries : List XBlockIn) : Except BlobError (List Text) × CachedIndex :=
  match idx.toIndex.putBlockList entries with
  | (.error e, idx') => (.error e, ⟨idx', idx.ocache⟩)
  | (.ok garbage, idx') => (.ok garbage, idx'.buildCache sort)

def clear : List Text × CachedIndex := (idx.toIndex.clear.1, idx.toIndex.clear.2.buildCache sort)

def apply : IndexOp → CachedIndex
  | .putBlock id size => (idx.putBlock id size).2
  | .putBlockList entries => (idx.putBlockList sort entries).2
  | .clear => (idx.clear sort).2

def run (ops : List IndexOp) : CachedIndex := ops.foldl (apply sort) ⟨newIndex, []⟩

variable {sort}

/-- An upload changes neither the offsets nor the committed revisions. -/
theorem buildCache_putBlock (idx : Index) (id : Text) (size : ℕ) :
    ((idx.putBlock id size).2.buildCache sort).ocache = (idx.buildCache sort).ocache := by
  have hblock : ∀ id', ((idx.putBlock id size).2.block id').offset = (idx.block id').offset ∧
      ((idx.putBlock id size).2.block id').committedRev = (idx.block id').committedRev := by
    intro id'
    cases hb : idx.icache id <;> by_cases hid : id' = id <;>
      simp [Index.putBlock, Index.block, Index.setBlock, hid, hb]
  simp only [Index.buildCache, hblock]
  cases hb : idx.icache id <;> simp [Index.putBlock, Index.setBlock, Index.block, hb]

theorem apply_spec (op : IndexOp) : (apply sort idx op).toIndex = idx.toIndex.apply op ∧
    (idx.toIndex.Rebuilds op → apply sort idx op = (idx.toIndex.apply op).buildCache sort) := by
  cases op with
  | putBlock id size => exact ⟨rfl, False.elim⟩
  | putBlockList entries =>
    rw [apply, putBlockList, Index.apply, Index.Rebuilds]
    rcases idx.toIndex.putBlockList entries with ⟨e | garbage, idx'⟩
    · exact ⟨rfl, fun ⟨_, h⟩ => nomatch h⟩
    · exact ⟨rfl, fun _ => rfl⟩
  | clear => exact ⟨rfl, fun _ => rfl⟩

theorem toIndex_run (ops : List IndexOp) : (run sort ops).toIndex = Index.run ops := by
  induction ops using reverseRecOn with
  | nil => rfl
  | append_singleton ops op ih =>
    rw [run, Index.run, foldl_concat, foldl_concat, (apply_spec _ op).1, ← run, ih, Index.run]

/-- Only a list that was refused since the cache was last built can leave it stale. -/
theorem run_eq_buildCache_or (ops : List IndexOp) :
    run sort ops = (Index.run ops).buildCache sort ∨ ∃ before entries after e,
      ops = before ++ .putBlockList entries :: after ∧ ((Index.run before).putBlockList entries).1 = .error e ∧
        ∀ mid op rest, after = mid ++ op :: rest →
          ¬ (Index.run (before ++ .putBlockList entries :: mid)).Rebuilds op := by
  induction ops using reverseRecOn with
  | nil => exact .inl (congrArg (mk newIndex) (sort.perm _ []).eq_nil.symm)
  | append_singleton ops op ih =>
    have hindex := @toIndex_run sort ops
    rw [run, Index.run, foldl_concat, foldl_concat, ← run, ← Index.run]
    by_cases hrebuilds : (Index.run ops).Rebuilds op
    · rw [(apply_spec (run sort ops) op).2 (hindex ▸ hrebuilds), hindex]
      exact .inl rfl
    · obtain hops | ⟨before, entries, after, e, rfl, he, hafter⟩ := ih
      · cases op with
        | putBlock id size =>
          rw [hops]
          exact .inl (congrArg (mk _) (buildCache_putBlock _ id size).symm)
        | putBlockList entries =>
          cases hput : ((Index.run ops).putBlockList entries).1 with
          | ok garbage => exact absurd ⟨garbage, hput⟩ hrebuilds
          | error e => exact .inr ⟨ops, entries, [], e, rfl, hput, by simp⟩
        | clear => exact absurd trivial hrebuilds
      · refine .inr ⟨before, entries, after ++ [op], e, by simp, he, fun mid op' rest hsplit => ?_⟩
        rcases rest.eq_nil_or_concat with rfl | ⟨rest, last, rfl⟩
        · obtain ⟨rfl, hop⟩ := append_inj' hsplit rfl
          rwa [← (cons.inj hop).1]
        · rw [concat_eq_append, ← cons_append, ← append_assoc] at hsplit
          exact hafter mid op' rest (append_inj' hsplit rfl).1

end CachedIndex

namespace Index

/-- What holds of every index that is reached. A block has a revision, and its upload comes right
after its committed one. -/
structure Consistent (idx : Index) : Prop where
  mem_blocks : ∀ id, id ∈ idx.blocks ↔ idx.icache id ≠ none
  revisions : ∀ id b, idx.icache id = some b → b.uploadedRev = 0 ∨ b.uploadedRev = b.committedRev + 1
  hasRevision : ∀ id b, idx.icache id = some b → b.uploadedRev ≠ 0 ∨ b.committedRev ≠ 0

variable {idx : Index} {icache : Text → Option Block} {entries : List XBlockIn}

theorem block_eq {id : Text} {b : Block} (h : idx.icache id = some b) : idx.block id = b := by
  rw [block, h, Option.getD_some]

theorem consistent_newIndex : newIndex.Consistent :=
  ⟨fun id => by simp [newIndex], nofun, nofun⟩

theorem Consistent.becomes (h : idx.Consistent)
    (hbecomes : ∀ id b, icache id = some b → ∃ b₀, idx.icache id = some b₀ ∧ b₀.Becomes b) {id : Text} {b : Block}
    (hb : icache id = some b) :
    (b.uploadedRev = 0 ∨ b.uploadedRev = b.committedRev + 1) ∧ (b.uploadedRev ≠ 0 ∨ b.committedRev ≠ 0) := by
  obtain ⟨b₀, hb₀, ⟨hu, -, hc, -⟩ | ⟨hu, ⟨hc, -, hkept⟩ | ⟨hne, hc, -⟩⟩⟩ := hbecomes id b hb
  · rw [hu, hc]
    exact ⟨h.revisions id b₀ hb₀, h.hasRevision id b₀ hb₀⟩
  · refine ⟨.inl hu, .inr ?_⟩
    rw [hc]
    rcases hkept with hzero | hne
    · exact (h.hasRevision id b₀ hb₀).resolve_left (not_not.mpr hzero)
    · exact hne
  · exact ⟨.inl hu, .inr (hc ▸ hne)⟩

theorem putBlock_spec (idx : Index) (id : Text) (size : ℕ) :
    ∃ b, (idx.putBlock id size).2.icache = update idx.icache id (some b) ∧
      (idx.putBlock id size).2.size = idx.size ∧ b.uploadedRev = b.committedRev + 1 ∧
      (idx.icache id = none ∧ (idx.putBlock id size).2.blocks = idx.blocks ++ [id] ∧ b.committedRev = 0 ∨
        ∃ b₀, idx.icache id = some b₀ ∧ (idx.putBlock id size).2.blocks = idx.blocks ∧ b.offset = b₀.offset ∧
          b.committedRev = b₀.committedRev ∧ b.committedSize = b₀.committedSize) := by
  rw [Index.putBlock]
  cases hb : idx.icache id with
  | none => exact ⟨_, rfl, rfl, rfl, .inl ⟨rfl, rfl, rfl⟩⟩
  | some b₀ => exact ⟨_, rfl, rfl, rfl, .inr ⟨b₀, rfl, rfl, rfl, rfl, rfl⟩⟩

theorem Consistent.putBlock (h : idx.Consistent) (id : Text) (size : ℕ) : (idx.putBlock id size).2.Consistent := by
  obtain ⟨b, hicache, -, hrev, hcase⟩ := putBlock_spec idx id size
  have hlookup : ∀ {id' b'}, (idx.putBlock id size).2.icache id' = some b' → b' = b ∨ idx.icache id' = some b' := by
    intro id' b' hb'
    rw [hicache] at hb'
    by_cases hid : id' = id
    · subst hid
      rw [update_self] at hb'
      exact .inl (Option.some.inj hb').symm
    · rw [update_of_ne hid] at hb'
      exact .inr hb'
  refine ⟨fun id' => ?_, fun id' b' hb' => ?_, fun id' b' hb' => ?_⟩
  · rw [hicache]
    rcases hcase with ⟨hnone, hblocks, -⟩ | ⟨b₀, hb₀, hblocks, -⟩
    · by_cases hid : id' = id
      · simp [hblocks, hid]
      · simp [hblocks, hid, h.mem_blocks]
    · by_cases hid : id' = id
      · simp [hblocks, hid, h.mem_blocks, hb₀]
      · simp [hblocks, hid, h.mem_blocks]
  · rcases hlookup hb' with rfl | hold
    · exact .inr hrev
    · exact h.revisions id' b' hold
  · rcases hlookup hb' with rfl | hold
    · exact .inl (by omega)
    · exact h.hasRevision id' b' hold

theorem Consistent.putBlockList (h : idx.Consistent) (entries : List XBlockIn) :
    (idx.putBlockList entries).2.Consistent := by
  have hsettled := settled_init idx.icache
  cases hrun : putEntries ⟨idx.icache, [], [], 0⟩ entries with
  | mk err run =>
    cases err with
    | some e =>
      have hsame := putEntries_becomes hsettled entries
      rw [hrun] at hsame
      dsimp only at hsame
      have hbecomes : ∀ id b, run.icache id = some b → ∃ b₀, idx.icache id = some b₀ ∧ b₀.Becomes b := by
        intro id b hb
        rcases hsame id with ⟨hnone, -⟩ | ⟨b₀, b', hb₀, hb', hbecomes⟩
        · exact nomatch hnone.symm.trans hb
        · cases hb'.symm.trans hb
          exact ⟨b₀, hb₀, hbecomes⟩
      rw [Index.putBlockList, hrun]
      refine ⟨fun id => ?_, fun id b hb => (h.becomes hbecomes hb).1, fun id b hb => (h.becomes hbecomes hb).2⟩
      rw [h.mem_blocks id]
      rcases hsame id with ⟨hnone, hnone₀⟩ | ⟨b₀, b, hb₀, hb, -⟩
      · simp [hnone, hnone₀]
      · simp [hb, hb₀]
    | none =>
      have hsettled := putEntries_ok hsettled hrun
      have hlisted : ∀ {id b}, (if id ∈ run.newBlocks then run.icache id else none) = some b →
          ∃ b₀, idx.icache id = some b₀ ∧ b₀.Becomes b := by
        intro id b hb
        split_ifs at hb with hmem
        obtain ⟨b₀, b', hb₀, hb', hsettles⟩ := hsettled.settled id hmem
        cases hb'.symm.trans hb
        exact ⟨b₀, hb₀, .inr hsettles⟩
      rw [Index.putBlockList, hrun]
      refine ⟨fun id => ?_, fun id b hb => (h.becomes (fun _ _ => hlisted) hb).1,
        fun id b hb => (h.becomes (fun _ _ => hlisted) hb).2⟩
      dsimp only
      split_ifs with hmem
      · obtain ⟨b₀, b, -, hb, -⟩ := hsettled.settled id hmem
        simp [hmem, hb]
      · simp [hmem]

theorem consistent_run (ops : List IndexOp) : (Index.run ops).Consistent := by
  have hfold : ∀ (ops : List IndexOp) (idx : Index), idx.Consistent → (ops.foldl Index.apply idx).Consistent := by
    intro ops
    induction ops with
    | nil => exact fun _ h => h
    | cons op ops ih =>
      intro idx h
      refine ih _ ?_
      cases op with
      | putBlock id size => exact h.putBlock id size
      | putBlockList entries => exact h.putBlockList entries
      | clear => exact ⟨fun id => by simp [Index.apply, clear], nofun, nofun⟩
  exact hfold ops newIndex consistent_newIndex

/-- The entry of a block list with what it makes of its block and the revision it discards. -/
structure Served where
  id : Text
  before : Block
  after : Block
  discarded : Option ℕ

/-- The entries are served from the blocks as they are before the request, at running offsets. -/
inductive Serves (icache : Text → Option Block) : ℕ → List XBlockIn → List Served → ℕ → Prop
  | nil {size} : Serves icache size [] [] size
  | cons {size entry entries b b' discarded served size'} :
    icache entry.id = some b → { b with offset := size }.select entry.id entry.mode = .ok (b', discarded) →
    Serves icache ((size + b'.committedSize) % 2 ^ 64) entries served size' →
    Serves icache size (entry :: entries) (⟨entry.id, b, b', discarded⟩ :: served) size'

theorem Serves.map_id {size size' : ℕ} {served : List Served} (h : Serves icache size entries served size') :
    served.map Served.id = entries.map XBlockIn.id := by
  induction h with
  | nil => rfl
  | cons _ _ _ ih => rw [map_cons, map_cons, ih]

theorem putEntries_distinct {run run' : ListRun}
    (hnodup : (entries.map XBlockIn.id).Nodup) (hfresh : ∀ entry ∈ entries, run.icache entry.id = icache entry.id)
    (hrun : putEntries run entries = (none, run')) :
    ∃ served, Serves icache run.size entries served run'.size ∧
      run'.newBlocks = run.newBlocks ++ entries.map XBlockIn.id ∧
      run'.garbage = run.garbage ++ served.flatMap (fun x => (x.discarded.map (objectName x.id)).toList) ∧
      (∀ x ∈ served, run'.icache x.id = some x.after) ∧
      ∀ id ∉ entries.map XBlockIn.id, run'.icache id = run.icache id := by
  induction entries generalizing run with
  | nil =>
    obtain rfl := (Prod.mk.inj hrun).2
    exact ⟨[], .nil, by simp, by simp, nofun, fun _ _ => rfl⟩
  | cons entry entries ih =>
    rw [map_cons, nodup_cons] at hnodup
    rw [putEntries] at hrun
    cases hb : run.icache entry.id with
    | none => rw [hb] at hrun; cases hrun
    | some b =>
      simp only [hb] at hrun
      cases hselect : { b with offset := run.size }.select entry.id entry.mode with
      | error e => rw [hselect] at hrun; cases hrun
      | ok result =>
        obtain ⟨b', discarded⟩ := result
        simp only [hselect] at hrun
        have hne : ∀ entry' ∈ entries, entry'.id ≠ entry.id := fun entry' hentry' heq =>
          hnodup.1 (heq ▸ mem_map_of_mem hentry')
        obtain ⟨served, hserves, hblocks, hgarbage, hafter, hother⟩ := ih hnodup.2 (fun entry' hentry' => by
          dsimp only
          rw [update_of_ne (hne entry' hentry')]
          exact hfresh entry' (mem_cons_of_mem _ hentry')) hrun
        refine ⟨⟨entry.id, b, b', discarded⟩ :: served,
          .cons ((hfresh entry mem_cons_self).symm.trans hb) hselect hserves, ?_, ?_, ?_, ?_⟩
        · rw [hblocks, map_cons, append_assoc, singleton_append]
        · rw [hgarbage, flatMap_cons, append_assoc]
        · intro x hx
          rcases mem_cons.mp hx with rfl | hx
          · exact (hother entry.id hnodup.1).trans (update_self ..)
          · exact hafter x hx
        · intro id hid
          rw [map_cons, mem_cons, not_or] at hid
          exact (hother id hid.2).trans (update_of_ne hid.1 ..)

theorem Serves.of_mem {size size' : ℕ} {served : List Served} (hserves : Serves icache size entries served size') :
    (∀ x ∈ served, ∃ entry ∈ entries, ∃ offset, entry.id = x.id ∧ icache x.id = some x.before ∧
      { x.before with offset := offset }.select x.id entry.mode = .ok (x.after, x.discarded)) ∧
    ∀ entry ∈ entries, ∃ x ∈ served, ∃ offset, entry.id = x.id ∧ icache x.id = some x.before ∧
      { x.before with offset := offset }.select x.id entry.mode = .ok (x.after, x.discarded) := by
  induction hserves with
  | nil => exact ⟨nofun, nofun⟩
  | @cons size entry entries b b' discarded served size' hb hselect _ ih =>
    constructor
    · intro x hx
      rcases mem_cons.mp hx with rfl | hx
      · exact ⟨entry, mem_cons_self, size, rfl, hb, hselect⟩
      · obtain ⟨entry', hentry', hrest⟩ := ih.1 x hx
        exact ⟨entry', mem_cons_of_mem _ hentry', hrest⟩
    · intro entry' hentry'
      rcases mem_cons.mp hentry' with rfl | hentry'
      · exact ⟨_, mem_cons_self, size, rfl, hb, hselect⟩
      · obtain ⟨x, hx, hrest⟩ := ih.2 entry' hentry'
        exact ⟨x, mem_cons_of_mem _ hx, hrest⟩

/-- The names reported for the entries. -/
def discardedNames (served : List Served) : List Text :=
  served.flatMap fun x => (x.discarded.map (objectName x.id)).toList

/-- The blocks before and after an accepted list of distinct ids. -/
structure Accepted (idx : Index) (entries : List XBlockIn) (served : List Served) (garbage : List Text)
    (idx' : Index) : Prop where
  serves : Serves idx.icache 0 entries served idx'.size
  blocks : idx'.blocks = entries.map XBlockIn.id
  garbage : garbage = discardedNames served ++ (idx.blocks.filter (· ∉ entries.map XBlockIn.id)).flatMap fun id =>
    (idx.icache id).elim [] fun b => b.objects id
  after : ∀ x ∈ served, idx'.icache x.id = some x.after
  dropped : ∀ id ∉ entries.map XBlockIn.id, idx'.icache id = none

theorem exists_accepted (hnodup : (entries.map XBlockIn.id).Nodup) {garbage : List Text}
    {idx' : Index} (hput : idx.putBlockList entries = (.ok garbage, idx')) :
    ∃ served, Accepted idx entries served garbage idx' := by
  rw [putBlockList] at hput
  cases hrun : putEntries ⟨idx.icache, [], [], 0⟩ entries with
  | mk err run =>
    rw [hrun] at hput
    cases err with
    | some e => cases hput
    | none =>
      obtain ⟨hgarbage, rfl⟩ := Prod.mk.inj hput
      cases hgarbage
      obtain ⟨served, hserves, hblocks, hnames, hafter, hother⟩ := putEntries_distinct hnodup (fun _ _ => rfl) hrun
      rw [nil_append] at hblocks hnames
      refine ⟨served, hserves, hblocks, ?_, fun x hx => ?_, fun id hid => if_neg (hblocks ▸ hid)⟩
      · rw [hnames, hblocks]
        congr 1
        refine flatMap_congr fun id hid => ?_
        rw [hother id (of_decide_eq_true (mem_filter.mp hid).2)]
      · dsimp only
        rw [if_pos, hafter x hx]
        rw [hblocks, ← hserves.map_id]
        exact mem_map_of_mem hx

end Index

end WalG.Blob
