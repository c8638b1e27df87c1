import WalG.Blob.ListRun

/-! # Live data of a blob

The objects of both revisions of every block stay in storage.
-/
namespace WalG.Blob
open Foundation List Function

namespace Server

/-- An object is in storage as it was uploaded. -/
def Stored (s : Server) (name : Text) (length : ℕ) : Prop :=
  ∃ bytes, s.objects name = some bytes ∧ s.uploaded name = some bytes ∧ bytes.length = length

/-- Both revisions of every block have their objects. -/
structure Kept (s : Server) (icache : Text → Option Block) : Prop where
  revisions : ∀ id b, icache id = some b → b.uploadedRev = 0 ∨ b.uploadedRev = b.committedRev + 1
  committed : ∀ id b, icache id = some b → b.committedRev ≠ 0 → s.Stored (objectName id b.committedRev) b.committedSize
  uploaded : ∀ id b, icache id = some b → b.uploadedRev ≠ 0 → s.Stored (objectName id b.uploadedRev) b.uploadedSize

/-- The invariant of the server. -/
structure Sound (s : Server) (idx : Index) : Prop where
  mem_blocks : ∀ id, id ∈ idx.blocks ↔ idx.icache id ≠ none
  kept : s.Kept idx.icache
  size : idx.size = (idx.blocks.map idx.committedSize).sum % 2 ^ 64

def Inv (s : Server) : Prop := ∀ idx, s.index = some idx → s.Sound idx

theorem Inv.live {s : Server} (h : s.Inv) : s.Live := fun idx hidx =>
  ⟨fun id _ b hb hrev => (h idx hidx).kept.committed id b hb hrev, (h idx hidx).size⟩

variable {s : Server} {icache : Text → Option Block}

theorem Stored.putObject {name name' : Text} {length : ℕ} (h : s.Stored name length) (hne : name ≠ name')
    (body : Bytes) : (s.putObject name' body).Stored name length := by
  obtain ⟨bytes, hobject, huploaded, hlength⟩ := h
  exact ⟨bytes, (update_of_ne hne _ _).trans hobject, (update_of_ne hne _ _).trans huploaded, hlength⟩

theorem stored_putObject (name : Text) (body : Bytes) : (s.putObject name body).Stored name body.length :=
  ⟨body, update_self .., update_self .., rfl⟩

theorem Stored.deleteGarbage {name : Text} {length : ℕ} (h : s.Stored name length) {garbage : List Text}
    (hname : name ∉ garbage) : (s.deleteGarbage garbage).Stored name length := by
  obtain ⟨bytes, hobject, huploaded, hlength⟩ := h
  exact ⟨bytes, (if_neg hname).trans hobject, huploaded, hlength⟩

theorem Kept.putBlock (h : s.Kept icache) (id : Text) {b : Block} (body : Bytes)
    (hb : icache id = some b ∨ (icache id = none ∧ b.committedRev = 0)) :
    (s.putObject (objectName id (b.committedRev + 1)) body).Kept (update icache id
      (some { b with uploadedRev := b.committedRev + 1, uploadedSize := body.length })) := by
  have hother : ∀ {id' rev length}, id' ≠ id → s.Stored (objectName id' rev) length →
      (s.putObject (objectName id (b.committedRev + 1)) body).Stored (objectName id' rev) length :=
    fun hne hstored => hstored.putObject (fun heq => hne (objectName_injective heq).1) body
  refine ⟨fun id' b' hb' => ?_, fun id' b' hb' hrev => ?_, fun id' b' hb' hrev => ?_⟩
  · by_cases hid : id' = id
    · subst hid
      rw [update_self] at hb'
      cases hb'
      exact .inr rfl
    · rw [update_of_ne hid] at hb'
      exact h.revisions id' b' hb'
  · by_cases hid : id' = id
    · subst hid
      rw [update_self] at hb'
      cases hb'
      have hb : icache id' = some b := hb.resolve_right fun hnone => hrev hnone.2
      exact (h.committed id' b hb hrev).putObject (fun heq => by have := (objectName_injective heq).2; omega) body
    · rw [update_of_ne hid] at hb'
      exact hother hid (h.committed id' b' hb' hrev)
  · by_cases hid : id' = id
    · subst hid
      rw [update_self] at hb'
      cases hb'
      exact stored_putObject _ body
    · rw [update_of_ne hid] at hb'
      exact hother hid (h.uploaded id' b' hb' hrev)

theorem Kept.becomes (h : s.Kept icache) {icache' : Text → Option Block}
    (hbecomes : ∀ id b, icache' id = some b → ∃ b₀, icache id = some b₀ ∧ b₀.Becomes b) : s.Kept icache' := by
  refine ⟨fun id b hb => ?_, fun id b hb hrev => ?_, fun id b hb hrev => ?_⟩
  · obtain ⟨b₀, hb₀, ⟨hu, -, hc, -⟩ | hsettles⟩ := hbecomes id b hb
    · rw [hu, hc]
      exact h.revisions id b₀ hb₀
    · exact .inl hsettles.1
  · obtain ⟨b₀, hb₀, ⟨-, -, hc, hs⟩ | ⟨-, ⟨hc, hs, -⟩ | ⟨hne, hc, hs⟩⟩⟩ := hbecomes id b hb
    · rw [hc, hs]
      exact h.committed id b₀ hb₀ (hc ▸ hrev)
    · rw [hc, hs]
      exact h.committed id b₀ hb₀ (hc ▸ hrev)
    · rw [hc, hs]
      exact h.uploaded id b₀ hb₀ hne
  · obtain ⟨b₀, hb₀, ⟨hu, hs, -⟩ | ⟨hu, -⟩⟩ := hbecomes id b hb
    · rw [hu, hs]
      exact h.uploaded id b₀ hb₀ (hu ▸ hrev)
    · exact absurd hu hrev

theorem Kept.deleteGarbage (h : s.Kept icache) {garbage : List Text}
    (hgarbage : ∀ id b rev, icache id = some b → rev ≠ 0 → rev = b.committedRev ∨ rev = b.uploadedRev →
      objectName id rev ∉ garbage) : (s.deleteGarbage garbage).Kept icache :=
  ⟨h.revisions, fun id b hb hrev => (h.committed id b hb hrev).deleteGarbage (hgarbage id b _ hb hrev (.inl rfl)),
    fun id b hb hrev => (h.uploaded id b hb hrev).deleteGarbage (hgarbage id b _ hb hrev (.inr rfl))⟩

theorem Kept.setIndex (h : s.Kept icache) (idx : Index) : (s.setIndex idx).Kept icache :=
  ⟨h.revisions, h.committed, h.uploaded⟩

theorem inv_setIndex {idx : Index} (h : (s.setIndex idx).Sound idx) : (s.setIndex idx).Inv := by
  intro idx' hidx'
  cases hidx'
  exact h

section Requests

variable {idx : Index}

theorem Sound.putBlock (h : s.Sound idx) (id : Text) (body : Bytes) :
    ((s.setIndex (idx.putBlock id body.length).2).putObject (idx.putBlock id body.length).1 body).Sound
      (idx.putBlock id body.length).2 := by
  unfold Index.putBlock
  cases hb : idx.icache id with
  | none =>
    have hfresh : id ∉ idx.blocks := fun hmem => (h.mem_blocks id).mp hmem hb
    refine ⟨fun id' => ?_, (h.kept.setIndex _).putBlock id (b := ⟨0, 0, 0, 0, 0⟩) body (.inr ⟨hb, rfl⟩), ?_⟩
    · by_cases hid : id' = id
      · subst hid
        simp [Index.setBlock]
      · simp [Index.setBlock, hid, h.mem_blocks]
    · have hsame : idx.blocks.map (Index.setBlock { idx with blocks := idx.blocks ++ [id] } id
          ⟨0, body.length, 1, 0, 0⟩).committedSize = idx.blocks.map idx.committedSize := by
        apply map_congr_left
        intro id' hid'
        have hne : id' ≠ id := fun heq => hfresh (heq ▸ hid')
        simp only [Index.committedSize, Index.setBlock, update_of_ne hne]
      have hnew : (Index.setBlock { idx with blocks := idx.blocks ++ [id] } id
          ⟨0, body.length, 1, 0, 0⟩).committedSize id = 0 := by
        simp [Index.committedSize, Index.setBlock]
      change idx.size = ((idx.blocks ++ [id]).map _).sum % 2 ^ 64
      rw [map_append, sum_append, hsame, map_singleton, sum_singleton, hnew, Nat.add_zero]
      exact h.size
  | some b =>
    refine ⟨fun id' => ?_, (h.kept.setIndex _).putBlock id body (.inl hb), ?_⟩
    · by_cases hid : id' = id
      · subst hid
        simp [Index.setBlock, h.mem_blocks, hb]
      · simp [Index.setBlock, update_of_ne hid, h.mem_blocks]
    · have hsame : idx.blocks.map (idx.setBlock id
          { b with uploadedRev := b.committedRev + 1, uploadedSize := body.length }).committedSize =
          idx.blocks.map idx.committedSize := by
        apply map_congr_left
        intro id' _
        by_cases hid : id' = id
        · subst hid
          simp [Index.committedSize, Index.setBlock, hb]
        · simp only [Index.committedSize, Index.setBlock, update_of_ne hid]
      change idx.size = (idx.blocks.map _).sum % 2 ^ 64
      rw [hsame]
      exact h.size

/-- A rejected list keeps the objects; it keeps the size if nothing was committed. -/
theorem Sound.rejected (h : s.Sound idx) {entries : List XBlockIn} {run : Index.ListRun} {e : BlobError}
    (hrun : Index.putEntries ⟨idx.icache, [], [], 0⟩ entries = (some e, run))
    (hnothing : Index.CommitsNothing idx.icache [] entries) : (s.setIndex { idx with icache := run.icache }).Sound
      { idx with icache := run.icache } := by
  have hsettled := Index.settled_init idx.icache
  have hbecomes := Index.putEntries_becomes hsettled entries
  have hsizes := Index.putEntries_commitsNothing hsettled
    (fun id b₀ b hb₀ hb => by obtain rfl := Option.some.inj (hb.symm.trans hb₀); exact ⟨rfl, rfl⟩) hnothing
  rw [hrun] at hbecomes hsizes
  dsimp only at hbecomes hsizes
  refine ⟨fun id => ?_, (h.kept.becomes fun id b hb => ?_).setIndex _, ?_⟩
  · rw [h.mem_blocks id]
    rcases hbecomes id with ⟨hnone, hnone₀⟩ | ⟨b₀, b, hb₀, hb, -⟩
    · simp [hnone, hnone₀]
    · simp [hb, hb₀]
  · rcases hbecomes id with ⟨hnone, -⟩ | ⟨b₀, b', hb₀, hb', hbecomes'⟩
    · exact nomatch hnone.symm.trans hb
    · cases hb'.symm.trans hb
      exact ⟨b₀, hb₀, hbecomes'⟩
  · have hsame : idx.blocks.map ({ idx with icache := run.icache } : Index).committedSize =
        idx.blocks.map idx.committedSize := by
      apply map_congr_left
      intro id _
      rcases hbecomes id with ⟨hnone, hnone₀⟩ | ⟨b₀, b, hb₀, hb, -⟩
      · simp [Index.committedSize, hnone, hnone₀]
      · simp [Index.committedSize, hb, hb₀, hsizes id b₀ b hb₀ hb]
    rw [hsame]
    exact h.size

/-- An accepted list deletes only revisions it has replaced and blocks it does not name. -/
theorem Sound.accepted (h : s.Sound idx) {entries : List XBlockIn} {garbage : List Text} {idx' : Index}
    (hput : idx.putBlockList entries = (.ok garbage, idx')) :
    ((s.setIndex idx').deleteGarbage garbage).Sound idx' := by
  unfold Index.putBlockList at hput
  cases hrun : Index.putEntries ⟨idx.icache, [], [], 0⟩ entries with
  | mk err run =>
    rw [hrun] at hput
    cases err with
    | some e => cases hput
    | none =>
      obtain ⟨hgarbage, rfl⟩ := Prod.mk.inj hput
      cases hgarbage
      have hsettled := Index.putEntries_ok (Index.settled_init idx.icache) hrun
      have hlisted : ∀ {id b}, (if id ∈ run.newBlocks then run.icache id else none) = some b →
          id ∈ run.newBlocks ∧ run.icache id = some b := by
        intro id b hb
        split_ifs at hb with hmem
        exact ⟨hmem, hb⟩
      have hkept :
          (s.setIndex ⟨run.size, run.newBlocks, fun id => if id ∈ run.newBlocks then run.icache id else none⟩).Kept
          (fun id => if id ∈ run.newBlocks then run.icache id else none) := by
        refine (h.kept.becomes fun id b hb => ?_).setIndex _
        obtain ⟨hmem, hb⟩ := hlisted hb
        obtain ⟨b₀, b', hb₀, hb', hsettles⟩ := hsettled.settled id hmem
        obtain rfl := Option.some.inj (hb'.symm.trans hb)
        exact ⟨b₀, hb₀, .inr hsettles⟩
      refine ⟨fun id => ?_, hkept.deleteGarbage fun id b rev hb hrev hcase hname => ?_, ?_⟩
      · dsimp only
        split_ifs with hmem
        · obtain ⟨b₀, b, -, hb, -⟩ := hsettled.settled id hmem
          simp [hmem, hb]
        · simp [hmem]
      · obtain ⟨hmem, hb⟩ := hlisted hb
        rcases mem_append.mp hname with hname | hname
        · obtain ⟨id', hmem', b₀, b', rev', hb₀, hb', hname, hdiscards⟩ := hsettled.garbage _ hname
          obtain ⟨rfl, rfl⟩ := objectName_injective hname
          obtain rfl := Option.some.inj (hb'.symm.trans hb)
          obtain ⟨b₁, b₂, hb₁, hb₂, hsettles⟩ := hsettled.settled id hmem
          obtain rfl := Option.some.inj (hb₂.symm.trans hb)
          have hrev' : rev = b₂.committedRev := hcase.resolve_right fun heq => hrev (heq.trans hsettles.1)
          rcases hdiscards with hzero | ⟨hne, hcommitted, hreplaced⟩
          · exact hrev hzero
          · rcases h.kept.revisions id b₀ hb₀ with hzero | hnext
            · exact hne hzero
            · omega
        · obtain ⟨id', hid', hname⟩ := mem_flatMap.mp hname
          have hdropped := (mem_filter.mp hid').2
          rw [decide_eq_true_eq] at hdropped
          cases hb' : run.icache id' with
          | none => rw [hb'] at hname; cases hname
          | some b' =>
            rw [hb'] at hname
            obtain ⟨rev', hname, -⟩ := Block.exists_rev_of_mem_objects hname
            obtain ⟨rfl, -⟩ := objectName_injective hname
            exact hdropped hmem
      · change run.size = (run.newBlocks.map _).sum % 2 ^ 64
        rw [hsettled.size]
        congr 2
        apply map_congr_left
        intro id hid
        simp only [Index.committedSize, if_pos hid]

theorem putBlockList_data (idx : Index) (size : ℕ) :
    (idx.clear.2.putBlock dataID size).1 = objectName dataID 1 ∧
      (idx.clear.2.putBlock dataID size).2.putBlockList [⟨dataID, .latest⟩] =
        (.ok [], ⟨size % 2 ^ 64, [dataID], update (fun _ => none) dataID (some ⟨0, 0, 0, size, 1⟩)⟩) := by
  refine ⟨rfl, ?_⟩
  simp only [Index.clear, Index.putBlock, Index.setBlock, Index.putBlockList, Index.putEntries, update_self,
    Block.select, Block.commit]
  simp only [ne_eq, one_ne_zero, not_false_eq_true, if_true, not_true_eq_false, if_false, Option.map_none,
    Option.toList_none, append_nil, nil_append, Nat.zero_add, Prod.mk.injEq, Except.ok.injEq, Index.mk.injEq, true_and]
  refine ⟨by simp, ?_⟩
  funext id
  by_cases hid : id = dataID
  · subst hid
    simp
  · simp [hid]

theorem Inv.putBlob (h : s.Inv) (body : Bytes)
    (hharmless : ∀ idx, s.index = some idx → if body.length = 0 then idx.size = 0
      else ∀ b, idx.icache dataID = some b → b.committedRev ≠ 1 ∧ b.uploadedRev ≠ 1) : (s.handleBlobPut body).Inv := by
  rw [handleBlobPut]
  by_cases hlong : 2 ^ 64 ≤ body.length
  · rwa [if_pos hlong]
  rw [if_neg hlong]
  by_cases hempty : body.length = 0
  · rw [if_pos hempty]
    have hzero : (s.index.getD newIndex).size = 0 := by
      cases hidx : s.index with
      | none => rfl
      | some idx =>
        have hsize := hharmless idx hidx
        rwa [if_pos hempty] at hsize
    intro idx' hidx'
    cases hidx'
    exact ⟨fun id => by simp [Index.clear], ⟨nofun, nofun, nofun⟩, by simpa [Index.clear] using hzero⟩
  · rw [if_neg hempty]
    obtain ⟨hname, hput⟩ := putBlockList_data (s.index.getD newIndex) body.length
    simp only [hput, hname]
    have hgarbage : objectName dataID 1 ∉ (s.index.getD newIndex).clear.1 := by
      intro hmem
      obtain ⟨id, -, hid⟩ := mem_flatMap.mp hmem
      cases hb : (s.index.getD newIndex).icache id with
      | none => rw [hb] at hid; cases hid
      | some b =>
        rw [hb] at hid
        obtain ⟨rev, heq, hrev⟩ := Block.exists_rev_of_mem_objects hid
        obtain ⟨rfl, rfl⟩ := objectName_injective heq
        cases hidx : s.index with
        | none => rw [hidx] at hb; cases hb
        | some idx =>
          rw [hidx] at hb
          have hdata := hharmless idx hidx
          rw [if_neg hempty] at hdata
          rcases hrev with hrev | hrev
          · exact (hdata b hb).2 hrev.symm
          · exact (hdata b hb).1 hrev.symm
    intro idx' hidx'
    cases hidx'
    have hdata : ∀ {id b},
        update (fun _ => none) dataID (some (⟨0, 0, 0, body.length, 1⟩ : Block)) id = some b →
        id = dataID ∧ b = ⟨0, 0, 0, body.length, 1⟩ := by
      intro id b hb
      by_cases hid : id = dataID
      · subst hid
        rw [update_self] at hb
        exact ⟨rfl, (Option.some.inj hb).symm⟩
      · rw [update_of_ne hid] at hb
        cases hb
    refine ⟨fun id => ?_, ⟨fun id b hb => ?_, fun id b hb _ => ?_, fun id b hb hrev => ?_⟩, ?_⟩
    · by_cases hid : id = dataID
      · subst hid
        simp
      · simp [hid]
    · obtain ⟨-, rfl⟩ := hdata hb
      exact .inl rfl
    · obtain ⟨rfl, rfl⟩ := hdata hb
      exact (stored_putObject (objectName dataID 1) body).deleteGarbage hgarbage
    · obtain ⟨-, rfl⟩ := hdata hb
      exact absurd rfl hrev
    · simp [Index.committedSize]

end Requests

/-- The request finds the server in a state in which it does no harm. A block list is acceptable, or
is rejected before anything was committed; a whole blob goes over no block of its own name at
the first revision, or, being empty, over a blob of size zero. -/
def Harmless (s : Server) : Request → Prop
  | .putBlock _ _ => True
  | .putBlockList entries => ∀ idx, s.index = some idx →
    Index.Acceptable idx.icache [] entries ∨ Index.CommitsNothing idx.icache [] entries
  | .putBlob body => ∀ idx, s.index = some idx →
    if body.length = 0 then idx.size = 0
    else ∀ b, idx.icache dataID = some b → b.committedRev ≠ 1 ∧ b.uploadedRev ≠ 1

/-- Every request of the sequence is harmless when its turn comes. -/
def Careful : Server → List Request → Prop
  | _, [] => True
  | s, request :: requests => s.Harmless request ∧ Careful (s.handle request) requests

theorem Inv.handle (h : s.Inv) {request : Request} (hharmless : s.Harmless request) : (s.handle request).Inv := by
  cases request with
  | putBlock blockID body =>
    rw [Server.handle, handleBlockPut]
    cases hidx : s.index with
    | none => exact h
    | some idx =>
      split_ifs with hlong
      · exact h
      · intro idx' hidx'
        cases hidx'
        exact (h idx hidx).putBlock blockID body
  | putBlockList entries =>
    rw [Server.handle, handleBlockListPut]
    cases hidx : s.index with
    | none => exact h
    | some idx =>
      cases hput : idx.putBlockList entries with
      | mk result idx' =>
        cases result with
        | ok garbage =>
          simp only [hput]
          intro idx'' hidx''
          obtain rfl := Option.some.inj hidx''
          exact (h idx hidx).accepted hput
        | error e =>
          simp only [hput]
          have hentries := hharmless idx hidx
          unfold Index.putBlockList at hput
          cases hrun : Index.putEntries ⟨idx.icache, [], [], 0⟩ entries with
          | mk err run =>
            rw [hrun] at hput
            cases err with
            | none => cases hput
            | some e' =>
              cases hput
              have hnothing := hentries.resolve_left fun hacceptable => by
                have hnone := Index.putEntries_acceptable (Index.settled_init idx.icache) hacceptable
                rw [hrun] at hnone
                cases hnone
              exact inv_setIndex ((h idx hidx).rejected hrun hnothing)
  | putBlob body => exact h.putBlob body hharmless

/-- Along every sequence of harmless requests the live data stay in storage and the size is right. -/
theorem foldl_handle_live (objects : Text → Option Bytes) (requests : List Request)
    (h : (newServer objects).Careful requests) :
    ∀ done, done <+: requests → (done.foldl Server.handle (newServer objects)).Live := by
  have hrun : ∀ (requests : List Request) (s : Server), s.Inv → s.Careful requests →
      ∀ done, done <+: requests → (done.foldl Server.handle s).Inv := by
    intro requests
    induction requests with
    | nil =>
      intro s hs _ done hdone
      rw [prefix_nil.mp hdone]
      exact hs
    | cons request requests ih =>
      intro s hs hcareful done hdone
      cases done with
      | nil => exact hs
      | cons request' done =>
        obtain ⟨rfl, hrest⟩ := cons_prefix_cons.mp hdone
        exact ih _ (hs.handle hcareful.1) hcareful.2 done hrest
  intro done hdone
  exact (hrun requests (newServer objects) nofun h done hdone).live

/-- A blob that is created empty and filled block by block. -/
theorem foldl_handle_live_blocks :
    ([Request.putBlob [], .putBlock ['a'] [1, 2], .putBlockList [⟨['a'], .latest⟩]].foldl Server.handle
      (newServer fun _ => none)).Live :=
  foldl_handle_live (fun _ => none) [.putBlob [], .putBlock ['a'] [1, 2], .putBlockList [⟨['a'], .latest⟩]]
    ⟨nofun, trivial, fun idx hidx => .inl (by
      cases hidx
      exact ⟨⟨⟨0, 2, 1, 0, 0⟩, by decide, trivial⟩, trivial⟩), trivial⟩ _ (prefix_refl _)

end Server

end WalG.Blob
