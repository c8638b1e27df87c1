import WalG.Blob.IndexRun

/-! # The garbage of the index

The index refers to the objects of the revisions of its blocks.
-/
namespace WalG.Blob
open Foundation List

namespace Block

variable {b b' : Block} {id name : Text} {mode : BlockMode} {discarded : Option ℕ}

theorem nodup_objects (h : b.uploadedRev = 0 ∨ b.uploadedRev = b.committedRev + 1) : (b.objects id).Nodup := by
  have hne : b.uploadedRev ≠ 0 → objectName id b.uploadedRev ≠ objectName id b.committedRev := fun hne heq => by
    have := (objectName_injective heq).2
    omega
  rw [objects]
  split_ifs with hu hc
  · simpa using hne hu
  · simp
  · simp
  · simp

theorem mem_discarded_iff (hrevisions : b.uploadedRev = 0 ∨ b.uploadedRev = b.committedRev + 1)
    (hselect : b.select id mode = .ok (b', discarded)) (hmode : mode = .committed → b.uploadedRev = 0) :
    name ∈ discarded.map (objectName id) ↔ name ∈ b.objects id ∧ name ∉ b'.objects id := by
  have hcommit : b.uploadedRev ≠ 0 →
      (name ∈ (if b.committedRev ≠ 0 then some b.committedRev else none : Option ℕ).map (objectName id) ↔
        name ∈ b.objects id ∧ name ∉ b.commit.objects id) := by
    intro hu
    have hrev : ¬ (b.committedRev = b.uploadedRev) := by omega
    rw [mem_objects_iff, mem_objects_iff]
    constructor
    · intro hname
      split_ifs at hname with hc
      · cases hname
        refine ⟨.inr ⟨hc, rfl⟩, ?_⟩
        rintro (⟨hzero, -⟩ | ⟨-, heq⟩)
        · exact hzero rfl
        · exact hrev (objectName_injective heq).2
      · cases hname
    · rintro ⟨⟨-, rfl⟩ | ⟨hc, rfl⟩, hnot⟩
      · exact absurd (.inr ⟨hu, rfl⟩) hnot
      · rw [if_pos hc]
        rfl
  have hsame : name ∈ (none : Option ℕ).map (objectName id) ↔ name ∈ b.objects id ∧ name ∉ b.objects id :=
    iff_of_false (by simp) fun h => h.2 h.1
  cases mode with
  | committed =>
    simp only [select] at hselect
    rw [if_neg (not_not.mpr (hmode rfl))] at hselect
    split_ifs at hselect
    cases hselect
    exact hsame
  | uncommitted =>
    simp only [select] at hselect
    by_cases hu : b.uploadedRev = 0
    · rw [if_pos hu] at hselect
      cases hselect
    · rw [if_neg hu] at hselect
      cases hselect
      exact hcommit hu
  | latest =>
    simp only [select] at hselect
    by_cases hu : b.uploadedRev ≠ 0
    · rw [if_pos hu] at hselect
      cases hselect
      exact hcommit hu
    · rw [if_neg hu] at hselect
      cases hselect
      exact hsame

theorem select_committed (hu : b.uploadedRev ≠ 0) (hselect : b.select id .committed = .ok (b', discarded)) :
    discarded = some 0 ∧ b'.uploadedRev = 0 ∧ b'.committedRev = b.committedRev := by
  simp only [select, if_pos hu] at hselect
  split_ifs at hselect
  cases hselect
  exact ⟨rfl, rfl, rfl⟩

end Block

namespace Index

variable {idx : Index}

/-- The names the index refers to. -/
def RefersTo (idx : Index) (name : Text) : Prop := ∃ id b, idx.icache id = some b ∧ name ∈ b.objects id

/-- The names are those that are no longer referred to, each of them once. -/
def Exact (before after : Index) (garbage : List Text) : Prop :=
  garbage.Nodup ∧ ∀ name, name ∈ garbage ↔ before.RefersTo name ∧ ¬ after.RefersTo name

theorem nodup_flatMap_objects (h : idx.Consistent) {ids : List Text} (hids : ∀ id ∈ ids, id ∈ idx.blocks) :
    (ids.flatMap fun id => (idx.icache id).elim [] fun b => b.objects id).Nodup ↔ ids.Nodup := by
  have hblock : ∀ id ∈ ids, ∃ b, idx.icache id = some b := fun id hid =>
    Option.ne_none_iff_exists'.mp ((h.mem_blocks id).mp (hids id hid))
  rw [nodup_flatMap]
  constructor
  · rintro ⟨-, hdisjoint⟩
    refine hdisjoint.imp_of_mem ?_
    rintro id id' hid hid' hdisjoint rfl
    obtain ⟨b, hb⟩ := hblock id hid
    have hself : Disjoint (b.objects id) (b.objects id) := by simpa [Function.onFun, hb] using hdisjoint
    rcases h.hasRevision id b hb with hu | hc
    · exact hself (Block.mem_objects_iff.mpr (.inl ⟨hu, rfl⟩)) (Block.mem_objects_iff.mpr (.inl ⟨hu, rfl⟩))
    · exact hself (Block.mem_objects_iff.mpr (.inr ⟨hc, rfl⟩)) (Block.mem_objects_iff.mpr (.inr ⟨hc, rfl⟩))
  · intro hnodup
    refine ⟨fun id hid => ?_, hnodup.imp_of_mem ?_⟩
    · obtain ⟨b, hb⟩ := hblock id hid
      rw [hb]
      exact Block.nodup_objects (h.revisions id b hb)
    · intro id id' hid hid' hne name hname hname'
      obtain ⟨b, hb⟩ := hblock id hid
      obtain ⟨b', hb'⟩ := hblock id' hid'
      dsimp only at hname hname'
      rw [hb] at hname
      rw [hb'] at hname'
      obtain ⟨rev, rfl, -⟩ := Block.exists_rev_of_mem_objects hname
      obtain ⟨rev', heq, -⟩ := Block.exists_rev_of_mem_objects hname'
      exact hne (objectName_injective heq).1

theorem mem_flatMap_objects {ids : List Text} {name : Text} :
    name ∈ ids.flatMap (fun id => (idx.icache id).elim [] fun b => b.objects id) ↔
      ∃ id ∈ ids, ∃ b, idx.icache id = some b ∧ name ∈ b.objects id := by
  rw [mem_flatMap]
  refine exists_congr fun id => and_congr_right fun _ => ?_
  cases idx.icache id with
  | none => simp
  | some b => simp

theorem exact_clear_iff (h : idx.Consistent) : Exact idx idx.clear.2 idx.clear.1 ↔ idx.blocks.Nodup := by
  have hempty : ∀ name, ¬ idx.clear.2.RefersTo name := by
    rintro name ⟨id, b, hb, -⟩
    cases hb
  rw [Exact, and_iff_left, clear, nodup_flatMap_objects h fun _ hid => hid]
  intro name
  rw [and_iff_left (hempty name), clear, mem_flatMap_objects, RefersTo]
  refine exists_congr fun id => ⟨fun hmem => hmem.2, fun hb => ⟨?_, hb⟩⟩
  obtain ⟨b, hb, -⟩ := hb
  rw [h.mem_blocks id, hb]
  exact Option.some_ne_none b

section List

variable {entries : List XBlockIn} {served : List Served}

theorem mem_discardedNames {name : Text} :
    name ∈ discardedNames served ↔ ∃ x ∈ served, name ∈ x.discarded.map (objectName x.id) := by
  simp only [discardedNames, mem_flatMap, Option.mem_toList, Option.mem_def]

theorem eq_of_served_id (hnodup : (served.map Served.id).Nodup) {x y : Served} (hx : x ∈ served) (hy : y ∈ served)
    (hid : x.id = y.id) : x = y :=
  inj_on_of_nodup_map hnodup hx hy hid

theorem nodup_discardedNames (hnodup : (served.map Served.id).Nodup) : (discardedNames served).Nodup := by
  rw [discardedNames, nodup_flatMap]
  refine ⟨fun x _ => ?_, (pairwise_map.mp hnodup).imp fun {x y} hne name hx hy => ?_⟩
  · cases x.discarded <;> simp
  · rw [Option.mem_toList, Option.map_eq_some_iff] at hx hy
    obtain ⟨rev, -, rfl⟩ := hx
    obtain ⟨rev', -, heq⟩ := hy
    exact hne (objectName_injective heq).1.symm

namespace Accepted

variable {garbage : List Text} {idx' : Index} (h : Accepted idx entries served garbage idx')

include h

theorem refersTo_after {name : Text} : idx'.RefersTo name ↔ ∃ x ∈ served, name ∈ x.after.objects x.id := by
  constructor
  · rintro ⟨id, b, hb, hname⟩
    by_cases hid : id ∈ entries.map XBlockIn.id
    · rw [← h.serves.map_id] at hid
      obtain ⟨x, hx, rfl⟩ := mem_map.mp hid
      cases hb.symm.trans (h.after x hx)
      exact ⟨x, hx, hname⟩
    · rw [h.dropped id hid] at hb
      cases hb
  · rintro ⟨x, hx, hname⟩
    exact ⟨x.id, x.after, h.after x hx, hname⟩

theorem refersTo_before (hidx : idx.Consistent) {name : Text} : idx.RefersTo name ↔
    (∃ x ∈ served, name ∈ x.before.objects x.id) ∨
      name ∈ (idx.blocks.filter (· ∉ entries.map XBlockIn.id)).flatMap fun id =>
        (idx.icache id).elim [] fun b => b.objects id := by
  rw [mem_flatMap_objects]
  constructor
  · rintro ⟨id, b, hb, hname⟩
    by_cases hid : id ∈ entries.map XBlockIn.id
    · rw [← h.serves.map_id] at hid
      obtain ⟨x, hx, rfl⟩ := mem_map.mp hid
      obtain ⟨-, -, -, -, hbefore, -⟩ := h.serves.of_mem.1 x hx
      cases hb.symm.trans hbefore
      exact .inl ⟨x, hx, hname⟩
    · have hmem : id ∈ idx.blocks := (hidx.mem_blocks id).mpr (by rw [hb]; exact Option.some_ne_none b)
      exact .inr ⟨id, mem_filter.mpr ⟨hmem, decide_eq_true hid⟩, b, hb, hname⟩
  · rintro (⟨x, hx, hname⟩ | ⟨id, -, b, hb, hname⟩)
    · obtain ⟨-, -, -, -, hbefore, -⟩ := h.serves.of_mem.1 x hx
      exact ⟨x.id, x.before, hbefore, hname⟩
    · exact ⟨id, b, hb, hname⟩

theorem not_dropped {x : Served} (hx : x ∈ served) (rev : ℕ) : objectName x.id rev ∉
    (idx.blocks.filter (· ∉ entries.map XBlockIn.id)).flatMap fun id =>
      (idx.icache id).elim [] fun b => b.objects id := by
  intro hname
  obtain ⟨id, hid, b, -, hname⟩ := mem_flatMap_objects.mp hname
  obtain ⟨rev', heq, -⟩ := Block.exists_rev_of_mem_objects hname
  obtain ⟨rfl, -⟩ := objectName_injective heq
  refine of_decide_eq_true (mem_filter.mp hid).2 ?_
  rw [← h.serves.map_id]
  exact mem_map_of_mem hx

theorem exact_of_noneGivenUp (hidx : idx.Consistent) (hnodup : (served.map Served.id).Nodup)
    (hmode : ∀ entry ∈ entries, entry.mode = .committed → (idx.block entry.id).uploadedRev = 0)
    (hdropped : (idx.blocks.filter (· ∉ entries.map XBlockIn.id)).Nodup) : Exact idx idx' garbage := by
  -- each entry reports what its block loses
  have hlost : ∀ x ∈ served, ∀ name, name ∈ x.discarded.map (objectName x.id) ↔
      name ∈ x.before.objects x.id ∧ name ∉ x.after.objects x.id := by
    intro x hx name
    obtain ⟨entry, hentry, offset, hid, hbefore, hselect⟩ := h.serves.of_mem.1 x hx
    refine Block.mem_discarded_iff (b := { x.before with offset := offset }) (hidx.revisions x.id x.before hbefore)
      hselect fun hcommitted => ?_
    rw [← block_eq hbefore, ← hid]
    exact hmode entry hentry hcommitted
  have hdroppedNodup := (nodup_flatMap_objects hidx fun id hid => (mem_filter.mp hid).1).mpr hdropped
  constructor
  · rw [h.garbage, nodup_append']
    refine ⟨nodup_discardedNames hnodup, hdroppedNodup, fun name hname hname' => ?_⟩
    obtain ⟨x, hx, hname⟩ := mem_discardedNames.mp hname
    obtain ⟨rev, rfl, -⟩ := Block.exists_rev_of_mem_objects ((hlost x hx name).mp hname).1
    exact h.not_dropped hx rev hname'
  · intro name
    rw [h.garbage, mem_append, mem_discardedNames, h.refersTo_before hidx, h.refersTo_after]
    constructor
    · rintro (⟨x, hx, hname⟩ | hname)
      · obtain ⟨hbefore, hafter⟩ := (hlost x hx name).mp hname
        refine ⟨.inl ⟨x, hx, hbefore⟩, ?_⟩
        rintro ⟨y, hy, hyname⟩
        obtain ⟨rev, rfl, -⟩ := Block.exists_rev_of_mem_objects hbefore
        obtain ⟨rev', heq, -⟩ := Block.exists_rev_of_mem_objects hyname
        obtain rfl := eq_of_served_id hnodup hx hy (objectName_injective heq).1
        exact hafter hyname
      · refine ⟨.inr hname, ?_⟩
        rintro ⟨y, hy, hyname⟩
        obtain ⟨rev, rfl, -⟩ := Block.exists_rev_of_mem_objects hyname
        exact h.not_dropped hy rev hname
    · rintro ⟨⟨x, hx, hname⟩ | hname, hafter⟩
      · exact .inl ⟨x, hx, (hlost x hx name).mpr ⟨hname, fun hname' => hafter ⟨x, hx, hname'⟩⟩⟩
      · exact .inr hname

theorem uploadedRev_of_exact (hidx : idx.Consistent) (hnodup : (served.map Served.id).Nodup)
    (hexact : Exact idx idx' garbage) {entry : XBlockIn} (hentry : entry ∈ entries) (hmode : entry.mode = .committed) :
    (idx.block entry.id).uploadedRev = 0 := by
  obtain ⟨x, hx, offset, hid, hbefore, hselect⟩ := h.serves.of_mem.2 entry hentry
  rw [hid, block_eq hbefore]
  by_contra hu
  rw [hmode] at hselect
  obtain ⟨hdiscarded, hzero, hcommitted⟩ := Block.select_committed (b := { x.before with offset := offset }) hu hselect
  have hrev := (hidx.revisions x.id x.before hbefore).resolve_left hu
  -- the upload is lost, but reported under the revision zero
  have hmem : objectName x.id x.before.uploadedRev ∈ garbage := by
    refine (hexact.2 _).mpr ⟨⟨x.id, x.before, hbefore, Block.mem_objects_iff.mpr (.inl ⟨hu, rfl⟩)⟩, fun hafter => ?_⟩
    obtain ⟨y, hy, hname⟩ := h.refersTo_after.mp hafter
    obtain ⟨rev, heq, -⟩ := Block.exists_rev_of_mem_objects hname
    obtain rfl := eq_of_served_id hnodup hx hy (objectName_injective heq).1
    rcases Block.mem_objects_iff.mp hname with ⟨hne, -⟩ | ⟨-, heq⟩
    · exact hne hzero
    · have hcommitted : x.after.committedRev = x.before.committedRev := hcommitted
      have hsame := (objectName_injective heq).2
      omega
  rw [h.garbage, mem_append, mem_discardedNames] at hmem
  rcases hmem with ⟨y, hy, hname⟩ | hname
  · obtain ⟨rev, hrevision, heq⟩ := Option.map_eq_some_iff.mp hname
    obtain ⟨hsame, hrevs⟩ := objectName_injective heq
    obtain rfl := eq_of_served_id hnodup hy hx hsame
    cases hdiscarded.symm.trans hrevision
    exact hu hrevs.symm
  · exact h.not_dropped hx _ hname

theorem exact_iff (hidx : idx.Consistent) (hnodup : (entries.map XBlockIn.id).Nodup) : Exact idx idx' garbage ↔
    (∀ entry ∈ entries, entry.mode = .committed → (idx.block entry.id).uploadedRev = 0) ∧
      (idx.blocks.filter (· ∉ entries.map XBlockIn.id)).Nodup := by
  rw [← h.serves.map_id] at hnodup
  constructor
  · intro hexact
    refine ⟨fun entry hentry hmode => h.uploadedRev_of_exact hidx hnodup hexact hentry hmode, ?_⟩
    have hall := hexact.1
    rw [h.garbage] at hall
    exact (nodup_flatMap_objects hidx fun id hid => (mem_filter.mp hid).1).mp (nodup_append'.mp hall).2.1
  · exact fun hcond => h.exact_of_noneGivenUp hidx hnodup hcond.1 hcond.2

end Accepted

end List

/-- After any operations, the garbage of an accepted list of distinct ids is exact if and only if no
entry gives up an upload for the committed revision and no block that is left out was listed twice;
that of a clearing, if and only if no block was listed twice. -/
theorem garbage_exact_iff (ops : List IndexOp) :
    (∀ entries garbage idx', (entries.map XBlockIn.id).Nodup →
      (Index.run ops).putBlockList entries = (.ok garbage, idx') → (Exact (Index.run ops) idx' garbage ↔
        (∀ entry ∈ entries, entry.mode = .committed → ((Index.run ops).block entry.id).uploadedRev = 0) ∧
          ((Index.run ops).blocks.filter (· ∉ entries.map XBlockIn.id)).Nodup)) ∧
    (Exact (Index.run ops) (Index.run ops).clear.2 (Index.run ops).clear.1 ↔ (Index.run ops).blocks.Nodup) := by
  have hidx := consistent_run ops
  refine ⟨fun entries garbage idx' hnodup hput => ?_, exact_clear_iff hidx⟩
  obtain ⟨served, haccepted⟩ := exists_accepted hnodup hput
  exact haccepted.exact_iff hidx hnodup

theorem garbage_exact_replaced :
    Exact (Index.run [.putBlock ['a'] 1, .putBlockList [⟨['a'], .latest⟩], .putBlock ['a'] 2])
      ((Index.run [.putBlock ['a'] 1, .putBlockList [⟨['a'], .latest⟩], .putBlock ['a'] 2]).putBlockList
        [⟨['a'], .latest⟩]).2 [['a', '.', '1']] :=
  ((garbage_exact_iff _).1 _ _ _ (by decide) (Prod.ext (by decide) rfl)).mpr ⟨by decide, by decide⟩

/-- A block is committed, uploaded again, and listed in the committed mode: the second upload is lost,
and `a.0` is reported in place of `a.2`. -/
theorem garbage_misnamed :
    ((Index.run [.putBlock ['a'] 1, .putBlockList [⟨['a'], .latest⟩], .putBlock ['a'] 2]).putBlockList
        [⟨['a'], .committed⟩]).1 = .ok [['a', '.', '0']] ∧
      ¬ Exact (Index.run [.putBlock ['a'] 1, .putBlockList [⟨['a'], .latest⟩], .putBlock ['a'] 2])
        ((Index.run [.putBlock ['a'] 1, .putBlockList [⟨['a'], .latest⟩], .putBlock ['a'] 2]).putBlockList
          [⟨['a'], .committed⟩]).2 [['a', '.', '0']] := by
  have hput : ((Index.run [.putBlock ['a'] 1, .putBlockList [⟨['a'], .latest⟩], .putBlock ['a'] 2]).putBlockList
      [⟨['a'], .committed⟩]).1 = .ok [['a', '.', '0']] := by decide
  refine ⟨hput, fun hexact => ?_⟩
  obtain ⟨⟨id, b, hb, hname⟩, -⟩ := (hexact.2 ['a', '.', '0']).mp mem_cons_self
  have hzero : ∀ {id rev}, ['a', '.', '0'] = objectName id rev → rev = 0 := fun heq =>
    (@objectName_injective ['a'] _ 0 _ heq).2.symm
  rcases Block.mem_objects_iff.mp hname with ⟨hne, hrev⟩ | ⟨hne, hrev⟩
  · exact hne (hzero hrev)
  · exact hne (hzero hrev)

end Index

end WalG.Blob
