import WalG.Backup.DeltaMap

/-! # Relations and the paths of their files

The tablespace of a path is decided by the names that occur anywhere in it.
-/
namespace WalG.Backup
open Foundation PageFile

/-- A file of a relation: the oid and the version directory of its tablespace, unless it is the default one,
its database, the relation and the number of the segment. -/
structure RelPath where
  tablespace : Option (Oid × Text)
  dbNode : Oid
  relNode : Oid
  segment : Option ℕ
  version_no_slash : ∀ s ∈ tablespace, '/' ∉ s.2

namespace RelPath

variable (p : RelPath)

def below : Text :=
  match p.tablespace with
  | none => (defaultTablespace ++ '/' :: decimal p.dbNode.toNat) ++ '/' :: relName p.relNode p.segment
  | some (oid, version) =>
    (((nonDefaultTablespace ++ '/' :: decimal oid.toNat) ++ '/' :: version) ++ '/' :: decimal p.dbNode.toNat) ++
      '/' :: relName p.relNode p.segment

/-- The relation under which changes are recorded. -/
def node : RelFileNode where
  spcNode := match p.tablespace with
    | none => defaultSpcNode
    | some (oid, _) => oid
  dbNode := p.dbNode
  relNode := p.relNode

end RelPath

def inDirectory (directory below : Text) : Text := directory ++ '/' :: below

/-- The forms of the paths of relation files, for any numerals. -/
inductive IsRelPath : Text → Prop
  | base {db name : Text} : isNumeral db = true → (pagedFilenameMatch name).isSome = true →
      IsRelPath ((defaultTablespace ++ '/' :: db) ++ '/' :: name)
  | tablespace {oid version db name : Text} : isNumeral oid = true → '/' ∉ version → isNumeral db = true →
      (pagedFilenameMatch name).isSome = true →
      IsRelPath ((((nonDefaultTablespace ++ '/' :: oid) ++ '/' :: version) ++ '/' :: db) ++ '/' :: name)

/-- The path is mapped to its relation, and a bitmap recorded for the relation is found. -/
def FindsRelation (path : Text) (p : RelPath) : Prop :=
  getRelFileNodeFrom path = .ok p.node ∧
    ∀ deltaMap : PagedFileDeltaMap, deltaMap p.node ≠ none → getDeltaBitmapFor deltaMap path ≠ .error .noBitmapFound

/-- A file of pages with a numeric name is taken for a paged file if it stands at the path of one. -/
def RecognizesPaged (directory below : Text) : Prop :=
  ∀ size, size ≠ 0 → size % databasePageSize = 0 →
    (pagedFilenameMatch (basePath (inDirectory directory below))).isSome = true →
      (isPagedFile size (inDirectory directory below) = true ↔ IsRelPath below)

theorem inDirectory_below_base (directory : Text) {p : RelPath} (h : p.tablespace = none) :
    inDirectory directory p.below = (((directory ++ ['/']) ++ defaultTablespace) ++ '/' :: decimal p.dbNode.toNat) ++
      '/' :: relName p.relNode p.segment := by
  rw [RelPath.below, h, inDirectory]
  simp

theorem inDirectory_below_tablespace (directory : Text) {p : RelPath} {oid : Oid} {version : Text}
    (h : p.tablespace = some (oid, version)) :
    inDirectory directory p.below =
      (((((directory ++ ['/']) ++ nonDefaultTablespace) ++ '/' :: decimal oid.toNat) ++ '/' :: version) ++
        '/' :: decimal p.dbNode.toNat) ++ '/' :: relName p.relNode p.segment := by
  rw [RelPath.below, h, inDirectory]
  simp

/-- The relation a path is mapped to is found in every delta map that has it. -/
theorem findsRelation_iff {path : Text} {p : RelPath} {node : RelFileNode} (h : getRelFileNodeFrom path = .ok node) :
    FindsRelation path p ↔ node = p.node := by
  constructor
  · rintro ⟨hnode, -⟩
    exact Except.ok.inj (h.symm.trans hnode)
  · rintro rfl
    refine ⟨h, fun deltaMap hsome => ?_⟩
    obtain ⟨bitmap, hbitmap⟩ := Option.ne_none_iff_exists'.mp hsome
    rw [getDeltaBitmapFor, h]
    dsimp only
    rw [hbitmap]
    cases getRelFileIDFrom path with
    | error e => rintro ⟨⟩
    | ok relFileID => rintro ⟨⟩

theorem findsRelation_below_iff (directory : Text) (p : RelPath) : FindsRelation (inDirectory directory p.below) p ↔
    ∀ oid version, p.tablespace = some (oid, version) →
      contains (inDirectory directory p.below) defaultTablespace = false ∨ oid = defaultSpcNode := by
  cases ht : p.tablespace with
  | none =>
    have hnode := getRelFileNodeFrom_base (directory ++ ['/']) p.dbNode p.relNode p.segment
    rw [← inDirectory_below_base directory ht] at hnode
    refine iff_of_true ((findsRelation_iff hnode).mpr ?_) (by simp)
    rw [RelPath.node, ht]
  | some s =>
    obtain ⟨oid, version⟩ := s
    have hnode := getRelFileNodeFrom_tablespace (directory ++ ['/']) oid (p.version_no_slash _ ht) p.dbNode p.relNode
      p.segment (inDirectory_below_tablespace directory ht)
    rw [findsRelation_iff hnode, RelPath.node, ht]
    cases contains (inDirectory directory p.below) defaultTablespace with
    | false => simp
    | true => simp [eq_comm]

theorem contains_of_isRelPath {below : Text} (h : IsRelPath below) (directory : Text) :
    (contains (inDirectory directory below) defaultTablespace ||
      contains (inDirectory directory below) nonDefaultTablespace) = true := by
  rw [Bool.or_eq_true]
  cases h with
  | @base db name _ _ =>
    left
    have hsplit : inDirectory directory ((defaultTablespace ++ '/' :: db) ++ '/' :: name) =
        (directory ++ ['/']) ++ (defaultTablespace ++ ('/' :: db ++ '/' :: name)) := by simp [inDirectory]
    rw [hsplit]
    exact contains_append _ _ _
  | @tablespace oid version db name _ _ _ _ =>
    right
    have hsplit : inDirectory directory
          ((((nonDefaultTablespace ++ '/' :: oid) ++ '/' :: version) ++ '/' :: db) ++ '/' :: name) =
        (directory ++ ['/']) ++
          (nonDefaultTablespace ++ ('/' :: oid ++ '/' :: version ++ '/' :: db ++ '/' :: name)) := by
      simp [inDirectory]
    rw [hsplit]
    exact contains_append _ _ _

theorem recognizesPaged_iff (directory below : Text) : RecognizesPaged directory below ↔
    ((pagedFilenameMatch (basePath (inDirectory directory below))).isSome = true → ¬ IsRelPath below →
      contains (inDirectory directory below) defaultTablespace = false ∧
        contains (inDirectory directory below) nonDefaultTablespace = false) := by
  have hpaged (size : ℕ) (hne : size ≠ 0) (hpages : size % databasePageSize = 0)
      (hname : (pagedFilenameMatch (basePath (inDirectory directory below))).isSome = true) :
      isPagedFile size (inDirectory directory below) =
        (contains (inDirectory directory below) defaultTablespace ||
          contains (inDirectory directory below) nonDefaultTablespace) := by
    simp [isPagedFile, hne, hpages, hname]
  constructor
  · intro h hname hnot
    have hpage : databasePageSize ≠ 0 := by decide
    have hfalse : ¬ isPagedFile databasePageSize (inDirectory directory below) = true := fun htrue =>
      hnot ((h _ hpage (Nat.mod_self _) hname).mp htrue)
    rw [hpaged _ hpage (Nat.mod_self _) hname, Bool.not_eq_true] at hfalse
    exact Bool.or_eq_false_iff.mp hfalse
  · intro h size hne hpages hname
    rw [hpaged size hne hpages hname]
    by_cases hrel : IsRelPath below
    · exact iff_of_true (contains_of_isRelPath hrel directory) hrel
    · rw [Bool.or_eq_false_iff.mpr (h hname hrel)]
      exact iff_of_false Bool.false_ne_true hrel

/-- Paths below a data directory are mapped to their relations and recognized as paged files exactly if the
names of the tablespaces occur only where they belong. -/
theorem relation_paths_iff (directory below : Text) :
    ((∀ p : RelPath, p.below = below → FindsRelation (inDirectory directory below) p) ∧
      RecognizesPaged directory below) ↔
    ((∀ p : RelPath, p.below = below → ∀ oid version, p.tablespace = some (oid, version) →
        contains (inDirectory directory below) defaultTablespace = false ∨ oid = defaultSpcNode) ∧
      ((pagedFilenameMatch (basePath (inDirectory directory below))).isSome = true → ¬ IsRelPath below →
        contains (inDirectory directory below) defaultTablespace = false ∧
          contains (inDirectory directory below) nonDefaultTablespace = false)) := by
  refine and_congr (forall_congr' fun p => forall_congr' ?_) (recognizesPaged_iff directory below)
  rintro rfl
  exact findsRelation_below_iff directory p

theorem tablespaceFile_no_slash : ∀ s ∈ (some (16385, "PG_13_202007201".toList) : Option (Oid × Text)), '/' ∉ s.2 := by
  decide +kernel

def tablespaceFile : RelPath where
  tablespace := some (16385, "PG_13_202007201".toList)
  dbNode := 16384
  relNode := 16390
  segment := none
  version_no_slash := tablespaceFile_no_slash

/-- The blocks recorded for the file's relation only. -/
def recordedBlocks : PagedFileDeltaMap := fun node => if node = tablespaceFile.node then some {7} else none

/-- Below a directory called `database` the file is mapped to the default tablespace, so the blocks recorded for it
are not found. -/
theorem tablespaceFile_not_found :
    getRelFileNodeFrom (inDirectory "/var/lib/database".toList tablespaceFile.below) = .ok ⟨1663, 16384, 16390⟩ ∧
      tablespaceFile.node = ⟨16385, 16384, 16390⟩ ∧
      getDeltaBitmapFor recordedBlocks (inDirectory "/var/lib/database".toList tablespaceFile.below) =
        .error .noBitmapFound := by
  have hnode : getRelFileNodeFrom (inDirectory "/var/lib/database".toList tablespaceFile.below) =
      .ok ⟨1663, 16384, 16390⟩ := by decide +kernel
  refine ⟨hnode, rfl, ?_⟩
  rw [getDeltaBitmapFor, hnode]
  rfl

end WalG.Backup
