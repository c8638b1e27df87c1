import WalG.Foundation.Text
import WalG.PageFile.Increment

/-! # Relation files and their paths

A relation is stored in segment files of at most one gigabyte, named by the relation and the number
of the segment.
-/
namespace WalG.PageFile
open Foundation List

variable (root : Text) (db rel oid : Oid) (segment : Option ℕ)

abbrev Oid := UInt32

structure RelFileNode where
  spcNode : Oid
  dbNode : Oid
  relNode : Oid
  deriving DecidableEq, Repr

structure BlockLocation where
  relationFileNode : RelFileNode
  blockNo : UInt32
  deriving DecidableEq, Repr

def defaultTablespace : Text := "base".toList
def nonDefaultTablespace : Text := "pg_tblspc".toList
def defaultSpcNode : Oid := 1663
def relFileSizeBound : ℕ := 2 ^ 30
def blocksInRelFile : ℕ := relFileSizeBound / databasePageSize

/-- The submatches of the file name pattern: digits, then optionally a dot and
more digits. -/
def pagedFilenameMatch (name : Text) : Option (Text × Text) :=
  let digits := name.takeWhile Char.isDigit
  let rest := name.dropWhile Char.isDigit
  if digits = [] then none
  else
    match rest with
    | [] => some (digits, [])
    | '.' :: segment => if isNumeral segment then some (digits, rest) else none
    | _ => none

/-- The basic expectations for a paged file, given its size. -/
def isPagedFile (size : ℕ) (filePath : Text) : Bool :=
  (contains filePath defaultTablespace || contains filePath nonDefaultTablespace) &&
    size ≠ 0 && size % databasePageSize = 0 && (pagedFilenameMatch (basePath filePath)).isSome

theorem isPagedFile_pages {k : ℕ} (hk : k ≠ 0) (filePath : Text) :
    isPagedFile (k * databasePageSize) filePath =
      ((contains filePath defaultTablespace || contains filePath nonDefaultTablespace) &&
        (pagedFilenameMatch (basePath filePath)).isSome) := by
  have hpos : k * databasePageSize ≠ 0 := Nat.mul_ne_zero hk (by decide)
  rw [isPagedFile, Nat.mul_mod_left, decide_eq_true hpos, decide_eq_true rfl, Bool.and_true, Bool.and_true]

inductive RelFileError where
  | cannotParsePath
  | relNode
  | dbNode
  | spcNode
  | relFileID
  | unknownTableSpace
  | indexOutOfRange
  deriving DecidableEq, Repr

/-- The segment number; a name outside the pattern is an index panic. The digits
carry no sign, so the parsed number is not negative. -/
def getRelFileIDFrom (filePath : Text) : Except RelFileError ℕ :=
  match pagedFilenameMatch (basePath filePath) with
  | none => .error .indexOutOfRange
  | some (_, []) => .ok 0
  | some (_, _ :: segment) =>
    match atoi segment with
    | none => .error .relFileID
    | some relFileID => .ok relFileID.toNat

/-- The relation of a path. The tablespace is the default one whenever the path
contains its name, whatever directory that name stands in. -/
def getRelFileNodeFrom (filePath : Text) : Except RelFileError RelFileNode :=
  let (folderPath, name) := splitPath filePath
  let folderPathParts := ((trimSuffix folderPath ['/']).splitOn '/').reverse
  match pagedFilenameMatch name with
  | none => .error .cannotParsePath
  | some (digits, _) =>
    match atoi digits, atoi (folderPathParts.headD []) with
    | none, _ => .error .relNode
    | some _, none => .error .dbNode
    | some relNode, some dbNode =>
      if contains filePath defaultTablespace then
        .ok ⟨defaultSpcNode, .ofInt dbNode, .ofInt relNode⟩
      else if contains filePath nonDefaultTablespace then
        match folderPathParts[2]? with
        | none => .error .indexOutOfRange
        | some part =>
          match atoi part with
          | none => .error .spcNode
          | some spcNode => .ok ⟨.ofInt spcNode, .ofInt dbNode, .ofInt relNode⟩
      else .error .unknownTableSpace

theorem pagedFilenameMatch_decimal (rel : ℕ) :
    pagedFilenameMatch (decimal rel ++ (segment.map fun n => '.' :: decimal n).getD []) =
      some (decimal rel, (segment.map fun n => '.' :: decimal n).getD []) := by
  have hdigits : ∀ c ∈ decimal rel, c.isDigit = true := fun c hc => isDigit_of_mem_decimal hc
  have hne : decimal rel ≠ [] := Nat.toDigits_ne_nil
  unfold pagedFilenameMatch
  cases segment with
  | none =>
    have htake : (decimal rel).takeWhile Char.isDigit = decimal rel :=
      takeWhile_eq_self_iff.mpr hdigits
    have hdrop : (decimal rel).dropWhile Char.isDigit = [] := dropWhile_eq_nil_iff.mpr hdigits
    simp [htake, hdrop, hne]
  | some n =>
    have htake : (decimal rel ++ '.' :: decimal n).takeWhile Char.isDigit = decimal rel := by
      rw [takeWhile_append_of_pos hdigits]
      simp [takeWhile]
    have hdrop : (decimal rel ++ '.' :: decimal n).dropWhile Char.isDigit = '.' :: decimal n := by
      rw [dropWhile_append_of_pos hdigits]
      simp [dropWhile]
    simp [htake, hdrop, hne, isNumeral_decimal]

/-- The name of a relation's file, with the number of the segment if there is one. -/
def relName (rel : Oid) (segment : Option ℕ) : Text :=
  decimal rel.toNat ++ (segment.map fun n => '.' :: decimal n).getD []

theorem slash_notMem_relName : '/' ∉ relName rel segment := by
  have hrel : '/' ∉ decimal rel.toNat := notMem_decimal (by decide)
  unfold relName
  cases segment with
  | none => simpa using hrel
  | some n => simpa [hrel] using notMem_decimal (n := n) (c := '/') (by decide)

theorem atoi_oid : atoi (decimal oid.toNat) = some (oid.toNat : ℤ) :=
  atoi_decimal (lt_of_lt_of_le oid.toNat_lt (by norm_num))

theorem ofInt_toNat : UInt32.ofInt (oid.toNat : ℤ) = oid := by
  have hlt : ((oid.toNat : ℤ) % 2 ^ 32).toNat = oid.toNat := by
    have := oid.toNat_lt
    omega
  rw [UInt32.ofInt, hlt, UInt32.ofNat_toNat]

theorem getRelFileNodeFrom_base :
    getRelFileNodeFrom (((root ++ defaultTablespace) ++ '/' :: decimal db.toNat) ++ '/' :: relName rel segment) =
      .ok ⟨defaultSpcNode, db, rel⟩ := by
  have hdb : '/' ∉ decimal db.toNat := notMem_decimal (by decide)
  have hbase : contains (((root ++ defaultTablespace) ++ '/' :: decimal db.toNat) ++ '/' :: relName rel segment)
      defaultTablespace = true := by
    simp only [append_assoc]
    exact contains_append _ _ _
  simp only [getRelFileNodeFrom, splitPath_append (slash_notMem_relName rel segment), trimSuffix_append, hbase,
    if_true]
  simp only [relName, pagedFilenameMatch_decimal, atoi_oid, splitOn_slash_reverse hdb, headD_cons, ofInt_toNat]

/-- A path in another tablespace; it is taken for one in the default tablespace if it contains that one's name. -/
theorem getRelFileNodeFrom_tablespace {version : Text} (hversion : '/' ∉ version)
    (db rel : Oid) (segment : Option ℕ) {path : Text}
    (hpath : path = ((((root ++ nonDefaultTablespace) ++ '/' :: decimal oid.toNat) ++ '/' :: version) ++
      '/' :: decimal db.toNat) ++ '/' :: relName rel segment) :
    getRelFileNodeFrom path =
      .ok ⟨if contains path defaultTablespace then defaultSpcNode else oid, db, rel⟩ := by
  have hdb : '/' ∉ decimal db.toNat := notMem_decimal (by decide)
  have hoid : '/' ∉ decimal oid.toNat := notMem_decimal (by decide)
  have htblspc : contains path nonDefaultTablespace = true := by
    rw [hpath]
    simp only [append_assoc]
    exact contains_append _ _ _
  have hsplit : splitPath path = (((((root ++ nonDefaultTablespace) ++ '/' :: decimal oid.toNat) ++ '/' :: version) ++
      '/' :: decimal db.toNat) ++ ['/'], relName rel segment) := by
    rw [hpath]
    exact splitPath_append (slash_notMem_relName rel segment)
  simp only [getRelFileNodeFrom, hsplit, trimSuffix_append, htblspc, if_true]
  simp only [relName, pagedFilenameMatch_decimal, atoi_oid, splitOn_slash_reverse hdb, splitOn_slash_reverse hversion,
    splitOn_slash_reverse hoid, headD_cons, ofInt_toNat, getElem?_cons_succ, getElem?_cons_zero]
  cases contains path defaultTablespace <;> rfl

/-- A segment file of a relation, below the data directory: the tablespace (its
oid and version directory, or none for the default one), database, relation and
segment number. Block numbers are 32-bit, so there are 2^15 segments at most. -/
structure SegmentPath where
  tablespace : Option (Oid × Text)
  dbNode : Oid
  relNode : Oid
  segment : Option ℕ
  version_no_slash : ∀ s ∈ tablespace, '/' ∉ s.2
  segment_lt : ∀ n ∈ segment, n < 2 ^ 15

namespace SegmentPath

theorem no_tablespace : ∀ s ∈ (none : Option (Oid × Text)), '/' ∉ s.2 := by simp

def folder (root : Text) (p : SegmentPath) : Text :=
  match p.tablespace with
  | none => (root ++ defaultTablespace) ++ '/' :: decimal p.dbNode.toNat
  | some (oid, version) =>
    (((root ++ nonDefaultTablespace) ++ '/' :: decimal oid.toNat) ++ '/' :: version) ++
      '/' :: decimal p.dbNode.toNat

def name (p : SegmentPath) : Text :=
  decimal p.relNode.toNat ++ (p.segment.map fun n => '.' :: decimal n).getD []

/-- The path of the file in a data directory given with its final slash. -/
def path (root : Text) (p : SegmentPath) : Text := p.folder root ++ '/' :: p.name

def segmentNo (p : SegmentPath) : ℕ := p.segment.getD 0

/-- The relation the path is taken for. -/
def node (root : Text) (p : SegmentPath) : RelFileNode where
  spcNode := match p.tablespace with
    | none => defaultSpcNode
    | some (oid, _) => if contains (p.path root) defaultTablespace then defaultSpcNode else oid
  dbNode := p.dbNode
  relNode := p.relNode

theorem slash_notMem_name (p : SegmentPath) : '/' ∉ p.name := slash_notMem_relName p.relNode p.segment

theorem name_ne_nil (p : SegmentPath) : p.name ≠ [] := by
  unfold name
  simp [decimal, Nat.toDigits_ne_nil]

theorem getRelFileIDFrom_path (p : SegmentPath) : getRelFileIDFrom (p.path root) = .ok p.segmentNo := by
  rw [getRelFileIDFrom, path, basePath_append p.slash_notMem_name p.name_ne_nil, name, pagedFilenameMatch_decimal]
  unfold segmentNo
  cases hs : p.segment with
  | none => rfl
  | some n =>
    have hn : n < 2 ^ 63 := lt_of_lt_of_le (p.segment_lt n hs) (by norm_num)
    simp [atoi_decimal hn]

theorem getRelFileNodeFrom_path (p : SegmentPath) : getRelFileNodeFrom (p.path root) = .ok (p.node root) := by
  unfold node
  cases ht : p.tablespace with
  | none =>
    rw [path, folder, ht]
    exact getRelFileNodeFrom_base root p.dbNode p.relNode p.segment
  | some s =>
    obtain ⟨oid, version⟩ := s
    refine getRelFileNodeFrom_tablespace root oid (p.version_no_slash (oid, version) ht) p.dbNode p.relNode
      p.segment ?_
    rw [path, folder, ht]
    rfl

end SegmentPath

end WalG.PageFile
