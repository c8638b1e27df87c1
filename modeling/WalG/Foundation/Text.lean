import Mathlib.Tactic
import Mathlib.Data.List.DropRight

/-! # Text operations on paths and decimal numbers

Strings are lists of characters.
-/
namespace WalG.Foundation
open List

variable {dir name : Text} {n : ℕ}

abbrev Text := List Char

instance : LawfulBEq Text := inferInstance

/-- Substring test. -/
def contains (s sub : Text) : Bool :=
  sub.isPrefixOf s || match s with
    | [] => false
    | _ :: s => contains s sub

theorem contains_of_isPrefixOf {s sub : Text} (h : sub.isPrefixOf s) : contains s sub = true := by
  unfold contains
  simp [h]

theorem contains_append (start sub rest : Text) : contains (start ++ (sub ++ rest)) sub = true := by
  induction start with
  | nil =>
    apply contains_of_isPrefixOf
    rw [List.isPrefixOf_iff_prefix]
    exact prefix_append sub rest
  | cons c start ih =>
    rw [cons_append, contains]
    simp [ih]

theorem splitOn_slash_reverse {part : Text} (h : '/' ∉ part) :
    ((dir ++ '/' :: part).splitOn '/').reverse = part :: (dir.splitOn '/').reverse := by
  rw [splitOn_append_cons_self, splitOn_eq_singleton h, reverse_append]
  rfl

def trimSuffix (s suffix : Text) : Text :=
  if suffix.isSuffixOf s then s.take (s.length - suffix.length) else s

def trimPrefix (s start : Text) : Text :=
  if start.isPrefixOf s then s.drop start.length else s

/-- The directory with its final slash, and the file name. -/
def splitPath (s : Text) : Text × Text := (s.rdropWhile (· ≠ '/'), s.rtakeWhile (· ≠ '/'))

/-- The last element of a path; trailing slashes do not count. -/
def basePath (s : Text) : Text :=
  if s = [] then ['.']
  else
    let stripped := s.rdropWhile (· = '/')
    if stripped = [] then ['/'] else stripped.rtakeWhile (· ≠ '/')

def pathExt (path : Text) : Text :=
  let element := path.rtakeWhile (· ≠ '/')
  if '.' ∈ element then '.' :: element.rtakeWhile (· ≠ '.') else []

def getFileExtension (filePath : Text) : Text := (pathExt filePath).drop 1

def trimFileExtension (filePath : Text) : Text := trimSuffix filePath ('.' :: getFileExtension filePath)

theorem rtakeWhile_slash (hname : '/' ∉ name) : (dir ++ '/' :: name).rtakeWhile (· ≠ '/') = name := by
  induction name using reverseRecOn with
  | nil => simp [rtakeWhile]
  | append_singleton name c ih =>
    have hc : c ≠ '/' := by
      rintro rfl
      simp at hname
    have hsplit : dir ++ '/' :: (name ++ [c]) = (dir ++ '/' :: name) ++ [c] := by simp
    rw [hsplit, rtakeWhile_concat_pos _ _ _ (by simpa using hc), ih (fun h => hname (mem_append_left _ h))]

theorem rdropWhile_slash (hname : '/' ∉ name) : (dir ++ '/' :: name).rdropWhile (· ≠ '/') = dir ++ ['/'] := by
  induction name using reverseRecOn with
  | nil => simp
  | append_singleton name c ih =>
    have hc : c ≠ '/' := by
      rintro rfl
      simp at hname
    have hsplit : dir ++ '/' :: (name ++ [c]) = (dir ++ '/' :: name) ++ [c] := by simp
    rw [hsplit, rdropWhile_concat_pos _ _ _ (by simpa using hc), ih (fun h => hname (mem_append_left _ h))]

theorem splitPath_append (hname : '/' ∉ name) : splitPath (dir ++ '/' :: name) = (dir ++ ['/'], name) := by
  rw [splitPath, rdropWhile_slash hname, rtakeWhile_slash hname]

theorem basePath_append (hname : '/' ∉ name) (hne : name ≠ []) : basePath (dir ++ '/' :: name) = name := by
  have hstrip : (dir ++ '/' :: name).rdropWhile (· = '/') = dir ++ '/' :: name := by
    rw [rdropWhile_eq_self_iff]
    intro hl
    have hlast : (dir ++ '/' :: name).getLast hl ∈ name := by
      rw [getLast_append_of_ne_nil _ (by simp), getLast_cons hne]
      exact getLast_mem hne
    intro h
    exact hname (by simpa using (decide_eq_true_iff.mp h) ▸ hlast)
  unfold basePath
  simp only [hstrip, rtakeWhile_slash hname]
  simp

theorem trimSuffix_append (s suffix : Text) : trimSuffix (s ++ suffix) suffix = s := by
  have h : suffix.isSuffixOf (s ++ suffix) = true := by
    rw [isSuffixOf_iff_suffix]
    exact suffix_append s suffix
  simp [trimSuffix, h]

/-- The shortest path to the same place: empty elements and single dots are dropped, and two dots take back
the element before them. -/
def cleanPath (path : Text) : Text :=
  let rooted := path.head? = some '/'
  let elements := (path.splitOn '/').foldl (fun elements element =>
    if element = [] ∨ element = ['.'] then elements
    else if element = ['.', '.'] then
      match elements with
      | [] => if rooted then [] else [element]
      | last :: rest => if last = ['.', '.'] then element :: elements else rest
    else element :: elements) []
  let cleaned := (if rooted then ['/'] else []) ++ ['/'].intercalate elements.reverse
  if cleaned = [] then ['.'] else cleaned

def joinPath (dir name : Text) : Text :=
  if dir ≠ [] then cleanPath (dir ++ '/' :: name) else if name ≠ [] then cleanPath name else []

theorem joinPath_element (hdir : dir ≠ []) (hslash : '/' ∉ dir)
    (hdots : dir ≠ ['.'] ∧ dir ≠ ['.', '.']) (hname : '/' ∉ name) (hback : name ≠ ['.', '.']) :
    joinPath (dir ++ ['/']) name = if name = [] ∨ name = ['.'] then dir else dir ++ '/' :: name := by
  have hsplit : (dir ++ ['/'] ++ '/' :: name).splitOn '/' = [dir, [], name] := by
    rw [append_assoc, singleton_append, splitOn_append_cons_self, ← nil_append ('/' :: name),
      splitOn_append_cons_self, splitOn_eq_singleton hslash, splitOn_eq_singleton hname]
    rfl
  have hrooted : ¬ (dir ++ ['/'] ++ '/' :: name).head? = some '/' := by
    cases dir with
    | nil => exact absurd rfl hdir
    | cons c dir =>
      intro hhead
      cases hhead
      exact hslash mem_cons_self
  rw [joinPath, if_pos (append_ne_nil_of_left_ne_nil hdir _), cleanPath, hsplit]
  simp only [hrooted, if_false, foldl_cons, foldl_nil, hdir, hdots.1, hdots.2, hback, or_self, nil_append]
  by_cases hempty : name = [] ∨ name = ['.']
  · simp [hempty, hdir]
  · simp [hempty, hdir, intercalate]

/-- Lexicographic comparison of strings. -/
def textLess : Text → Text → Bool
  | _, [] => false
  | [], _ :: _ => true
  | c :: s, d :: t => c < d || c = d && textLess s t

theorem textLess_append_iff {a a' b b' : Text} (h : a.length = a'.length) :
    textLess (a ++ b) (a' ++ b') = true ↔ textLess a a' = true ∨ a = a' ∧ textLess b b' = true := by
  induction a generalizing a' with
  | nil =>
    obtain rfl := length_eq_zero_iff.mp h.symm
    simp [textLess]
  | cons c a ih =>
    cases a' with
    | nil => cases h
    | cons c' a' =>
      simp only [cons_append, textLess, Bool.or_eq_true, Bool.and_eq_true, decide_eq_true_eq, ih (Nat.succ.inj h),
        cons.injEq]
      tauto

/-- A nonempty string of decimal digits. -/
def isNumeral (s : Text) : Bool := s ≠ [] ∧ s.all Char.isDigit

/-- Signed decimal parsing into a 64-bit integer. -/
def atoi (s : Text) : Option ℤ :=
  let (sign, digits) := match s with
    | '+' :: ds => ((1 : ℤ), ds)
    | '-' :: ds => (-1, ds)
    | ds => (1, ds)
  let value := sign * Nat.ofDigitChars 10 digits 0
  if isNumeral digits ∧ -2 ^ 63 ≤ value ∧ value < 2 ^ 63 then some value else none

/-- The decimal numeral of a number. -/
def decimal (n : ℕ) : Text := Nat.toDigits 10 n

theorem isDigit_of_mem_decimal {c : Char} (h : c ∈ decimal n) : c.isDigit = true :=
  Nat.isDigit_of_mem_toDigits (by decide) (by decide) h

theorem isNumeral_decimal (n : ℕ) : isNumeral (decimal n) = true := by
  simp only [isNumeral, decide_eq_true_eq, all_eq_true]
  exact ⟨Nat.toDigits_ne_nil, fun c hc => isDigit_of_mem_decimal hc⟩

theorem notMem_decimal {c : Char} (hc : c.isDigit = false) : c ∉ decimal n := by
  intro h
  rw [isDigit_of_mem_decimal h] at hc
  cases hc

theorem atoi_decimal (hn : n < 2 ^ 63) : atoi (decimal n) = some (n : ℤ) := by
  have hvalue : Nat.ofDigitChars 10 (decimal n) 0 = n := Nat.ofDigitChars_ten_toDigits
  have hplus : '+' ∉ decimal n := notMem_decimal (by decide)
  have hminus : '-' ∉ decimal n := notMem_decimal (by decide)
  unfold atoi
  split
  rename_i sign digits h
  split at h
  · rename_i ds hds
    exact absurd (by rw [hds]; exact mem_cons_self) hplus
  · rename_i ds hds
    exact absurd (by rw [hds]; exact mem_cons_self) hminus
  · cases h
    simp only [isNumeral_decimal, hvalue, one_mul, true_and]
    rw [if_pos]
    omega

end WalG.Foundation
