import Mathlib.Data.Prod.Lex
import Mathlib.Order.Lattice
import WalG.Foundation.Text

/-! # Oplog timestamps and archives

A timestamp is a second and a counter within it, in lexicographic order.
-/
namespace WalG.Mongo
open Foundation

@[ext] structure Timestamp where
  ts : ℕ
  inc : ℕ
  deriving DecidableEq

namespace Timestamp

def key (t : Timestamp) : ℕ ×ₗ ℕ := toLex (t.ts, t.inc)

theorem key_injective : Function.Injective key := by
  intro a b h
  have h' : (a.ts, a.inc) = (b.ts, b.inc) := h
  exact Timestamp.ext (congrArg Prod.fst h') (congrArg Prod.snd h')

instance : LinearOrder Timestamp := LinearOrder.lift' key key_injective

instance : Zero Timestamp := ⟨⟨0, 0⟩⟩

theorem lt_iff {a b : Timestamp} : a < b ↔ a.ts < b.ts ∨ a.ts = b.ts ∧ a.inc < b.inc :=
  Prod.Lex.toLex_lt_toLex

protected theorem zero_le (t : Timestamp) : 0 ≤ t := by
  rw [← not_lt, lt_iff]
  rintro (h | ⟨-, h⟩)
  · exact Nat.not_lt_zero _ h
  · exact Nat.not_lt_zero _ h

theorem le_zero {t : Timestamp} : t ≤ 0 ↔ t = 0 :=
  ⟨fun h => le_antisymm h t.zero_le, fun h => h.le⟩

end Timestamp

def lessTS (ots1 ots2 : Timestamp) : Bool :=
  if ots1.ts < ots2.ts then true
  else if ots1.ts > ots2.ts then false
  else ots1.inc < ots2.inc

@[simp] theorem lessTS_eq (ots1 ots2 : Timestamp) : lessTS ots1 ots2 = decide (ots1 < ots2) := by
  rw [lessTS, eq_comm, ← Bool.coe_iff_coe, decide_eq_true_iff, Timestamp.lt_iff]
  split_ifs with hlt hgt
  · simp [hlt]
  · simp only [iff_false]
    omega
  · rw [decide_eq_true_iff]
    omega

def maxTS (ots1 ots2 : Timestamp) : Timestamp := if lessTS ots1 ots2 then ots2 else ots1

theorem maxTS_eq (ots1 ots2 : Timestamp) : maxTS ots1 ots2 = max ots1 ots2 := by
  rw [maxTS, lessTS_eq, max_def_lt]
  simp only [decide_eq_true_iff]

inductive ArchiveType
  | oplog
  | gap
  deriving DecidableEq

/-- An archive starts not after it ends. -/
structure Archive where
  startTS : Timestamp
  endTS : Timestamp
  ext : Text
  type : ArchiveType
  start_le_end : startTS ≤ endTS
  deriving DecidableEq

/-- A name with the end before the start is malformed. -/
def newArchive (startTS endTS : Timestamp) (ext : Text) (type : ArchiveType) : Option Archive :=
  if h : lessTS endTS startTS then none
  else some ⟨startTS, endTS, ext, type, by simpa using h⟩

theorem newArchive_of_le {startTS endTS : Timestamp} (h : startTS ≤ endTS) (ext : Text) (type : ArchiveType) :
    newArchive startTS endTS ext type = some ⟨startTS, endTS, ext, type, h⟩ :=
  dif_neg (by simpa using h)

/-- The start belongs to the archive before. -/
def Archive.isIn (a : Archive) (ts : Timestamp) : Bool :=
  (lessTS a.startTS ts && lessTS ts a.endTS) || a.endTS == ts

theorem Archive.isIn_iff {a : Archive} {ts : Timestamp} :
    a.isIn ts ↔ (a.startTS < ts ∧ ts ≤ a.endTS) ∨ a.endTS = ts := by
  simp only [isIn, lessTS_eq, Bool.or_eq_true, Bool.and_eq_true, decide_eq_true_iff, beq_iff_eq]
  constructor
  · rintro (⟨hstart, hend⟩ | hend)
    · exact .inl ⟨hstart, hend.le⟩
    · exact .inr hend
  · rintro (⟨hstart, hend⟩ | hend)
    · rcases hend.lt_or_eq with hlt | heq
      · exact .inl ⟨hstart, hlt⟩
      · exact .inr heq.symm
    · exact .inr hend

theorem Archive.le_end_of_isIn {a : Archive} {ts : Timestamp} (h : a.isIn ts) : ts ≤ a.endTS := by
  rcases isIn_iff.mp h with h | h
  · exact h.2
  · exact h.ge

end WalG.Mongo
