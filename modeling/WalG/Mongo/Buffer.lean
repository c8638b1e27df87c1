import WalG.Foundation.Bytes

/-! # The buffers of the oplog archiver

Operations are gathered in a temporary file or in memory.
-/
namespace WalG.Mongo
open Foundation List

/-- The temporary file with its position, and the counted unread bytes. -/
structure FileBuffer where
  content : Bytes := []
  offset : ℕ := 0
  len : ℤ := 0
  reading : Bool := false

namespace FileBuffer

def reader (fb : FileBuffer) : FileBuffer := { fb with offset := 0, reading := true }

def reset (fb : FileBuffer) : FileBuffer := { fb with len := 0, content := [], offset := 0, reading := false }

/-- A write before the buffer is reset fails. -/
def write (fb : FileBuffer) (p : Bytes) : Option FileBuffer :=
  if fb.reading then none
  else some { fb with
    content := fb.content.take fb.offset ++ p ++ fb.content.drop (fb.offset + p.length)
    offset := fb.offset + p.length
    len := fb.len + p.length }

def read (fb : FileBuffer) (n : ℕ) : Bytes × FileBuffer :=
  let p := (fb.content.drop fb.offset).take n
  (p, { fb with offset := fb.offset + p.length, len := fb.len - p.length })

end FileBuffer

structure MemoryBuffer where
  buffer : Bytes := []
  reading : Bool := false

namespace MemoryBuffer

def reader (mb : MemoryBuffer) : MemoryBuffer := { mb with reading := true }

def reset (mb : MemoryBuffer) : MemoryBuffer := { mb with reading := false, buffer := [] }

def write (mb : MemoryBuffer) (p : Bytes) : Option MemoryBuffer :=
  if mb.reading then none else some { mb with buffer := mb.buffer ++ p }

def read (mb : MemoryBuffer) (n : ℕ) : Bytes × MemoryBuffer :=
  (mb.buffer.take n, { mb with buffer := mb.buffer.drop n })

end MemoryBuffer

inductive Buffer
  | file (fb : FileBuffer)
  | memory (mb : MemoryBuffer)

inductive BufferKind
  | file
  | memory

namespace Buffer

def newBuffer : BufferKind → Buffer
  | .file => file {}
  | .memory => memory {}

def write : Buffer → Bytes → Option Buffer
  | file fb, p => (fb.write p).map file
  | memory mb, p => (mb.write p).map memory

def reader : Buffer → Buffer
  | file fb => file fb.reader
  | memory mb => memory mb.reader

def read : Buffer → ℕ → Bytes × Buffer
  | file fb, n => (fb.read n).map id file
  | memory mb, n => (mb.read n).map id memory

def reset : Buffer → Buffer
  | file fb => file fb.reset
  | memory mb => memory mb.reset

def len : Buffer → ℤ
  | file fb => fb.len
  | memory mb => mb.buffer.length

/-- Reads of any positive sizes, until one gives nothing. -/
def readAll (chunk : ℕ → ℕ) : ℕ → Buffer → Bytes × Buffer
  | 0, b => ([], b)
  | fuel + 1, b =>
    let (p, b) := b.read (chunk fuel + 1)
    if p = [] then ([], b)
    else
      let (rest, b) := readAll chunk fuel b
      (p ++ rest, b)

/-- The buffer holds the bytes and can be written. -/
def Filled : Buffer → Bytes → Prop
  | file fb, bytes => fb.content = bytes ∧ fb.offset = bytes.length ∧ fb.len = bytes.length ∧ fb.reading = false
  | memory mb, bytes => mb.buffer = bytes ∧ mb.reading = false

/-- The bytes are left to be read. -/
def Unread : Buffer → Bytes → Prop
  | file fb, bytes => fb.content.drop fb.offset = bytes
  | memory mb, bytes => mb.buffer = bytes

variable {b : Buffer} {bytes : Bytes}

theorem filled_newBuffer (kind : BufferKind) : (newBuffer kind).Filled [] := by
  cases kind with
  | file => exact ⟨rfl, rfl, rfl, rfl⟩
  | memory => exact ⟨rfl, rfl⟩

theorem filled_reset (b : Buffer) : b.reset.Filled [] := by
  cases b with
  | file fb => exact ⟨rfl, rfl, rfl, rfl⟩
  | memory mb => exact ⟨rfl, rfl⟩

theorem Filled.len_eq (h : b.Filled bytes) : b.len = bytes.length := by
  cases b with
  | file fb => exact h.2.2.1
  | memory mb => exact congrArg (fun l => (length l : ℤ)) h.1

theorem Filled.write (h : b.Filled bytes) (p : Bytes) : ∃ b', b.write p = some b' ∧ b'.Filled (bytes ++ p) := by
  cases b with
  | file fb =>
    obtain ⟨hcontent, hoffset, hlen, hreading⟩ := h
    refine ⟨_, congrArg (Option.map file) (if_neg (by rw [hreading]; exact Bool.false_ne_true)), ?_, ?_, ?_, hreading⟩
    · dsimp only
      rw [hcontent, hoffset, take_length, drop_eq_nil_of_le (Nat.le_add_right _ _), append_nil]
    · dsimp only
      rw [hoffset, length_append]
    · dsimp only
      rw [hlen, length_append, Nat.cast_add]
  | memory mb =>
    obtain ⟨hbuffer, hreading⟩ := h
    refine ⟨_, congrArg (Option.map memory) (if_neg (by rw [hreading]; exact Bool.false_ne_true)), ?_, hreading⟩
    rw [hbuffer]

theorem Filled.reader (h : b.Filled bytes) : b.reader.Unread bytes := by
  cases b with
  | file fb => exact h.1
  | memory mb => exact h.1

theorem Unread.read (h : b.Unread bytes) (n : ℕ) :
    (b.read n).1 = bytes.take n ∧ (b.read n).2.Unread (bytes.drop n) := by
  cases b with
  | file fb =>
    have h : fb.content.drop fb.offset = bytes := h
    refine ⟨congrArg (take n) h, ?_⟩
    change fb.content.drop (fb.offset + ((fb.content.drop fb.offset).take n).length) = _
    rw [h, ← drop_drop, h, length_take]
    rcases le_total n bytes.length with hn | hn
    · rw [min_eq_left hn]
    · rw [min_eq_right hn, drop_eq_nil_of_le le_rfl, drop_eq_nil_of_le hn]
  | memory mb =>
    have h : mb.buffer = bytes := h
    exact ⟨congrArg (take n) h, congrArg (drop n) h⟩

theorem Unread.readAll (h : b.Unread bytes) (chunk : ℕ → ℕ) {fuel : ℕ} (hfuel : bytes.length < fuel) :
    (b.readAll chunk fuel).1 = bytes := by
  induction fuel generalizing b bytes with
  | zero => exact absurd hfuel (Nat.not_lt_zero _)
  | succ fuel ih =>
    obtain ⟨hread, hrest⟩ := h.read (chunk fuel + 1)
    rw [Buffer.readAll]
    dsimp only
    rw [hread]
    split_ifs with hnil
    · cases bytes with
      | nil => rfl
      | cons x bytes => simp at hnil
    · have hpos : 0 < bytes.length := length_pos_iff.mpr fun h => hnil (by rw [h]; rfl)
      have hlt : (bytes.drop (chunk fuel + 1)).length < fuel := by
        rw [length_drop]
        omega
      rw [ih hrest hlt, take_append_drop]

end Buffer

end WalG.Mongo
