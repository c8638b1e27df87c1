import WalG.Foundation.Bytes

/-! # Sequential readers with a named ending

A reader is the data it will still deliver together with what it reports once the data is used up:
an orderly end of file, or the error at which the source breaks off.
-/
namespace WalG.Foundation
open List

inductive ReadError where
  | eof
  | unexpectedEOF
  | broken
  deriving DecidableEq, Repr

structure Reader where
  data : Bytes
  ending : ReadError
  deriving DecidableEq, Repr

/-- A sequence of fallible steps succeeds step by step. -/
theorem bind_ok {ε α β : Type} {x : Except ε α} {f : α → Except ε β} {b : β}
    (h : (x >>= f) = .ok b) : ∃ a, x = .ok a ∧ f a = .ok b := by
  cases x with
  | error e => cases h
  | ok a => exact ⟨a, rfl, h⟩

theorem ok_bind {ε α β : Type} (a : α) (f : α → Except ε β) : (Except.ok a >>= f) = f a := rfl

theorem bind_of_ok {ε α β : Type} {x : Except ε α} {f : α → Except ε β} {a : α} {b : β} (hx : x = .ok a)
    (hf : f a = .ok b) : (x >>= f) = .ok b := by
  rw [hx]
  exact hf

theorem mapError_ok_iff {ε ε' α : Type} {f : ε → ε'} {x : Except ε α} {a : α} : x.mapError f = .ok a ↔ x = .ok a := by
  cases x <;> simp [Except.mapError]

theorem mapError_error_iff {ε ε' α : Type} {f : ε → ε'} {x : Except ε α} {e : ε'} :
    x.mapError f = .error e ↔ ∃ e', x = .error e' ∧ f e' = e := by
  cases x <;> simp [Except.mapError]

namespace Reader

variable {r s r' : Reader} {w value n : ℕ} {a b bs : Bytes}

/-- A reader that delivers the whole byte string and then ends in order. -/
def ofBytes (bs : Bytes) : Reader := ⟨bs, .eof⟩

/-- The same source, breaking off with `e` after its first `m` bytes. -/
def cut (bs : Bytes) (m : ℕ) (e : ReadError) : Reader := ⟨bs.take m, e⟩

/-- Fill a buffer of `n` bytes. An orderly end inside the buffer is unexpected;
at its very beginning it is the plain end of file. -/
def readFull (r : Reader) (n : ℕ) : Except ReadError (Bytes × Reader) :=
  if n ≤ r.data.length then .ok (r.data.take n, ⟨r.data.drop n, r.ending⟩)
  else if r.data = [] then .error r.ending
  else if r.ending = .eof then .error .unexpectedEOF
  else .error r.ending

/-- Copy `n` bytes to nowhere; a short copy reports the reader's own ending. -/
def discard (r : Reader) (n : ℕ) : Except ReadError Reader :=
  if n ≤ r.data.length then .ok ⟨r.data.drop n, r.ending⟩ else .error r.ending

/-- One fixed-width little-endian field. -/
def readLE (r : Reader) (w : ℕ) : Except ReadError (ℕ × Reader) :=
  match r.readFull w with
  | .error e => .error e
  | .ok (bs, r') => .ok (leNat bs, r')

theorem readFull_append (h : a.length = n) (e : ReadError) : readFull ⟨a ++ b, e⟩ n = .ok (a, ⟨b, e⟩) := by
  subst h
  simp [readFull]

theorem discard_append (h : a.length = n) (e : ReadError) : discard ⟨a ++ b, e⟩ n = .ok ⟨b, e⟩ := by
  subst h
  simp [discard]

theorem readLE_append (w n : ℕ) (b : Bytes) (e : ReadError) :
    readLE ⟨leBytes w n ++ b, e⟩ w = .ok (n % 256 ^ w, ⟨b, e⟩) := by
  simp only [readLE, readFull_append (leBytes_length w n), leNat_leBytes]

theorem readFull_short (h : r.data.length < n) : ∃ e, readFull r n = .error e := by
  have hn : ¬ n ≤ r.data.length := by omega
  simp only [readFull, if_neg hn]
  split_ifs <;> exact ⟨_, rfl⟩

theorem readFull_ok (h : readFull r n = .ok (bs, r')) :
    n ≤ r.data.length ∧ bs = r.data.take n ∧ r' = ⟨r.data.drop n, r.ending⟩ := by
  unfold readFull at h
  split_ifs at h with hn
  · simp only [Except.ok.injEq, Prod.mk.injEq] at h
    exact ⟨hn, h.1.symm, h.2.symm⟩

/-- Whatever is read in full from a source that breaks off early is read the same
from the longer one. -/
theorem readFull_of_isPrefix (h : r.data <+: s.data) (hr : readFull r n = .ok (bs, r')) :
    ∃ s', readFull s n = .ok (bs, s') ∧ r'.data <+: s'.data := by
  obtain ⟨t, ht⟩ := h
  obtain ⟨hn, rfl, rfl⟩ := readFull_ok hr
  refine ⟨⟨s.data.drop n, s.ending⟩, ?_, t, ?_⟩
  · rw [readFull, if_pos (by rw [← ht, length_append]; omega), ← ht, take_append_of_le_length hn]
  · rw [← ht, drop_append_of_le_length hn]

theorem readFull_iff :
    r.readFull n = .ok (bs, r') ↔ bs.length = n ∧ r.data = bs ++ r'.data ∧ r'.ending = r.ending := by
  constructor
  · intro h
    obtain ⟨hle, rfl, rfl⟩ := readFull_ok h
    exact ⟨by rw [length_take, min_eq_left hle], (take_append_drop n r.data).symm, rfl⟩
  · rintro ⟨hlen, hdata, hending⟩
    obtain ⟨data, ending⟩ := r
    obtain ⟨data', ending'⟩ := r'
    obtain rfl : data = bs ++ data' := hdata
    obtain rfl : ending' = ending := hending
    exact readFull_append hlen _

theorem readLE_iff :
    r.readLE w = .ok (value, r') ↔ value < 256 ^ w ∧ r.data = leBytes w value ++ r'.data ∧ r'.ending = r.ending := by
  constructor
  · intro h
    unfold readLE at h
    cases hread : r.readFull w with
    | error e =>
      rw [hread] at h
      cases h
    | ok result =>
      obtain ⟨bs, r₁⟩ := result
      rw [hread] at h
      cases h
      obtain ⟨rfl, hdata, hending⟩ := readFull_iff.mp hread
      exact ⟨leNat_lt bs, by rw [leBytes_leNat, hdata], hending⟩
  · rintro ⟨hlt, hdata⟩
    rw [readLE, readFull_iff.mpr ⟨leBytes_length w value, hdata⟩]
    dsimp only
    rw [leNat_leBytes_of_lt hlt]

theorem readLE_of_isPrefix (h : r.data <+: s.data) (hr : r.readLE w = .ok (value, r')) :
    ∃ s', s.readLE w = .ok (value, s') ∧ r'.data <+: s'.data := by
  obtain ⟨hlt, hdata⟩ := readLE_iff.mp hr
  obtain ⟨s', hs, hpre⟩ := readFull_of_isPrefix h (readFull_iff.mpr ⟨leBytes_length w value, hdata⟩)
  exact ⟨s', readLE_iff.mpr ⟨hlt, (readFull_iff.mp hs).2⟩, hpre⟩

end Reader

end WalG.Foundation
