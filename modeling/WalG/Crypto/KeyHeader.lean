import WalG.Foundation.PieceReader

/-! # The key headers of the KMS crypters

Both crypters put the encrypted key in front of the data, the one for Yandex in a frame of its own.
-/
namespace WalG.Crypto
open Foundation List

def magic : Bytes := [121, 99, 107, 109, 115]
def schemeVersion : UInt8 := 1

inductive KeyHeaderError where
  | read
  | invalidFormat
  | versionNotSupported
  | invalidSize
  deriving DecidableEq, Repr

def serializeEncryptedKey (encryptedKey : Bytes) : Bytes :=
  magic ++ [schemeVersion] ++ leBytes 4 encryptedKey.length ++ encryptedKey

/-- One call of `Read` with a fresh buffer of `k` bytes; what it does not fill stays zero. For AWS this is
the whole header step, with the configured length. -/
def readBuffer (k : ℕ) (r : PieceReader) : Except KeyHeaderError (Bytes × PieceReader) :=
  match r.read k with
  | (_, true, _) => .error .read
  | (bytes, false, r') => .ok (bytes ++ replicate (k - bytes.length) 0, r')

def deserializeEncryptedKey (r : PieceReader) : Except KeyHeaderError (Bytes × PieceReader) :=
  match readBuffer (magic.length + 1) r with
  | .error e => .error e
  | .ok (magicSchemeBytes, r) =>
    if magicSchemeBytes.take magic.length ≠ magic then .error .invalidFormat
    else if magicSchemeBytes.drop magic.length ≠ [schemeVersion] then .error .versionNotSupported
    else
      match readBuffer 4 r with
      | .error e => .error e
      | .ok (encryptedKeyLenBytes, r) =>
        if 4096 < leNat encryptedKeyLenBytes then .error .invalidSize
        else readBuffer (leNat encryptedKeyLenBytes) r

/-- Calls of `Read` with buffers of these sizes fill each of them and do not report the end. -/
def Fills : List ℕ → PieceReader → Prop
  | [], _ => True
  | k :: ks, r => (r.read k).1.length = k ∧ (r.read k).2.1 = false ∧ Fills ks (r.read k).2.2

/-- The header step for Yandex goes through, whether the header is whole or not: the first call fills its buffer, and
neither it nor the next two report the end, the last of them with a buffer of the length that the bytes of the
second give. -/
def GoesThrough (key : Bytes) (r : PieceReader) : Prop :=
  Fills [6] r ∧ ((r.read 6).2.2.read 4).2.1 = false ∧
    (((r.read 6).2.2.read 4).2.2.read (key.length % 256 ^ ((r.read 6).2.2.read 4).1.length)).2.1 = false

variable {k : ℕ} {r r' : PieceReader} {key payload : Bytes}

theorem readBuffer_eq (k : ℕ) (r : PieceReader) : readBuffer k r = if (r.read k).2.1 then .error .read
    else .ok ((r.read k).1 ++ replicate (k - (r.read k).1.length) 0, (r.read k).2.2) := by
  rcases hread : r.read k with ⟨bytes, ended, r'⟩
  cases ended <;> simp [readBuffer, hread]

theorem read_split (k : ℕ) (r : PieceReader) :
    r.content = (r.read k).1 ++ (r.read k).2.2.content ∧ (r.read k).1.length ≤ k := by
  obtain ⟨hcontent, hle, -⟩ := @PieceReader.read_content k r _ _ _ rfl
  exact ⟨hcontent, hle⟩

theorem readBuffer_error_iff : (∃ e, readBuffer k r = .error e) ↔ (r.read k).2.1 = true := by
  rw [readBuffer_eq]
  split_ifs with h <;> simp [h]

/-- A call that goes through has taken no more than its buffer, which has its length. -/
theorem readBuffer_ok {buffer : Bytes} (h : readBuffer k r = .ok (buffer, r')) :
    (r.read k).2.1 = false ∧ buffer.length = k ∧ r' = (r.read k).2.2 := by
  rw [readBuffer_eq] at h
  split_ifs at h with hend
  cases h
  have hle := (read_split k r).2
  refine ⟨by simpa using hend, ?_, rfl⟩
  rw [length_append, length_replicate]
  omega

theorem readBuffer_recovers_iff (hcontent : r.content = key ++ payload) :
    (∃ r', readBuffer key.length r = .ok (key, r') ∧ r'.content = payload) ↔ Fills [key.length] r := by
  obtain ⟨hsplit, hle⟩ := read_split key.length r
  rw [hcontent] at hsplit
  constructor
  · rintro ⟨r', h, rfl⟩
    obtain ⟨hend, -, rfl⟩ := readBuffer_ok h
    have hlen := congrArg length hsplit
    rw [length_append, length_append] at hlen
    exact ⟨by omega, hend, trivial⟩
  · rintro ⟨hfull, hend, -⟩
    obtain ⟨hkey, hrest⟩ := append_inj hsplit hfull.symm
    refine ⟨_, ?_, hrest.symm⟩
    rw [readBuffer_eq, hend, hfull, Nat.sub_self, ← hkey]
    simp

/-- A first call that leaves its buffer short leaves a zero in the place of the version. -/
theorem deserializeEncryptedKey_of_not_fills (hfills : ¬ Fills [6] r) : ∃ e, deserializeEncryptedKey r = .error e := by
  rw [deserializeEncryptedKey, show magic.length + 1 = 6 from rfl, readBuffer_eq]
  cases hend : (r.read 6).2.1 with
  | true => exact ⟨_, rfl⟩
  | false =>
    have hshort : (r.read 6).1.length < 6 :=
      (read_split 6 r).2.lt_of_ne fun hfull => hfills ⟨hfull, hend, trivial⟩
    have hlast : ((r.read 6).1 ++ replicate (6 - (r.read 6).1.length) 0).getLast? = some 0 := by
      rw [getLast?_append, getLast?_replicate, if_neg (by omega), Option.some_or]
    rw [if_neg Bool.false_ne_true]
    dsimp only
    split_ifs with hmagic hversion
    · exact ⟨_, rfl⟩
    · exact ⟨_, rfl⟩
    · rw [← take_append_drop magic.length (_ ++ _), not_not.mp hmagic, not_not.mp hversion] at hlast
      cases hlast

theorem leNat_append_zeros (bs : Bytes) (z : ℕ) : leNat (bs ++ replicate z 0) = leNat bs := by
  induction bs with
  | nil =>
    induction z with
    | zero => rfl
    | succ z ih => simpa [replicate_succ, leNat] using ih
  | cons b bs ih => rw [cons_append, leNat, ih, leNat]

theorem take_leBytes {i w : ℕ} (h : i ≤ w) (n : ℕ) : (leBytes w n).take i = leBytes i n := by
  induction w generalizing i n with
  | zero => rw [Nat.le_zero.mp h, take_zero, leBytes]
  | succ w ih =>
    cases i with
    | zero => rfl
    | succ i => rw [leBytes, take_succ_cons, ih (Nat.le_of_succ_le_succ h), leBytes]

/-- A length of which only some bytes are read is taken to be what they give. -/
theorem leNat_read {n : ℕ} {rest : Bytes} (h : r.content <+: leBytes 4 n ++ rest) :
    leNat ((r.read 4).1 ++ replicate (4 - (r.read 4).1.length) 0) = n % 256 ^ (r.read 4).1.length := by
  obtain ⟨hsplit, hle⟩ := read_split 4 r
  have hprefix : (r.read 4).1 <+: leBytes 4 n ++ rest := by
    rw [hsplit] at h
    exact (prefix_append _ _).trans h
  have hbytes := prefix_iff_eq_take.mp hprefix
  rw [take_append_of_le_length (by rwa [leBytes_length]), take_leBytes hle] at hbytes
  rw [leNat_append_zeros, hbytes, leNat_leBytes, leBytes_length]

section Frame

variable (hkey : key.length ≤ 4096) (hstart : r.content <+: serializeEncryptedKey key ++ payload)
  (hfills : Fills [6] r)

include hstart hfills

theorem read_magic : (r.read 6).1 = magic ++ [schemeVersion] ∧
    (r.read 6).2.2.content <+: leBytes 4 key.length ++ (key ++ payload) := by
  obtain ⟨rest, hrest⟩ := hstart
  have hsplit : (r.read 6).1 ++ ((r.read 6).2.2.content ++ rest) =
      (magic ++ [schemeVersion]) ++ (leBytes 4 key.length ++ (key ++ payload)) := by
    rw [← append_assoc, ← (read_split 6 r).1, hrest]
    simp [serializeEncryptedKey]
  obtain ⟨hmagic, htail⟩ := append_inj hsplit hfills.1
  exact ⟨hmagic, rest, htail⟩

include hkey

/-- Once the magic is read, the length is taken from the bytes that the second call returns. -/
theorem deserializeEncryptedKey_of_fills :
    deserializeEncryptedKey r = if ((r.read 6).2.2.read 4).2.1 then .error .read
      else readBuffer (key.length % 256 ^ ((r.read 6).2.2.read 4).1.length) ((r.read 6).2.2.read 4).2.2 := by
  obtain ⟨hmagic, htail⟩ := read_magic hstart hfills
  have hlen := leNat_read htail
  generalize hread : (r.read 6).2.2.read 4 = second at hlen ⊢
  have hsmall : ¬ 4096 < key.length % 256 ^ second.1.length := not_lt.mpr ((Nat.mod_le _ _).trans hkey)
  rw [deserializeEncryptedKey, show magic.length + 1 = 6 from rfl, readBuffer_eq, hfills.2.1, hmagic]
  cases hend : second.2.1 <;> simp [magic, readBuffer_eq 4, hread, hend, hlen, hsmall]

omit hfills in
theorem deserializeEncryptedKey_error_iff : (∃ e, deserializeEncryptedKey r = .error e) ↔ ¬ GoesThrough key r := by
  by_cases hfills : Fills [6] r
  · rw [deserializeEncryptedKey_of_fills hkey hstart hfills, GoesThrough, and_iff_right hfills]
    cases ((r.read 6).2.2.read 4).2.1 with
    | true => simp
    | false => simp [readBuffer_error_iff]
  · exact iff_of_true (deserializeEncryptedKey_of_not_fills hfills) fun h => hfills h.1

end Frame

theorem deserializeEncryptedKey_recovers_iff (hkey : key.length ≤ 4096)
    (hcontent : r.content = serializeEncryptedKey key ++ payload) :
    (∃ r', deserializeEncryptedKey r = .ok (key, r') ∧ r'.content = payload) ↔ Fills [6, 4, key.length] r := by
  by_cases hfills : Fills [6] r
  · have heq := deserializeEncryptedKey_of_fills hkey
      (show r.content <+: serializeEncryptedKey key ++ payload by rw [hcontent]) hfills
    have hsplit : (r.read 6).1 ++ (r.read 6).2.2.content =
        (magic ++ [schemeVersion]) ++ (leBytes 4 key.length ++ (key ++ payload)) := by
      rw [← (read_split 6 r).1, hcontent]
      simp [serializeEncryptedKey]
    obtain ⟨hsplit₂, hle₂⟩ := read_split 4 (r.read 6).2.2
    rw [(append_inj hsplit hfills.1).2] at hsplit₂
    rw [heq]
    constructor
    · rintro ⟨r', h, rfl⟩
      split_ifs at h with hend₂
      obtain ⟨hend₃, hlen, rfl⟩ := readBuffer_ok h
      rw [← hlen] at hend₃ hsplit₂
      obtain ⟨hsplit₃, hle₃⟩ := read_split key.length ((r.read 6).2.2.read 4).2.2
      -- every call returns at most its buffer, and together they have taken the whole header
      rw [hsplit₃] at hsplit₂
      have htotal := congrArg length hsplit₂
      simp only [length_append, leBytes_length] at htotal
      exact ⟨hfills.1, hfills.2.1, by omega, by simpa using hend₂, by omega, hend₃, trivial⟩
    · rintro ⟨-, -, hfull₂, hend₂, hfills₃⟩
      obtain ⟨-, hrest⟩ := append_inj hsplit₂ (by rw [leBytes_length, hfull₂])
      rw [hend₂, if_neg Bool.false_ne_true, hfull₂, Nat.mod_eq_of_lt (by omega)]
      exact (readBuffer_recovers_iff hrest.symm).mpr hfills₃
  · refine iff_of_false ?_ fun h => hfills ⟨h.1, h.2.1, trivial⟩
    rintro ⟨r', h, -⟩
    obtain ⟨e, he⟩ := deserializeEncryptedKey_of_not_fills hfills
    cases he.symm.trans h

/-- The header step recovers the key and stops before the payload if and only if every call of `Read` fills its
buffer. A header that is cut short is rejected if and only if for AWS the call reports the end, and for Yandex the
calls do not go through. -/
theorem keyHeader_recovered_iff (key payload : Bytes) (r : PieceReader) :
    (r.content = key ++ payload →
      ((∃ r', readBuffer key.length r = .ok (key, r') ∧ r'.content = payload) ↔ Fills [key.length] r)) ∧
    (r.content.length < key.length → ((∃ e, readBuffer key.length r = .error e) ↔ (r.read key.length).2.1 = true)) ∧
    (key.length ≤ 4096 → r.content = serializeEncryptedKey key ++ payload →
      ((∃ r', deserializeEncryptedKey r = .ok (key, r') ∧ r'.content = payload) ↔ Fills [6, 4, key.length] r)) ∧
    (key.length ≤ 4096 → r.content <+: serializeEncryptedKey key → r.content ≠ serializeEncryptedKey key →
      ((∃ e, deserializeEncryptedKey r = .error e) ↔ ¬ GoesThrough key r)) :=
  ⟨readBuffer_recovers_iff, fun _ => readBuffer_error_iff, deserializeEncryptedKey_recovers_iff,
    fun hkey hstart _ => deserializeEncryptedKey_error_iff hkey
      (show r.content <+: serializeEncryptedKey key ++ [] by rwa [append_nil])⟩

/-- A key of two bytes whose second byte comes later is read as another key, the frame is refused if its first byte
comes alone, and a header without its last byte is accepted. -/
theorem keyHeader_short_reads : (PieceReader.mk [[7], [8, 9]] false).content = [7, 8] ++ [9] ∧
      readBuffer 2 ⟨[[7], [8, 9]], false⟩ = .ok ([7, 0], ⟨[[8, 9]], false⟩) ∧
    (PieceReader.mk [[121], [99, 107, 109, 115, 1, 2, 0, 0, 0, 7, 8, 9]] false).content =
      serializeEncryptedKey [7, 8] ++ [9] ∧
      deserializeEncryptedKey ⟨[[121], [99, 107, 109, 115, 1, 2, 0, 0, 0, 7, 8, 9]], false⟩ =
        .error .invalidFormat ∧
    (PieceReader.mk [[121, 99, 107, 109, 115, 1, 2, 0, 0, 0, 7]] false).content =
      (serializeEncryptedKey [7, 8]).dropLast ∧
      deserializeEncryptedKey ⟨[[121, 99, 107, 109, 115, 1, 2, 0, 0, 0, 7]], false⟩ =
        .ok ([7, 0], ⟨[], false⟩) :=
  ⟨rfl, rfl, rfl, rfl, rfl, rfl⟩

end WalG.Crypto
