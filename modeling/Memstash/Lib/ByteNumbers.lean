import Memstash.Lib.Streams

/-! Numbers as bytes: big-endian words, and numbers of variable length in groups of seven bits. -/

namespace ByteNumbers

open Streams

/-- The low bytes of a number, the highest of them first. -/
def bigEndian : Nat → Nat → List UInt8
  | 0, _ => []
  | count + 1, n => UInt8.ofNat (n >>> (8 * count)) :: bigEndian count n

/-- The number bytes stand for, the highest first. -/
def ofBigEndian (bytes : List UInt8) : Nat := bytes.foldl (fun n byte => n * 256 + byte.toNat) 0

/-- The most bytes a 64-bit number takes in groups of seven bits. -/
def maxVarintLen64 : Nat := 10

/-- Write a number in groups of seven bits, the lowest first; all but the last are marked. -/
def putGroups : Nat → Nat → List UInt8
  | 0, _ => []
  | room + 1, n =>
    if 0x80 ≤ n then (UInt8.ofNat n ||| 0x80) :: putGroups room (n >>> 7) else [UInt8.ofNat n]

/-- Write a 64-bit number. -/
def putUvarint (n : Nat) : List UInt8 := putGroups maxVarintLen64 n

/-- Read groups of seven bits, from the given group on, into the bits read so far. -/
def readGroups : Nat → Nat → Nat → Reader UInt8 ReadError Nat
  | 0, _, _, _ => .error .overflow
  | _ + 1, i, _, [] => .error (if i > 0 then .unexpectedEof else .eof)
  | room + 1, i, x, byte :: rest =>
    if byte < 0x80 then
      -- The tenth group has a single bit of the 64 left.
      if i = maxVarintLen64 - 1 ∧ byte > 1 then .error .overflow
      else .ok (x ||| byte.toNat <<< (7 * i), rest)
    else readGroups room (i + 1) (x ||| (byte &&& 0x7f).toNat <<< (7 * i)) rest

/-- Read a 64-bit number. -/
def readUvarint : Reader UInt8 ReadError Nat := readGroups maxVarintLen64 0 0

/-- A word has as many bytes as were asked for. -/
@[simp] theorem length_bigEndian (count n : Nat) : (bigEndian count n).length = count := by
  induction count with
  | zero => rfl
  | succ count ih => rw [bigEndian, List.length_cons, ih]

/-- Bytes read as a number on top of what was read before. -/
theorem foldl_bigEndian (count n start : Nat) :
    (bigEndian count n).foldl (fun n byte => n * 256 + byte.toNat) start
      = start * 256 ^ count + n % 256 ^ count := by
  induction count generalizing start with
  | zero => simp [bigEndian, Nat.mod_one]
  | succ count ih =>
    have power : 2 ^ (8 * count) = 256 ^ count := by rw [Nat.pow_mul]
    have top : (UInt8.ofNat (n >>> (8 * count))).toNat = n / 256 ^ count % 256 := by
      rw [UInt8.toNat_ofNat', Nat.shiftRight_eq_div_pow, power]
    rw [bigEndian, List.foldl_cons, ih, top, Nat.pow_succ, Nat.mod_mul]
    ring

/-- A word reads back as the number it was written from, up to its size. -/
theorem ofBigEndian_bigEndian (count n : Nat) : ofBigEndian (bigEndian count n) = n % 256 ^ count := by
  rw [ofBigEndian, foldl_bigEndian, Nat.zero_mul, Nat.zero_add]

/-- The group of a number that more follow: its low seven bits, and the mark. -/
theorem marked_group (n : Nat) :
    ¬ UInt8.ofNat n ||| 0x80 < 0x80 ∧ ((UInt8.ofNat n ||| 0x80) &&& 0x7f).toNat = n % 128 := by
  -- Only the low eight bits count, so there are 256 bytes to look at.
  have each : ∀ low : Fin 256, ¬ UInt8.ofFin low ||| 0x80 < 0x80 ∧
      ((UInt8.ofFin low ||| 0x80) &&& 0x7f).toNat = low.val % 128 := by decide +kernel
  have here := each (UInt8.ofNat n).toFin
  rw [UInt8.ofFin_toFin] at here
  refine ⟨here.1, here.2.trans ?_⟩
  show (UInt8.ofNat n).toNat % 128 = n % 128
  rw [UInt8.toNat_ofNat', Nat.mod_mod_of_dvd n (by norm_num : 128 ∣ 2 ^ 8)]

/-- The bits of a group come above those read before. -/
theorem group_above {x i : Nat} (low : x < 2 ^ (7 * i)) (group : Nat) :
    x ||| group <<< (7 * i) = x + group * 2 ^ (7 * i) := by
  rw [Nat.shiftLeft_eq, Nat.or_comm, Nat.mul_comm, ← Nat.two_pow_add_eq_or_of_lt low, Nat.add_comm]

/-- A single unmarked group reads back on top of the bits read before. -/
theorem reads_last {room i x n : Nat} (unmarked : n < 0x80) (low : x < 2 ^ (7 * i))
    (fits : i = 9 → n ≤ 1) : Reads ReadError.Short (readGroups (room + 1) i x) [UInt8.ofNat n]
      (x + n * 2 ^ (7 * i)) := by
  have byte : (UInt8.ofNat n).toNat = n := by rw [UInt8.toNat_ofNat']; omega
  constructor
  · intro rest
    have plain : UInt8.ofNat n < 0x80 := UInt8.lt_iff_toNat_lt.mpr (by rw [byte]; exact unmarked)
    have allowed : ¬ (i = maxVarintLen64 - 1 ∧ UInt8.ofNat n > 1) := by
      rintro ⟨last, large⟩
      have two : 1 < n := byte ▸ UInt8.lt_iff_toNat_lt.mp large
      have := fits last
      omega
    rw [List.singleton_append, readGroups, if_pos plain, if_neg allowed, byte, group_above low]
  · intro part within strict
    -- Nothing but the empty stream is shorter than one byte.
    have empty : part = [] := by
      rcases List.prefix_cons_iff.mp within with empty | ⟨more, rfl, rest⟩
      · exact empty
      · exact absurd (by rw [List.prefix_nil.mp rest]) strict
    subst empty
    refine ⟨if i > 0 then .unexpectedEof else .eof, ?_, rfl⟩
    unfold ReadError.Short
    split
    · exact .inr rfl
    · exact .inl rfl

/-- A marked group is followed by the others. -/
theorem reads_marked {room i x n : Nat} {groups : List UInt8} {result : Nat}
    (more : Reads ReadError.Short (readGroups room (i + 1) (x + n % 128 * 2 ^ (7 * i))) groups result)
    (low : x < 2 ^ (7 * i)) : Reads ReadError.Short (readGroups (room + 1) i x)
      ((UInt8.ofNat n ||| 0x80) :: groups) result := by
  obtain ⟨marked, bits⟩ := marked_group n
  have step : ∀ rest, readGroups (room + 1) i x ((UInt8.ofNat n ||| 0x80) :: rest)
      = readGroups room (i + 1) (x + n % 128 * 2 ^ (7 * i)) rest := by
    intro rest
    rw [readGroups, if_neg marked, bits, group_above low]
  constructor
  · intro rest
    rw [List.cons_append, step, more.whole]
  · intro part within strict
    rcases List.prefix_cons_iff.mp within with rfl | ⟨rest, rfl, inside⟩
    · refine ⟨if i > 0 then .unexpectedEof else .eof, ?_, rfl⟩
      unfold ReadError.Short
      split
      · exact .inr rfl
      · exact .inl rfl
    · obtain ⟨e, isShort, failed⟩ := more.cut rest inside fun same => strict (by rw [same])
      exact ⟨e, isShort, by rw [step, failed]⟩

/-- Groups of a number read back on top of the bits read before. -/
theorem reads_groups (room : Nat) : ∀ i x n, i + room = 9 → x < 2 ^ (7 * i) →
    n * 2 ^ (7 * i) < 2 ^ 64 →
    Reads ReadError.Short (readGroups (room + 1) i x) (putGroups (room + 1) n) (x + n * 2 ^ (7 * i)) := by
  -- The induction is on the groups there is still room for; the tenth has one bit left.
  induction room with
  | zero =>
    intro i x n last low fits
    obtain rfl : i = 9 := by omega
    have unmarked : n < 0x80 := by omega
    rw [putGroups, if_neg (by omega)]
    exact reads_last unmarked low fun _ => by omega
  | succ room ih =>
    intro i x n inside low fits
    have power : 2 ^ (7 * (i + 1)) = 128 * 2 ^ (7 * i) := by rw [Nat.mul_add, Nat.pow_add, Nat.mul_comm]
    rw [putGroups]
    split
    · -- The low seven bits are read here, the rest of the number in the groups that follow.
      have parts : n = n / 128 * 128 + n % 128 := by omega
      have above : x + n % 128 * 2 ^ (7 * i) < 2 ^ (7 * (i + 1)) := by
        have group : n % 128 < 128 := Nat.mod_lt n (by norm_num)
        nlinarith
      have fitsAbove : n / 128 * 2 ^ (7 * (i + 1)) < 2 ^ 64 := by
        rw [power]
        calc n / 128 * (128 * 2 ^ (7 * i)) = n / 128 * 128 * 2 ^ (7 * i) := by ring
          _ ≤ n * 2 ^ (7 * i) := Nat.mul_le_mul_right _ (Nat.div_mul_le_self n 128)
          _ < 2 ^ 64 := fits
      have more := ih (i + 1) _ (n / 128) (by omega) above fitsAbove
      have total : x + n % 128 * 2 ^ (7 * i) + n / 128 * 2 ^ (7 * (i + 1)) = x + n * 2 ^ (7 * i) := by
        rw [power]
        calc x + n % 128 * 2 ^ (7 * i) + n / 128 * (128 * 2 ^ (7 * i))
            = x + (n / 128 * 128 + n % 128) * 2 ^ (7 * i) := by ring
          _ = x + n * 2 ^ (7 * i) := by rw [← parts]
      rw [total] at more
      rw [Nat.shiftRight_eq_div_pow]
      exact reads_marked more low
    · exact reads_last (by omega) low fun last => absurd last (by omega)

/-- A 64-bit number reads back. -/
theorem reads_uvarint {n : Nat} (fits : n < 2 ^ 64) :
    Reads ReadError.Short readUvarint (putUvarint n) n := by
  have groups := reads_groups 9 0 0 n rfl (by norm_num) (by simpa using fits)
  rw [Nat.mul_zero, Nat.pow_zero, Nat.mul_one, Nat.zero_add] at groups
  exact groups

/-- A number takes at least one byte. -/
theorem putUvarint_ne_nil (n : Nat) : putUvarint n ≠ [] := by
  unfold putUvarint maxVarintLen64 putGroups
  split <;> simp

end ByteNumbers
