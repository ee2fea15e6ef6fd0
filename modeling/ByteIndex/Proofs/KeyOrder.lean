import ByteIndex.Key
import Mathlib.Algebra.Order.Ring.Nat
import Mathlib.Tactic.Ring
/-!
# The order of keys

A key compares as its bytes do, in either form. For two words this says that numbers of one width
and their digits, most significant first, are in the same order.
-/
namespace ByteIndex

namespace Bytes

theorem compare_eq_lt_iff (first second : Bytes) : compare first second = .lt ↔ first < second := by
  induction first generalizing second with
  | nil =>
    cases second with
    | nil => simp
    | cons byte rest => simp
  | cons byte rest ih =>
    cases second with
    | nil => simp
    | cons other others =>
      rw [List.compare_cons_cons, Ordering.then_eq_lt, ih, List.cons_lt_cons_iff,
        Std.compare_eq_lt, Std.compare_eq_iff_eq]

theorem toNat_append_digits (bytes : Bytes) (high : Nat) :
    bytes.foldl (fun n byte => 256 * n + byte.toNat) high =
      256 ^ bytes.length * high + toNat bytes := by
  induction bytes generalizing high with
  | nil => simp [toNat]
  | cons byte rest ih =>
    calc rest.foldl (fun n byte => 256 * n + byte.toNat) (256 * high + byte.toNat)
        = 256 ^ rest.length * (256 * high + byte.toNat) + toNat rest := ih _
      _ = 256 ^ (rest.length + 1) * high +
            (256 ^ rest.length * byte.toNat + toNat rest) := by ring
      _ = 256 ^ (byte :: rest).length * high + toNat (byte :: rest) := by
          rw [← ih byte.toNat]
          simp [toNat]

theorem toNat_cons (byte : UInt8) (rest : Bytes) :
    toNat (byte :: rest) = 256 ^ rest.length * byte.toNat + toNat rest := by
  rw [← toNat_append_digits]
  simp [toNat]

theorem toNat_lt (bytes : Bytes) : toNat bytes < 256 ^ bytes.length := by
  induction bytes with
  | nil => simp [toNat]
  | cons byte rest ih =>
    have hbyte : byte.toNat + 1 ≤ 256 := byte.toNat_lt
    calc toNat (byte :: rest)
        < 256 ^ rest.length * byte.toNat + 256 ^ rest.length := by
          rw [toNat_cons]
          exact Nat.add_lt_add_left ih _
      _ = 256 ^ rest.length * (byte.toNat + 1) := by ring
      _ ≤ 256 ^ rest.length * 256 := Nat.mul_le_mul_left _ hbyte
      _ = 256 ^ (byte :: rest).length := by rw [List.length_cons, pow_succ]

theorem shift_digits (width n : Nat) : n >>> (8 * width) = n / 256 ^ width := by
  rw [Nat.shiftRight_eq_div_pow, pow_mul]
  rfl

theorem bigEndian_add_mul (width high n : Nat) :
    bigEndian width (256 ^ width * high + n) = bigEndian width n := by
  induction width generalizing high with
  | zero => rfl
  | succ width ih =>
    have hpos : 0 < 256 ^ width := Nat.pow_pos (by decide)
    have hsplit : 256 ^ (width + 1) * high + n = 256 ^ width * (256 * high) + n := by ring
    have hdigit : UInt8.ofNat ((256 ^ width * (256 * high) + n) / 256 ^ width) =
        UInt8.ofNat (n / 256 ^ width) := by
      apply UInt8.toNat_inj.mp
      rw [Nat.mul_add_div hpos, UInt8.toNat_ofNat', UInt8.toNat_ofNat']
      exact Nat.mul_add_mod _ _ _
    simp only [bigEndian, shift_digits, hsplit, hdigit, ih]

theorem bigEndian_toNat (bytes : Bytes) : bigEndian bytes.length (toNat bytes) = bytes := by
  induction bytes with
  | nil => rfl
  | cons byte rest ih =>
    have hpos : 0 < 256 ^ rest.length := Nat.pow_pos (by decide)
    have hdigit :
        (256 ^ rest.length * byte.toNat + toNat rest) / 256 ^ rest.length = byte.toNat := by
      rw [Nat.mul_add_div hpos, Nat.div_eq_of_lt (toNat_lt rest), Nat.add_zero]
    simp only [List.length_cons, bigEndian, shift_digits, toNat_cons, hdigit, bigEndian_add_mul, ih,
      UInt8.ofNat_toNat]

/-- The high digit decides, and behind equal ones the low digits do. -/
theorem compare_digits {low first second : Nat} (unit : Nat) (hlow : low < unit) {other : Nat}
    (hother : other < unit) :
    compare (unit * first + low) (unit * second + other) =
      (compare first second).then (compare low other) := by
  rcases Nat.lt_trichotomy first second with hlt | rfl | hgt
  · have hless : unit * first + low < unit * second + other := by
      calc unit * first + low < unit * (first + 1) := by rw [Nat.mul_succ]; omega
        _ ≤ unit * second := Nat.mul_le_mul_left _ hlt
        _ ≤ unit * second + other := Nat.le_add_right _ _
    rw [Nat.compare_eq_lt.mpr hless, Nat.compare_eq_lt.mpr hlt]
    rfl
  · rw [Nat.compare_eq_eq.mpr rfl]
    simp [compare, compareOfLessAndEq]
  · have hmore : unit * second + other < unit * first + low := by
      calc unit * second + other < unit * (second + 1) := by rw [Nat.mul_succ]; omega
        _ ≤ unit * first := Nat.mul_le_mul_left _ hgt
        _ ≤ unit * first + low := Nat.le_add_right _ _
    rw [Nat.compare_eq_gt.mpr hmore, Nat.compare_eq_gt.mpr hgt]
    rfl

theorem compare_bigEndian (width first second : Nat) :
    compare (bigEndian width first) (bigEndian width second) =
      compare (first % 256 ^ width) (second % 256 ^ width) := by
  induction width with
  | zero => simp [bigEndian, Nat.mod_one]
  | succ width ih =>
    have hpos : 0 < 256 ^ width := Nat.pow_pos (by decide)
    have hdigits (n : Nat) :
        n % 256 ^ (width + 1) = 256 ^ width * (n / 256 ^ width % 256) + n % 256 ^ width := by
      rw [pow_succ, Nat.mod_mul, Nat.add_comm]
    rw [hdigits first, hdigits second,
      compare_digits _ (Nat.mod_lt _ hpos) (Nat.mod_lt _ hpos), ← ih, bigEndian, bigEndian,
      List.compare_cons_cons, shift_digits, shift_digits, UInt8.compare_eq_toNat_compare_toNat,
      UInt8.toNat_ofNat', UInt8.toNat_ofNat']

end Bytes

namespace Key

theorem bytes_word {bytes : Bytes} (h : bytes.length = wordBytes) :
    (Key.inline (UInt64.ofNat (Bytes.toNat bytes))).bytes = bytes := by
  have hlt := Bytes.toNat_lt bytes
  rw [h] at hlt
  have hword : (UInt64.ofNat (Bytes.toNat bytes)).toNat = Bytes.toNat bytes := by
    rw [UInt64.toNat_ofNat']
    exact Nat.mod_eq_of_lt hlt
  rw [Key.bytes, hword, ← h, Bytes.bigEndian_toNat]

theorem bytes_ofBytes (bytes : Bytes) : (ofBytes bytes).bytes = bytes := by
  unfold ofBytes
  split
  · rename_i hfits
    simp only [fitsWord, Bool.and_eq_true, beq_iff_eq] at hfits
    exact bytes_word hfits.1
  · rfl

theorem bytes_copy (key : Key) : key.copy.bytes = key.bytes := by
  cases key with
  | inline word => rfl
  | owned content => exact bytes_ofBytes content

theorem compare_eq (first second : Key) :
    compare first second = compare first.bytes second.bytes := by
  cases first with
  | owned content => cases second <;> rfl
  | inline word =>
    cases second with
    | owned content => rfl
    | inline other =>
      have hword (word : UInt64) : word.toNat % 256 ^ wordBytes = word.toNat :=
        Nat.mod_eq_of_lt word.toNat_lt
      change compare word other = compare (Bytes.bigEndian wordBytes word.toNat)
        (Bytes.bigEndian wordBytes other.toNat)
      rw [Bytes.compare_bigEndian, hword, hword, UInt64.compare_eq_toNat_compare_toNat]

theorem compare_eq_lt_iff (first second : Key) :
    compare first second = .lt ↔ first.bytes < second.bytes := by
  rw [compare_eq, Bytes.compare_eq_lt_iff]

theorem compare_eq_gt_iff (first second : Key) :
    compare first second = .gt ↔ second.bytes < first.bytes := by
  rw [compare_eq, Std.OrientedOrd.eq_swap, Ordering.swap_eq_gt, Bytes.compare_eq_lt_iff]

theorem compare_eq_eq_iff (first second : Key) :
    compare first second = .eq ↔ first.bytes = second.bytes := by
  rw [compare_eq, Std.compare_eq_iff_eq]

end Key
end ByteIndex
