import Mathlib.Algebra.BigOperators.Group.Finset.Basic

/-!
# Big-endian bytes

A number written as a fixed count of bytes, most significant first, and read
back.  Writing keeps the low bytes of the number and drops what does not
fit; reading a list of bytes gives a number below `256` to the power of its
length, so a number that fits comes back unchanged.  Bytes read in two parts
compare as the whole: first the high parts, and on a tie the low ones.
-/

namespace BigEndian

/-- The `width` bytes of `value`, most significant first; what does not fit
in them is dropped. -/
def toBeBytes : Nat → Nat → List UInt8
  | 0, _ => []
  | width + 1, value => toBeBytes width (value / 256) ++ [UInt8.ofNat value]

/-- The number that `bytes` spell, most significant first. -/
def fromBeBytes (bytes : List UInt8) : Nat :=
  bytes.foldl (fun acc byte => acc * 256 + byte.toNat) 0

@[simp] theorem length_toBeBytes : ∀ (width value : Nat), (toBeBytes width value).length = width
  | 0, _ => rfl
  | width + 1, value => by simp [toBeBytes, length_toBeBytes width]

@[simp] theorem fromBeBytes_nil : fromBeBytes [] = 0 := rfl

theorem fromBeBytes_append_singleton (bytes : List UInt8) (byte : UInt8) :
    fromBeBytes (bytes ++ [byte]) = fromBeBytes bytes * 256 + byte.toNat := by
  simp [fromBeBytes, List.foldl_append]

/-- The low `width + 1` bytes of a number: its lowest byte, and the low
`width` bytes of the rest. -/
theorem mod_pow_succ_eq (value width : Nat) :
    value % 256 ^ (width + 1) = value % 256 + 256 * (value / 256 % 256 ^ width) := by
  rw [Nat.pow_succ, Nat.mul_comm (256 ^ width) 256, Nat.mod_mul]

/-- Reading back the bytes of a number gives its low `width` bytes. -/
theorem fromBeBytes_toBeBytes : ∀ (width value : Nat), fromBeBytes (toBeBytes width value) = value % 256 ^ width
  | 0, value => by simp [toBeBytes, Nat.mod_one]
  | width + 1, value => by
      rw [toBeBytes, fromBeBytes_append_singleton, fromBeBytes_toBeBytes width, UInt8.toNat_ofNat',
        mod_pow_succ_eq]
      omega

/-- A number that fits in `width` bytes comes back unchanged. -/
theorem fromBeBytes_toBeBytes_of_lt {width value : Nat} (fits : value < 256 ^ width) :
    fromBeBytes (toBeBytes width value) = value := by
  rw [fromBeBytes_toBeBytes, Nat.mod_eq_of_lt fits]

/-- The bytes of a number depend only on its low `width` bytes. -/
theorem toBeBytes_mod : ∀ (width value : Nat), toBeBytes width (value % 256 ^ width) = toBeBytes width value
  | 0, _ => rfl
  | width + 1, value => by
      -- dropping the high bytes first changes neither the low byte nor the bytes above it
      have split := mod_pow_succ_eq value width
      have high : value % 256 ^ (width + 1) / 256 % 256 ^ width = value / 256 % 256 ^ width := by
        rw [split, show (value % 256 + 256 * (value / 256 % 256 ^ width)) / 256 = value / 256 % 256 ^ width by
          omega, Nat.mod_mod]
      have low : UInt8.ofNat (value % 256 ^ (width + 1)) = UInt8.ofNat value := by
        apply UInt8.toNat.inj
        rw [UInt8.toNat_ofNat', UInt8.toNat_ofNat', split]
        omega
      rw [toBeBytes, toBeBytes, low, ← toBeBytes_mod width (value % 256 ^ (width + 1) / 256), high,
        toBeBytes_mod width (value / 256)]

/-- Bytes read as a number are below `256` to the power of their count. -/
theorem fromBeBytes_lt : ∀ bytes : List UInt8, fromBeBytes bytes < 256 ^ bytes.length := by
  intro bytes
  induction bytes using List.reverseRecOn with
  | nil => simp
  | append_singleton bytes byte inductionHypothesis =>
      rw [fromBeBytes_append_singleton, List.length_append, List.length_singleton, Nat.pow_succ]
      have := byte.toNat_lt_size
      have : UInt8.size = 256 := rfl
      omega

/-- Reading bytes in two parts: the front part shifted past the back. -/
theorem fromBeBytes_append (front back : List UInt8) :
    fromBeBytes (front ++ back) = fromBeBytes front * 256 ^ back.length + fromBeBytes back := by
  induction back using List.reverseRecOn with
  | nil => simp
  | append_singleton back byte inductionHypothesis =>
      rw [← List.append_assoc, fromBeBytes_append_singleton, inductionHypothesis, fromBeBytes_append_singleton,
        List.length_append, List.length_singleton, Nat.pow_succ, Nat.add_mul, Nat.mul_assoc, Nat.add_assoc]

/-- Numbers written with a high and a low digit below `base` compare by the
high digits, and on a tie by the low ones. -/
theorem compare_mul_add {high low otherHigh otherLow base : Nat} (lowLt : low < base) (otherLowLt : otherLow < base) :
    compare (high * base + low) (otherHigh * base + otherLow) = (compare high otherHigh).then (compare low otherLow) := by
  rcases lt_trichotomy high otherHigh with below | rfl | above
  · have lower : high * base + low < otherHigh * base + otherLow :=
      calc high * base + low < (high + 1) * base := by rw [Nat.succ_mul]; omega
        _ ≤ otherHigh * base := Nat.mul_le_mul_right base below
        _ ≤ otherHigh * base + otherLow := Nat.le_add_right _ _
    rw [Nat.compare_eq_lt.mpr lower, Nat.compare_eq_lt.mpr below]
    rfl
  · rw [Nat.compare_eq_eq.mpr rfl]
    simp [Ordering.then, compare, compareOfLessAndEq]
  · have higher : otherHigh * base + otherLow < high * base + low :=
      calc otherHigh * base + otherLow < (otherHigh + 1) * base := by rw [Nat.succ_mul]; omega
        _ ≤ high * base := Nat.mul_le_mul_right base above
        _ ≤ high * base + low := Nat.le_add_right _ _
    rw [Nat.compare_eq_gt.mpr higher, Nat.compare_eq_gt.mpr above]
    rfl

/-- Bytes split at the same place from the end compare as their front parts,
and on a tie as their back parts. -/
theorem compare_fromBeBytes_append {front back otherFront otherBack : List UInt8}
    (sameBack : back.length = otherBack.length) :
    compare (fromBeBytes (front ++ back)) (fromBeBytes (otherFront ++ otherBack)) =
      (compare (fromBeBytes front) (fromBeBytes otherFront)).then (compare (fromBeBytes back) (fromBeBytes otherBack)) := by
  rw [fromBeBytes_append, fromBeBytes_append, ← sameBack]
  exact compare_mul_add (fromBeBytes_lt back) (sameBack ▸ fromBeBytes_lt otherBack)

end BigEndian
