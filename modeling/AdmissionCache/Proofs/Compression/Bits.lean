import AdmissionCache.Compression.Bits
import Mathlib.Tactic.Ring

namespace AdmissionCache.Bits

theorem toNat_append (a b : List Bool) : toNat (a ++ b) = toNat a + 2 ^ a.length * toNat b := by
  induction a with
  | nil => simp [toNat]
  | cons bit rest ih =>
    rw [List.cons_append, toNat, toNat, ih, List.length_cons, Nat.pow_succ]
    ring

/-- The lowest bits of a number that has no others. -/
theorem toNat_testBits {k n : Nat} (small : n < 2 ^ k) : toNat ((List.range k).map n.testBit) = n := by
  induction k generalizing n with
  | zero =>
    have zero : n = 0 := by omega
    rw [zero]
    rfl
  | succ k ih =>
    have half : n / 2 < 2 ^ k := by
      rw [Nat.pow_succ] at small
      omega
    have rest : (List.range k).map (n.testBit ∘ Nat.succ) = (List.range k).map (n / 2).testBit :=
      List.map_congr_left fun i _ => Nat.testBit_succ n i
    have low : (n.testBit 0).toNat = n % 2 := by
      rw [Nat.testBit_zero]
      rcases Nat.mod_two_eq_zero_or_one n with even | odd
      · rw [even]; rfl
      · rw [odd]; rfl
    rw [List.range_succ_eq_map, List.map_cons, List.map_map, rest, toNat, ih half, low]
    omega

theorem toNat_ofByte (b : UInt8) : toNat (ofByte b) = b.toNat := toNat_testBits b.toNat_lt

theorem length_ofByte (b : UInt8) : (ofByte b).length = 8 := rfl

theorem length_ofBytes (bytes : List UInt8) : (ofBytes bytes).length = 8 * bytes.length := by
  induction bytes with
  | nil => rfl
  | cons b rest ih =>
    rw [ofBytes, List.flatMap_cons, List.length_append, length_ofByte, List.length_cons]
    rw [ofBytes] at ih
    omega

theorem ofBytes_append (front rest : List UInt8) : ofBytes (front ++ rest) = ofBytes front ++ ofBytes rest :=
  List.flatMap_append

theorem toNat_ofBytes (bytes : List UInt8) : toNat (ofBytes bytes) = littleEndian bytes := by
  induction bytes with
  | nil => rfl
  | cons b rest ih =>
    rw [ofBytes, List.flatMap_cons, toNat_append, toNat_ofByte, length_ofByte, littleEndian, ← ih]
    rfl

theorem take?_append {n : Nat} (front rest : List Bool) (whole : front.length = n) :
    take? n (front ++ rest) = some (toNat front, rest) := by
  have taken : (front ++ rest).take n = front := by rw [← whole, List.take_left]
  have left : (front ++ rest).drop n = rest := by rw [← whole, List.drop_left]
  rw [take?, taken, left]
  exact if_pos whole

/-- Whole bytes are taken from the bits as the number that they stand for. -/
theorem take?_ofBytes {n : Nat} (front rest : List UInt8) (whole : 8 * front.length = n) :
    take? n (ofBytes (front ++ rest)) = some (littleEndian front, ofBytes rest) := by
  rw [ofBytes_append, take?_append _ _ ((length_ofBytes front).trans whole), toNat_ofBytes]

theorem takeBytes?_append {n : Nat} (front rest : List UInt8) (whole : front.length = n) :
    takeBytes? n (front ++ rest) = some (front, rest) := by
  have taken : (front ++ rest).take n = front := by rw [← whole, List.take_left]
  have left : (front ++ rest).drop n = rest := by rw [← whole, List.drop_left]
  rw [takeBytes?, taken, left]
  exact if_pos whole

theorem length_toLittleEndian (count n : Nat) : (toLittleEndian count n).length = count := by
  induction count generalizing n with
  | zero => rfl
  | succ count ih => rw [toLittleEndian, List.length_cons, ih]

theorem littleEndian_toLittleEndian (count n : Nat) : littleEndian (toLittleEndian count n) = n % 256 ^ count := by
  induction count generalizing n with
  | zero => rw [Nat.pow_zero, Nat.mod_one]; rfl
  | succ count ih =>
    have low : (UInt8.ofNat n).toNat = n % 256 := rfl
    rw [toLittleEndian, littleEndian, ih, low, Nat.pow_succ, Nat.mul_comm (256 ^ count), Nat.mod_mul]

theorem takeLittleEndian?_append (count n : Nat) (rest : List UInt8) :
    takeLittleEndian? count (toLittleEndian count n ++ rest) = some (n % 256 ^ count, rest) := by
  rw [takeLittleEndian?, takeBytes?_append _ rest (length_toLittleEndian count n), ← littleEndian_toLittleEndian]
  rfl

end AdmissionCache.Bits
