/-
Numbers as byte strings, least significant byte first.

* `ofBytes_toBytes` — a number below `256 ^ n` is read back from its `n` bytes;
* `toBytes_ofBytes` — bytes are written again as they were read.
-/
import Mathlib.Data.Nat.Digits.Defs
import Mathlib.Tactic.Ring

namespace LittleEndian

/-- The lowest `n` bytes of a number. -/
def toBytes : Nat → Nat → List UInt8
  | 0, _ => []
  | n + 1, x => UInt8.ofNat (x % 256) :: toBytes n (x / 256)

/-- The number with the given bytes. -/
def ofBytes : List UInt8 → Nat
  | [] => 0
  | b :: bs => b.toNat + 256 * ofBytes bs

@[simp] theorem length_toBytes (n x : Nat) : (toBytes n x).length = n := by
  induction n generalizing x with
  | zero => rfl
  | succ n ih => rw [toBytes, List.length_cons, ih]

theorem ofBytes_toBytes {n x : Nat} (h : x < 256 ^ n) : ofBytes (toBytes n x) = x := by
  induction n generalizing x with
  | zero =>
    rw [pow_zero, Nat.lt_one_iff] at h
    rw [h, toBytes, ofBytes]
  | succ n ih =>
    rw [pow_succ] at h
    have hdiv : x / 256 < 256 ^ n := by omega
    have hbyte : (UInt8.ofNat (x % 256)).toNat = x % 256 := by simp
    rw [toBytes, ofBytes, ih hdiv, hbyte]
    omega

theorem ofBytes_lt (bs : List UInt8) : ofBytes bs < 256 ^ bs.length := by
  induction bs with
  | nil => simp [ofBytes]
  | cons b bs ih =>
    have hb : b.toNat < 256 := b.toNat_lt
    rw [ofBytes, List.length_cons, pow_succ]
    omega

theorem toBytes_ofBytes (bs : List UInt8) : toBytes bs.length (ofBytes bs) = bs := by
  induction bs with
  | nil => rfl
  | cons b bs ih =>
    have hb : b.toNat < 256 := b.toNat_lt
    have hmod : (b.toNat + 256 * ofBytes bs) % 256 = b.toNat := by omega
    have hdiv : (b.toNat + 256 * ofBytes bs) / 256 = ofBytes bs := by omega
    rw [List.length_cons, ofBytes, toBytes, hmod, hdiv, ih, UInt8.ofNat_toNat]

end LittleEndian
