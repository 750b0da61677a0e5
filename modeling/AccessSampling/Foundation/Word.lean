import Mathlib.Data.List.Basic
import Mathlib.Data.List.Range
import Mathlib.Algebra.Order.Ring.Nat
import Mathlib.Tactic.Ring
import Mathlib.Tactic.Linarith

/-!
# Bytes, machine words and power-of-two masks

* `leNat` / `leBytes` — little-endian decoding and encoding.
* `loadBytes` — a multi-byte load from a memory that may refuse an address.
* `toNat_and_mask64`, `toNat_and_mask32` — masking with `2 ^ k - 1` is reduction
  modulo `2 ^ k`, in both widths a counter is kept in.
* `toNat_ofNat_sub` — the wrapping difference of two 64-bit truncated counters
  is the difference of the counters, as long as that fits.
-/

namespace AccessSampling.Foundation

universe u

/-! ### Little-endian numbers -/

/-- The number a little-endian byte string stands for. -/
def leNat : List UInt8 → ℕ
  | [] => 0
  | b :: bs => b.toNat + 256 * leNat bs

/-- The `w` low bytes of a number, least significant first. -/
def leBytes : ℕ → ℕ → List UInt8
  | 0, _ => []
  | w + 1, n => UInt8.ofNat n :: leBytes w (n / 256)

@[simp] theorem length_leBytes (w n : ℕ) : (leBytes w n).length = w := by
  induction w generalizing n with
  | zero => rfl
  | succ w ih => simp [leBytes, ih]

theorem leNat_lt (bs : List UInt8) : leNat bs < 256 ^ bs.length := by
  induction bs with
  | nil => simp [leNat]
  | cons b bs ih =>
      have hb := b.toNat_lt
      rw [leNat, List.length_cons, pow_succ]
      omega

theorem leNat_leBytes (w n : ℕ) : leNat (leBytes w n) = n % 256 ^ w := by
  induction w generalizing n with
  | zero => simp [leBytes, leNat, Nat.mod_one]
  | succ w ih =>
      rw [leBytes, leNat, ih, pow_succ', Nat.mod_mul]
      simp

/-- The stretch of a byte string that starts where `pre` ends. -/
theorem slice_append {α : Type u} (pre : List α) {mid : List α} (post : List α) {off w : ℕ}
    (hpre : pre.length = off) (hmid : mid.length = w) :
    ((pre ++ (mid ++ post)).drop off).take w = mid := by
  subst hpre hmid
  rw [List.drop_left, List.take_left]

/-! ### Loads -/

/-- The `n` cells from `off` on; `none` when the memory refuses one of them. -/
def loadBytes {α : Type u} (load : ℕ → Option α) : ℕ → ℕ → Option (List α)
  | _, 0 => some []
  | off, n + 1 => (load off).bind fun b => (loadBytes load (off + 1) n).map (b :: ·)

/-- A load from a memory that holds `bs` at `off`. -/
theorem loadBytes_eq_some {α : Type u} {load : ℕ → Option α} {bs : List α} {off : ℕ}
    (h : ∀ i < bs.length, load (off + i) = bs[i]?) :
    loadBytes load off bs.length = some bs := by
  induction bs generalizing off with
  | nil => rfl
  | cons b bs ih =>
      have hhead : load off = some b := h 0 (by simp)
      have htail : loadBytes load (off + 1) bs.length = some bs := by
        refine ih fun i hi => ?_
        have := h (i + 1) (by simpa using hi)
        rwa [← Nat.add_assoc, Nat.add_right_comm] at this
      rw [List.length_cons, loadBytes, hhead, htail]
      rfl

/-- A load of a stretch of `bs`, from a memory that holds `bs`. -/
theorem loadBytes_slice {α : Type u} {load : ℕ → Option α} {bs : List α} {off n : ℕ}
    (h : ∀ i < bs.length, load i = bs[i]?) (hfit : off + n ≤ bs.length) :
    loadBytes load off n = some ((bs.drop off).take n) := by
  have hlen : ((bs.drop off).take n).length = n := by
    rw [List.length_take, List.length_drop]
    omega
  have hload : loadBytes load off ((bs.drop off).take n).length
      = some ((bs.drop off).take n) := by
    refine loadBytes_eq_some fun i hi => ?_
    rw [hlen] at hi
    rw [h (off + i) (by omega), List.getElem?_take_of_lt hi, List.getElem?_drop]
  rwa [hlen] at hload

/-! ### Masks and conversions -/

theorem toNat_and_mask64 (x m : UInt64) {k : ℕ} (hm : m.toNat = 2 ^ k - 1) :
    (x &&& m).toNat = x.toNat % 2 ^ k := by
  rw [UInt64.toNat_and, hm, Nat.and_two_pow_sub_one_eq_mod]

theorem toNat_and_mask32 (x m : UInt32) {k : ℕ} (hm : m.toNat = 2 ^ k - 1) :
    (x &&& m).toNat = x.toNat % 2 ^ k := by
  rw [UInt32.toNat_and, hm, Nat.and_two_pow_sub_one_eq_mod]

/-- Reading an unsigned 32-bit number as an `int`, when it is small enough. -/
theorem toInt_toInt32 {x : UInt32} (h : x.toNat < 2 ^ 31) : x.toInt32.toInt = x.toNat :=
  BitVec.toInt_eq_toNat_of_lt (by
    have : x.toInt32.toBitVec.toNat = x.toNat := rfl
    omega)

/-- Converting a non-negative `int` to `uint64_t` keeps its value. -/
theorem toNat_toInt64_toUInt64 {x : Int32} {n : ℕ} (h : x.toInt = n) :
    x.toInt64.toUInt64.toNat = n := by
  have hle : 0 ≤ x.toInt64 := by
    rw [Int64.le_iff_toInt_le, Int32.toInt_toInt64, h]
    exact Int.natCast_nonneg n
  rw [Int64.toNat_toUInt64_of_le hle, Int64.toNatClampNeg, Int32.toInt_toInt64, h]
  rfl

/-- The wrapping difference of two counters kept modulo `2 ^ 64` is their
difference, as long as that is below `2 ^ 64`. -/
theorem toNat_ofNat_sub {a b : ℕ} (hab : a ≤ b) (hlt : b - a < 2 ^ 64) :
    (UInt64.ofNat b - UInt64.ofNat a).toNat = b - a := by
  obtain ⟨d, rfl⟩ := Nat.exists_eq_add_of_le hab
  rw [UInt64.ofNat_add, UInt64.add_comm, UInt64.add_sub_cancel, Nat.add_sub_cancel_left]
  rw [Nat.add_sub_cancel_left] at hlt
  exact UInt64.toNat_ofNat_of_lt' hlt

/-- Two counters less than `2 ^ 64` apart are equal when they are equal modulo
`2 ^ 64`. -/
theorem ofNat_inj_of_le {a b : ℕ} (hab : a ≤ b) (hlt : b - a < 2 ^ 64) :
    UInt64.ofNat a = UInt64.ofNat b ↔ a = b := by
  refine ⟨fun h => ?_, fun h => congrArg _ h⟩
  have hsub := toNat_ofNat_sub hab hlt
  rw [h, UInt64.sub_self] at hsub
  have hzero : (0 : UInt64).toNat = 0 := rfl
  omega

end AccessSampling.Foundation
