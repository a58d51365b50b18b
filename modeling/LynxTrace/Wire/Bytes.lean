import LynxTrace.Wire.Varint

/-!
# Wire.Bytes — fixed-width little-endian integers as byte lists
-/

namespace LynxTrace.Wire

/-- The little-endian value of a byte list. -/
def leNat : List UInt8 → ℕ
  | [] => 0
  | b :: bs => b.toNat + 256 * leNat bs

/-- The `n` low bytes of `v`, least significant first. -/
def leBytes : ℕ → ℕ → List UInt8
  | 0, _ => []
  | n + 1, v => UInt8.ofNat (v % 256) :: leBytes n (v / 256)

@[simp] theorem length_leBytes (n v : ℕ) : (leBytes n v).length = n := by
  induction n generalizing v with
  | zero => rfl
  | succ n ih => simp [leBytes, ih]

theorem leNat_lt (bs : List UInt8) : leNat bs < 256 ^ bs.length := by
  induction bs with
  | nil => simp [leNat]
  | cons b bs ih =>
    have hb := b.toNat_lt
    simp only [leNat, List.length_cons, pow_succ]
    omega

theorem leNat_leBytes {n v : ℕ} (h : v < 256 ^ n) : leNat (leBytes n v) = v := by
  induction n generalizing v with
  | zero =>
    obtain rfl : v = 0 := by simpa using h
    rfl
  | succ n ih =>
    have hlt : v / 256 < 256 ^ n := by
      rw [Nat.div_lt_iff_lt_mul (by norm_num)]
      rwa [pow_succ] at h
    rw [leBytes, leNat, toNat_ofNat_of_lt (Nat.mod_lt _ (by norm_num)), ih hlt]
    omega

end LynxTrace.Wire
