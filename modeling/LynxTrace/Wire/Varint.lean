import Mathlib.Tactic
import Mathlib.Data.Nat.Bitwise

/-!
# Wire.Varint — base-128 varints over byte lists

`decodeVarint n` reads a varint of at most `n` bytes: seven payload bits per byte, least significant group
first, bit 7 set on every byte but the last.  The value is not truncated here; readers with a 64-bit register
take it modulo `2 ^ 64` (`accVarint_eq`).
-/

namespace LynxTrace.Wire

/-- The varint at the head of the list, if one ends within the first `n` bytes, and the bytes after it. -/
def decodeVarint : ℕ → List UInt8 → Option (ℕ × List UInt8)
  | 0, _ => none
  | _ + 1, [] => none
  | n + 1, b :: bs =>
    if b.toNat < 128 then some (b.toNat, bs)
    else (decodeVarint n bs).map fun r => (b.toNat % 128 + 128 * r.1, r.2)

/-- `enc` is one varint of at most `n` bytes with value `v`. -/
def IsVarint (n : ℕ) (enc : List UInt8) (v : ℕ) : Prop := decodeVarint n enc = some (v, [])

/-- The shortest encoding of `v`, for `v < 128 ^ n`. -/
def encodeVarint : ℕ → ℕ → List UInt8
  | 0, _ => []
  | n + 1, v => if v < 128 then [UInt8.ofNat v] else UInt8.ofNat (v % 128 + 128) :: encodeVarint n (v / 128)

/-- `WriteVarInt` of a 64-bit value. -/
def writeVarInt (v : ℕ) : List UInt8 := encodeVarint 10 v

/-! ### Splitting -/

variable {n v : ℕ}

theorem decodeVarint_append {enc r : List UInt8} (h : decodeVarint n enc = some (v, r)) (rest : List UInt8) :
    decodeVarint n (enc ++ rest) = some (v, r ++ rest) := by
  induction n generalizing enc v r with
  | zero => simp [decodeVarint] at h
  | succ n ih =>
    cases enc with
    | nil => simp [decodeVarint] at h
    | cons b bs =>
      simp only [decodeVarint, List.cons_append] at h ⊢
      split_ifs at h ⊢ with hb
      · simp only [Option.some.injEq, Prod.mk.injEq] at h
        obtain ⟨rfl, rfl⟩ := h
        rfl
      · rw [Option.map_eq_some_iff] at h
        obtain ⟨⟨w, r'⟩, h1, h2⟩ := h
        simp only [Prod.mk.injEq] at h2
        obtain ⟨rfl, rfl⟩ := h2
        rw [ih h1]
        rfl

theorem decodeVarint_split {bs r : List UInt8} (h : decodeVarint n bs = some (v, r)) :
    ∃ enc, bs = enc ++ r ∧ IsVarint n enc v ∧ enc ≠ [] ∧ enc.length ≤ n := by
  induction n generalizing bs v with
  | zero => simp [decodeVarint] at h
  | succ n ih =>
    cases bs with
    | nil => simp [decodeVarint] at h
    | cons b bs =>
      simp only [decodeVarint] at h
      split_ifs at h with hb
      · simp only [Option.some.injEq, Prod.mk.injEq] at h
        obtain ⟨rfl, rfl⟩ := h
        exact ⟨[b], rfl, by simp [IsVarint, decodeVarint, hb], by simp, by simp⟩
      · rw [Option.map_eq_some_iff] at h
        obtain ⟨⟨w, r'⟩, h1, h2⟩ := h
        simp only [Prod.mk.injEq] at h2
        obtain ⟨rfl, rfl⟩ := h2
        obtain ⟨enc, rfl, hv, -, hl⟩ := ih h1
        refine ⟨b :: enc, rfl, ?_, by simp, by simpa using hl⟩
        unfold IsVarint at hv ⊢
        simp [decodeVarint, hb, hv]

theorem IsVarint.decode {enc : List UInt8} (h : IsVarint n enc v) (rest : List UInt8) :
    decodeVarint n (enc ++ rest) = some (v, rest) := by
  simpa using decodeVarint_append h rest

theorem IsVarint.ne_nil {enc : List UInt8} (h : IsVarint n enc v) : enc ≠ [] := by
  rintro rfl
  cases n <;> simp [IsVarint, decodeVarint] at h

theorem decodeVarint_length_lt {bs r : List UInt8} (h : decodeVarint n bs = some (v, r)) : r.length < bs.length := by
  obtain ⟨enc, rfl, -, hne, -⟩ := decodeVarint_split h
  have := List.length_pos_iff.mpr hne
  rw [List.length_append]
  omega

/-! ### Encoding -/

theorem toNat_ofNat_of_lt (h : v < 256) : (UInt8.ofNat v).toNat = v := by
  rw [UInt8.toNat_ofNat']
  omega

theorem isVarint_encode (h : v < 128 ^ (n + 1)) : IsVarint (n + 1) (encodeVarint (n + 1) v) v := by
  unfold IsVarint
  induction n generalizing v with
  | zero =>
    have hv : v < 128 := by simpa using h
    simp [encodeVarint, decodeVarint, toNat_ofNat_of_lt (show v < 256 by omega), hv]
  | succ n ih =>
    rw [encodeVarint]
    split_ifs with hv
    · simp [decodeVarint, toNat_ofNat_of_lt (show v < 256 by omega), hv]
    · have hb := toNat_ofNat_of_lt (show v % 128 + 128 < 256 by omega)
      have hlt : v / 128 < 128 ^ (n + 1) := by
        rw [Nat.div_lt_iff_lt_mul (by norm_num)]
        rwa [pow_succ] at h
      rw [decodeVarint, hb, ih hlt, if_neg (by omega)]
      simp only [Option.map_some, Option.some.injEq, Prod.mk.injEq, and_true]
      omega

/-! ### The 64-bit register -/

/-- Folding one byte into a 64-bit register: `acc |= uint64_t(b & 0x7F) << shift`. -/
def accVarint (acc shift : ℕ) (b : UInt8) : ℕ := acc ||| (((b.toNat &&& 0x7F) <<< shift) % 2 ^ 64)

theorem and_low7 (x : ℕ) : x &&& 0x7F = x % 128 := Nat.and_two_pow_sub_one_eq_mod x 7

theorem cont_bit_iff (b : UInt8) : b.toNat &&& 0x80 = 0 ↔ b.toNat < 128 := by
  have h := (by decide +kernel : ∀ i : Fin 256, (i.val &&& 0x80 = 0) ↔ i.val < 128)
  exact h ⟨b.toNat, b.toNat_lt⟩

theorem accVarint_eq {acc shift : ℕ} (b : UInt8) (hacc : acc < 2 ^ shift) (hs : shift ≤ 63) :
    accVarint acc shift b = (acc + b.toNat % 128 * 2 ^ shift) % 2 ^ 64 := by
  unfold accVarint
  obtain ⟨k, hk⟩ : ∃ k, k + shift = 64 := ⟨64 - shift, by omega⟩
  have hpow : 2 ^ 64 = 2 ^ k * 2 ^ shift := by rw [← pow_add, hk]
  have hmod : (b.toNat % 128 * 2 ^ shift) % 2 ^ 64 = 2 ^ shift * (b.toNat % 128 % 2 ^ k) := by
    rw [hpow, Nat.mul_mod_mul_right, Nat.mul_comm]
  have hlt : acc + 2 ^ shift * (b.toNat % 128 % 2 ^ k) < 2 ^ 64 := by
    have h1 : b.toNat % 128 % 2 ^ k + 1 ≤ 2 ^ k := Nat.mod_lt _ (by positivity)
    calc acc + 2 ^ shift * (b.toNat % 128 % 2 ^ k)
        < 2 ^ shift * (b.toNat % 128 % 2 ^ k + 1) := by rw [Nat.mul_add]; omega
      _ ≤ 2 ^ shift * 2 ^ k := Nat.mul_le_mul_left _ h1
      _ = 2 ^ 64 := by rw [hpow, Nat.mul_comm]
  rw [and_low7, Nat.shiftLeft_eq, hmod, Nat.or_comm, ← Nat.two_pow_add_eq_or_of_lt hacc, Nat.add_mod, hmod,
    Nat.mod_eq_of_lt (show acc < 2 ^ 64 from lt_of_le_of_lt (Nat.le_add_right _ _) hlt), Nat.mod_eq_of_lt hlt,
    Nat.add_comm]

/-- While bytes remain to be read the register holds less than `2 ^ (shift + 7)`. -/
theorem accVarint_lt {acc shift : ℕ} (b : UInt8) (hacc : acc < 2 ^ shift) (hs : shift ≤ 63) :
    accVarint acc shift b < 2 ^ (shift + 7) := by
  rw [accVarint_eq b hacc hs]
  refine lt_of_le_of_lt (Nat.mod_le _ _) ?_
  have h : b.toNat % 128 + 1 ≤ 128 := Nat.mod_lt _ (by norm_num)
  calc acc + b.toNat % 128 * 2 ^ shift < (b.toNat % 128 + 1) * 2 ^ shift := by rw [Nat.add_mul]; omega
    _ ≤ 128 * 2 ^ shift := Nat.mul_le_mul_right _ h
    _ = 2 ^ (shift + 7) := by rw [pow_add]; ring

end LynxTrace.Wire
