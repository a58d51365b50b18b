import LynxTrace.Wire.Varint

/-!
# Rpc.Int64Varint — the reader of the UI against `WriteVarInt` (ui/src/trace_processor/query_result.ts)
-/

namespace LynxTrace.Rpc

open LynxTrace.Wire

/-- `n >>> 0` -/
def uint32 (n : ℕ) : ℕ := n % 2 ^ 32

/-- `lo | ((byte & 127) << shift)`, and `>>> 0`. -/
def addBits (acc : ℕ) (byte : UInt8) (shift : ℕ) : ℕ := acc ||| uint32 ((byte.toNat &&& 127) <<< shift)

def asIntN64 (hi lo : ℕ) : ℤ := (BitVec.ofNat 64 (hi <<< 32 ||| lo)).toInt

/-- The bytes of the high half, from the `i`-th: six to ten of the varint. -/
def decodeHigh (lo : ℕ) : ℕ → ℕ → List UInt8 → Option ℤ
  | 5, _, _ => none
  | i, hi, bs =>
    match bs with
    | [] => none
    | byte :: bs =>
      let hi := addBits hi byte (i * 7 + 3)
      if byte < 128 then some (asIntN64 hi lo)
      else if i < 4 then decodeHigh lo (i + 1) hi bs else none

/-- `decodeInt64Varint` of the bytes from `pos` on.  Where there are few, the fourth is not checked to be there, nor to
be the last. -/
def decodeInt64Varint (bs : List UInt8) : Option ℤ :=
  if 4 < bs.length then
    match bs with
    | b0 :: b1 :: b2 :: b3 :: b4 :: rest =>
      let lo := addBits 0 b0 0
      if b0 < 128 then some lo else
      let lo := addBits lo b1 7
      if b1 < 128 then some lo else
      let lo := addBits lo b2 14
      if b2 < 128 then some lo else
      let lo := addBits lo b3 21
      if b3 < 128 then some lo else
      let lo := addBits lo b4 28
      let hi := (b4.toNat &&& 127) >>> 4
      if b4 < 128 then some (hi <<< 32 ||| lo : ℕ) else decodeHigh lo 0 hi rest
    | _ => none
  else
    match bs with
    | [] => none
    | b0 :: bs =>
      let lo := addBits 0 b0 0
      if b0 < 128 then some lo else
      match bs with
      | [] => none
      | b1 :: bs =>
        let lo := addBits lo b1 7
        if b1 < 128 then some lo else
        match bs with
        | [] => none
        | b2 :: bs =>
          let lo := addBits lo b2 14
          if b2 < 128 then some lo else some (addBits lo (bs.headD 0) 21 : ℕ)

/-! ### The high half -/

theorem addBits_eq {acc shift : ℕ} (byte : UInt8) (hacc : acc < 2 ^ shift) (hs : shift ≤ 32) :
    addBits acc byte shift = acc + uint32 (byte.toNat % 128 * 2 ^ shift) := by
  obtain ⟨k, hk⟩ : ∃ k, k + shift = 32 := ⟨32 - shift, by omega⟩
  have hpow : 2 ^ 32 = 2 ^ k * 2 ^ shift := by rw [← pow_add, hk]
  have hmod : uint32 (byte.toNat % 128 * 2 ^ shift) = 2 ^ shift * (byte.toNat % 128 % 2 ^ k) := by
    rw [uint32, hpow, Nat.mul_mod_mul_right, Nat.mul_comm]
  rw [addBits, and_low7, Nat.shiftLeft_eq, hmod, Nat.or_comm, ← Nat.two_pow_add_eq_or_of_lt hacc, Nat.add_comm]

theorem last_byte {w : ℕ} (h : w < 128) : (UInt8.ofNat w).toNat % 128 = w ∧ UInt8.ofNat w < 128 := by
  have h1 : (UInt8.ofNat w).toNat = w := toNat_ofNat_of_lt (by omega)
  refine ⟨by rw [h1, Nat.mod_eq_of_lt h], ?_⟩
  rw [UInt8.lt_iff_toNat_lt, h1]
  exact h

theorem cont_byte (w : ℕ) : (UInt8.ofNat (w % 128 + 128)).toNat % 128 = w % 128 ∧
    ¬ UInt8.ofNat (w % 128 + 128) < 128 := by
  have h1 : (UInt8.ofNat (w % 128 + 128)).toNat = w % 128 + 128 := toNat_ofNat_of_lt (by omega)
  refine ⟨by omega, ?_⟩
  rw [UInt8.lt_iff_toNat_lt, h1]
  exact Nat.not_lt.mpr (Nat.le_add_left _ _)

/-- A digit below a multiple of the next power does not carry. -/
theorem uint32_digit (w : ℕ) {s : ℕ} (hs : s + 7 ≤ 32) :
    w % 128 * 2 ^ s + uint32 (w / 128 * 2 ^ (s + 7)) = uint32 (w * 2 ^ s) := by
  obtain ⟨k, hk⟩ : ∃ k, k + (s + 7) = 32 := ⟨32 - (s + 7), by omega⟩
  have hpow : 2 ^ 32 = 2 ^ k * 128 * 2 ^ s := by rw [← hk, pow_add, pow_add]; ring
  have hsplit : w / 128 * 2 ^ (s + 7) = w / 128 * 128 * 2 ^ s := by rw [pow_add]; ring
  rw [uint32, uint32, hsplit, hpow, Nat.mul_mod_mul_right, Nat.mul_mod_mul_right, Nat.mul_mod_mul_right, ← Nat.add_mul]
  congr 1
  rw [Nat.mul_comm (2 ^ k) 128, Nat.mod_mul, Nat.mul_comm (w / 128 % 2 ^ k)]

/-- The high half, from the `i`-th of its bytes on. -/
theorem decodeHigh_encode (lo : ℕ) {n i hi w : ℕ} (hi5 : i + n = 4) (hhi : hi < 2 ^ (i * 7 + 3))
    (hw : w < 128 ^ (n + 1)) (rest : List UInt8) :
    decodeHigh lo i hi (encodeVarint (n + 1) w ++ rest) = some (asIntN64 (hi + uint32 (w * 2 ^ (i * 7 + 3))) lo) := by
  induction n generalizing i hi w with
  | zero =>
    obtain rfl : i = 4 := by omega
    have hlt : w < 128 := by simpa using hw
    obtain ⟨h1, h2⟩ := last_byte hlt
    rw [encodeVarint, if_pos hlt]
    show decodeHigh lo 4 hi (UInt8.ofNat w :: rest) = _
    rw [decodeHigh, if_pos h2, addBits_eq _ hhi (by norm_num), h1]
    decide
  | succ n ih =>
    rw [encodeVarint]
    split_ifs with hlt
    · obtain ⟨h1, h2⟩ := last_byte hlt
      show decodeHigh lo i hi (UInt8.ofNat w :: rest) = _
      rw [decodeHigh, if_pos h2, addBits_eq _ hhi (by omega), h1]
      omega
    · obtain ⟨h1, h2⟩ := cont_byte w
      show decodeHigh lo i hi (UInt8.ofNat (w % 128 + 128) :: (encodeVarint (n + 1) (w / 128) ++ rest)) = _
      have hshift : uint32 (w % 128 * 2 ^ (i * 7 + 3)) = w % 128 * 2 ^ (i * 7 + 3) := by
        refine Nat.mod_eq_of_lt ?_
        calc w % 128 * 2 ^ (i * 7 + 3) < 2 ^ 7 * 2 ^ (i * 7 + 3) :=
              Nat.mul_lt_mul_of_pos_right (Nat.mod_lt _ (by norm_num)) (by positivity)
          _ ≤ 2 ^ 32 := by rw [← pow_add]; exact Nat.pow_le_pow_right (by norm_num) (by omega)
      have hstep : hi + w % 128 * 2 ^ (i * 7 + 3) < 2 ^ ((i + 1) * 7 + 3) := by
        have h3 : w % 128 + 1 ≤ 128 := Nat.mod_lt _ (by norm_num)
        calc hi + w % 128 * 2 ^ (i * 7 + 3) < (w % 128 + 1) * 2 ^ (i * 7 + 3) := by rw [Nat.add_mul]; omega
          _ ≤ 128 * 2 ^ (i * 7 + 3) := Nat.mul_le_mul_right _ h3
          _ = 2 ^ 7 * 2 ^ (i * 7 + 3) := rfl
          _ = 2 ^ ((i + 1) * 7 + 3) := by rw [← pow_add]; congr 1; omega
      have hdiv : w / 128 < 128 ^ (n + 1) := by
        rw [Nat.div_lt_iff_lt_mul (by norm_num)]
        rwa [pow_succ] at hw
      rw [decodeHigh, if_neg h2, if_pos (by omega), addBits_eq _ hhi (by omega), h1, hshift,
        ih (by omega) hstep hdiv]
      · have hsum : hi + w % 128 * 2 ^ (i * 7 + 3) + uint32 (w / 128 * 2 ^ ((i + 1) * 7 + 3)) =
            hi + uint32 (w * 2 ^ (i * 7 + 3)) := by
          rw [Nat.add_assoc, show (i + 1) * 7 + 3 = i * 7 + 3 + 7 by omega, uint32_digit _ (by omega)]
        rw [hsum]
      · omega

/-! ### The low half -/

section

variable {b0 b1 b2 b3 b4 : UInt8} {rest : List UInt8}

theorem decode_one (h0 : b0 < 128) : decodeInt64Varint (b0 :: rest) = some ↑(addBits 0 b0 0) := by
  rcases rest with _ | ⟨b1, _ | ⟨b2, _ | ⟨b3, _ | ⟨b4, rest⟩⟩⟩⟩ <;> simp [decodeInt64Varint, h0]

theorem decode_two (h0 : ¬ b0 < 128) (h1 : b1 < 128) :
    decodeInt64Varint (b0 :: b1 :: rest) = some ↑(addBits (addBits 0 b0 0) b1 7) := by
  rcases rest with _ | ⟨b2, _ | ⟨b3, _ | ⟨b4, rest⟩⟩⟩ <;> simp [decodeInt64Varint, h0, h1]

theorem decode_three (h0 : ¬ b0 < 128) (h1 : ¬ b1 < 128) (h2 : b2 < 128) :
    decodeInt64Varint (b0 :: b1 :: b2 :: rest) = some ↑(addBits (addBits (addBits 0 b0 0) b1 7) b2 14) := by
  rcases rest with _ | ⟨b3, _ | ⟨b4, rest⟩⟩ <;> simp [decodeInt64Varint, h0, h1, h2]

theorem decode_four (h0 : ¬ b0 < 128) (h1 : ¬ b1 < 128) (h2 : ¬ b2 < 128) (h3 : b3 < 128) :
    decodeInt64Varint (b0 :: b1 :: b2 :: b3 :: rest) =
      some ↑(addBits (addBits (addBits (addBits 0 b0 0) b1 7) b2 14) b3 21) := by
  rcases rest with _ | ⟨b4, rest⟩ <;> simp [decodeInt64Varint, h0, h1, h2, h3]

theorem decode_five (h0 : ¬ b0 < 128) (h1 : ¬ b1 < 128) (h2 : ¬ b2 < 128) (h3 : ¬ b3 < 128) :
    decodeInt64Varint (b0 :: b1 :: b2 :: b3 :: b4 :: rest) =
      if b4 < 128 then
        some (((b4.toNat &&& 127) >>> 4 <<< 32 |||
          addBits (addBits (addBits (addBits (addBits 0 b0 0) b1 7) b2 14) b3 21) b4 28 : ℕ) : ℤ)
      else decodeHigh (addBits (addBits (addBits (addBits (addBits 0 b0 0) b1 7) b2 14) b3 21) b4 28) 0
        ((b4.toNat &&& 127) >>> 4) rest := by
  simp [decodeInt64Varint, h0, h1, h2, h3]

end

/-- The bits of the first bytes. -/
theorem addBits_digit {w s acc : ℕ} (byte : UInt8) (hbyte : byte.toNat % 128 = w / 2 ^ s % 128) (hacc : acc = w % 2 ^ s)
    (hs : s + 7 ≤ 32) : addBits acc byte s = w % 2 ^ (s + 7) := by
  have hlt : acc < 2 ^ s := hacc ▸ Nat.mod_lt _ (by positivity)
  have hmod : uint32 (w / 2 ^ s % 128 * 2 ^ s) = w / 2 ^ s % 128 * 2 ^ s := by
    refine Nat.mod_eq_of_lt ?_
    calc w / 2 ^ s % 128 * 2 ^ s < 2 ^ 7 * 2 ^ s :=
          Nat.mul_lt_mul_of_pos_right (Nat.mod_lt _ (by norm_num)) (by positivity)
      _ ≤ 2 ^ 32 := by rw [← pow_add]; exact Nat.pow_le_pow_right (by norm_num) (by omega)
  rw [addBits_eq byte hlt (by omega), hbyte, hmod, hacc, pow_add, Nat.mod_mul, Nat.mul_comm (2 ^ s)]
  rfl

section

variable {v w s acc : ℕ} (hw : w = v / 2 ^ s)

include hw

/-- A byte that others follow. -/
theorem addBits_cont (hacc : acc = v % 2 ^ s) (hs : s + 7 ≤ 32) :
    addBits acc (UInt8.ofNat (w % 128 + 128)) s = v % 2 ^ (s + 7) :=
  addBits_digit _ ((cont_byte w).1.trans (congrArg (· % 128) hw)) hacc hs

theorem lt_of_last (h : w < 128) : v < 2 ^ (s + 7) := by
  rw [hw, Nat.div_lt_iff_lt_mul (by positivity)] at h
  rwa [pow_add, Nat.mul_comm]

/-- The last byte. -/
theorem addBits_last (h : w < 128) (hacc : acc = v % 2 ^ s) (hs : s + 7 ≤ 32) : addBits acc (UInt8.ofNat w) s = v := by
  rw [addBits_digit _ _ hacc hs, Nat.mod_eq_of_lt (lt_of_last hw h)]
  rw [(last_byte h).1, ← hw, Nat.mod_eq_of_lt h]

end

theorem toInt_ofNat_of_lt {v : ℕ} (h : v < 2 ^ 35) : (BitVec.ofNat 64 v).toInt = v := by
  have hmod : v % 2 ^ 64 = v := Nat.mod_eq_of_lt (Nat.lt_of_lt_of_le h (by norm_num))
  rw [BitVec.toInt_eq_toNat_of_lt, BitVec.toNat_ofNat, hmod]
  rw [BitVec.toNat_ofNat, hmod]
  omega

theorem shiftLeft_or_eq {hi lo : ℕ} (h : lo < 2 ^ 32) : hi <<< 32 ||| lo = hi * 2 ^ 32 + lo := by
  rw [← Nat.shiftLeft_add_eq_or_of_lt h, Nat.shiftLeft_eq]

/-- From the fifth byte on, after the low 28 bits. -/
theorem decode_upper {v : ℕ} (h : v < 2 ^ 64) (rest : List UInt8) {b0 b1 b2 b3 : UInt8} (h0 : ¬ b0 < 128)
    (h1 : ¬ b1 < 128) (h2 : ¬ b2 < 128) (h3 : ¬ b3 < 128)
    (hlow : addBits (addBits (addBits (addBits 0 b0 0) b1 7) b2 14) b3 21 = v % 2 ^ 28) :
    decodeInt64Varint (b0 :: b1 :: b2 :: b3 :: (encodeVarint 6 (v / 2 ^ 28) ++ rest)) =
      some (BitVec.ofNat 64 v).toInt := by
  have hlo : v % 2 ^ 28 < 2 ^ 28 := Nat.mod_lt _ (by norm_num)
  have hword : v % 2 ^ 28 + uint32 (v / 2 ^ 28 % 128 * 2 ^ 28) = v % 2 ^ 32 := by
    rw [uint32]
    omega
  have hlt : v % 2 ^ 32 < 2 ^ 32 := Nat.mod_lt _ (by norm_num)
  rw [encodeVarint]
  split_ifs with h4
  · obtain ⟨c4, d4⟩ := last_byte h4
    have h5 : v / 2 ^ 28 % 128 = v / 2 ^ 28 := Nat.mod_eq_of_lt h4
    show decodeInt64Varint (b0 :: b1 :: b2 :: b3 :: UInt8.ofNat (v / 2 ^ 28) :: rest) = _
    rw [decode_five h0 h1 h2 h3, if_pos d4, hlow, addBits_eq _ hlo (by norm_num), and_low7, c4, ← h5, hword,
      Nat.shiftRight_eq_div_pow, shiftLeft_or_eq hlt, toInt_ofNat_of_lt (by omega)]
    congr 2
    omega
  · obtain ⟨c4, d4⟩ := cont_byte (v / 2 ^ 28)
    show decodeInt64Varint (b0 :: b1 :: b2 :: b3 :: UInt8.ofNat (v / 2 ^ 28 % 128 + 128) ::
      (encodeVarint 5 (v / 2 ^ 28 / 128) ++ rest)) = _
    have hhi : v / 2 ^ 28 % 128 / 2 ^ 4 < 2 ^ (0 * 7 + 3) := by omega
    have htop : v / 2 ^ 28 / 128 < 128 ^ (4 + 1) := by omega
    have hsum : v / 2 ^ 28 % 128 / 2 ^ 4 + uint32 (v / 2 ^ 28 / 128 * 2 ^ (0 * 7 + 3)) = v / 2 ^ 32 := by
      rw [uint32]
      omega
    rw [decode_five h0 h1 h2 h3, if_neg d4, hlow, addBits_eq _ hlo (by norm_num), and_low7, c4, hword,
      Nat.shiftRight_eq_div_pow, decodeHigh_encode _ (by norm_num) hhi htop, hsum, asIntN64, shiftLeft_or_eq hlt,
      Nat.div_add_mod']

/-- What the C++ side writes as an int64 is read as that int64. -/
theorem decodeInt64Varint_write {v : ℕ} (h : v < 2 ^ 64) (rest : List UInt8) :
    decodeInt64Varint (writeVarInt v ++ rest) = some (BitVec.ofNat 64 v).toInt := by
  have q0 : v = v / 2 ^ 0 := (Nat.div_one v).symm
  have q1 : v / 128 = v / 2 ^ 7 := rfl
  have q2 : v / 128 / 128 = v / 2 ^ 14 := Nat.div_div_eq_div_mul ..
  have q3 : v / 128 / 128 / 128 = v / 2 ^ 21 := by rw [q2]; exact Nat.div_div_eq_div_mul ..
  have q4 : v / 128 / 128 / 128 / 128 = v / 2 ^ 28 := by rw [q3]; exact Nat.div_div_eq_div_mul ..
  have d0 := (cont_byte v).2
  have d1 := (cont_byte (v / 128)).2
  have d2 := (cont_byte (v / 128 / 128)).2
  have d3 := (cont_byte (v / 128 / 128 / 128)).2
  have a0 : 0 = v % 2 ^ 0 := (Nat.mod_one v).symm
  have e0 : addBits 0 (UInt8.ofNat (v % 128 + 128)) 0 = v % 2 ^ 7 := addBits_cont q0 a0 (by norm_num)
  have e1 : addBits (v % 2 ^ 7) (UInt8.ofNat (v / 128 % 128 + 128)) 7 = v % 2 ^ 14 :=
    addBits_cont q1 rfl (by norm_num)
  have e2 : addBits (v % 2 ^ 14) (UInt8.ofNat (v / 128 / 128 % 128 + 128)) 14 = v % 2 ^ 21 :=
    addBits_cont q2 rfl (by norm_num)
  have e3 : addBits (v % 2 ^ 21) (UInt8.ofNat (v / 128 / 128 / 128 % 128 + 128)) 21 = v % 2 ^ 28 :=
    addBits_cont q3 rfl (by norm_num)
  rw [writeVarInt, encodeVarint]
  split_ifs with h0
  · show decodeInt64Varint (UInt8.ofNat v :: rest) = _
    have hlt := lt_of_last q0 h0
    rw [decode_one (last_byte h0).2, addBits_last q0 h0 a0 (by norm_num),
      toInt_ofNat_of_lt (hlt.trans_le (by norm_num))]
  rw [encodeVarint]
  split_ifs with h1
  · show decodeInt64Varint (UInt8.ofNat (v % 128 + 128) :: UInt8.ofNat (v / 128) :: rest) = _
    have hlt := lt_of_last q1 h1
    rw [decode_two d0 (last_byte h1).2, e0, addBits_last q1 h1 rfl (by norm_num),
      toInt_ofNat_of_lt (hlt.trans_le (by norm_num))]
  rw [encodeVarint]
  split_ifs with h2
  · show decodeInt64Varint (UInt8.ofNat (v % 128 + 128) :: UInt8.ofNat (v / 128 % 128 + 128) ::
      UInt8.ofNat (v / 128 / 128) :: rest) = _
    have hlt := lt_of_last q2 h2
    rw [decode_three d0 d1 (last_byte h2).2, e0, e1, addBits_last q2 h2 rfl (by norm_num),
      toInt_ofNat_of_lt (hlt.trans_le (by norm_num))]
  rw [encodeVarint]
  split_ifs with h3
  · show decodeInt64Varint (UInt8.ofNat (v % 128 + 128) :: UInt8.ofNat (v / 128 % 128 + 128) ::
      UInt8.ofNat (v / 128 / 128 % 128 + 128) :: UInt8.ofNat (v / 128 / 128 / 128) :: rest) = _
    have hlt := lt_of_last q3 h3
    rw [decode_four d0 d1 d2 (last_byte h3).2, e0, e1, e2, addBits_last q3 h3 rfl (by norm_num),
      toInt_ofNat_of_lt (hlt.trans_le (by norm_num))]
  show decodeInt64Varint (UInt8.ofNat (v % 128 + 128) :: UInt8.ofNat (v / 128 % 128 + 128) ::
    UInt8.ofNat (v / 128 / 128 % 128 + 128) :: UInt8.ofNat (v / 128 / 128 / 128 % 128 + 128) ::
    (encodeVarint 6 (v / 128 / 128 / 128 / 128) ++ rest)) = _
  rw [q4]
  exact decode_upper h rest d0 d1 d2 d3 (by rw [e0, e1, e2, e3])

end LynxTrace.Rpc
