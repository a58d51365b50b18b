import LynxTrace.Rpc.Int64Varint

/-!
# Ui.Int64Varint — the routes of `decodeInt64Varint` (ui/src/trace_processor/query_result.ts)

Both halves are numbers of 32 bits (`>>> 0`), and an element outside of the buffer is `undefined`.
-/

namespace LynxTrace.Ui

open LynxTrace.Wire

/-- `buf[pos] & 127` -/
def payload (buf : List UInt8) (pos : ℕ) : UInt32 :=
  match buf[pos]? with
  | some byte => byte.toUInt32 &&& 127
  | none => 0

/-- `buf[pos] < 128`, which is false of `undefined`. -/
def endsVarint (buf : List UInt8) (pos : ℕ) : Bool :=
  match buf[pos]? with
  | some byte => byte < 128
  | none => false

/-- `(half | (payload << shift)) >>> 0` -/
def orShifted (half payload : UInt32) (shift : ℕ) : UInt32 := half ||| payload <<< UInt32.ofNat shift

/-- How a loop over the bytes of a half is left. -/
inductive HalfRead
  | returns (value : ℤ)
  | ends (half : UInt32) (pos : ℕ)

/-- The loops; those near the end of the buffer check each position. -/
def readHalf (buf : List UInt8) (checked : Bool) (shift : ℕ) (value : UInt32 → ℤ) :
    (left i : ℕ) → (half : UInt32) → (pos : ℕ) → Except String HalfRead
  | 0, _, half, pos => .ok (.ends half pos)
  | left + 1, i, half, pos =>
    if checked && buf.length ≤ pos then .error "Index out of range" else
    let half := orShifted half (payload buf pos) (i * 7 + shift)
    if endsVarint buf pos then .ok (.returns (value half))
    else readHalf buf checked shift value left (i + 1) half (pos + 1)

/-- After the loops of the high half. -/
def HalfRead.result : HalfRead → Except String ℤ
  | .returns value => .ok value
  | .ends _ _ => .error "invalid varint encoding"

/-- `(BigInt(hi) << SHIFT_32BITS) | BigInt(lo)` -/
def bigInt (hi lo : UInt32) : ℕ := hi.toNat <<< 32 ||| lo.toNat

/-- `BigInt.asIntN(64, big)` -/
def asIntN64 (big : ℕ) : ℤ := (BitVec.ofNat 64 big).toInt

def decodeInt64Varint (buf : List UInt8) (pos : ℕ) : Except String ℤ :=
  if 4 < buf.length - pos then
    (readHalf buf false 0 (fun lo => lo.toNat) 4 0 0 pos).bind fun
    | .returns value => .ok value
    | .ends lo pos =>
      -- the 5th byte belongs to both halves
      let lo := orShifted lo (payload buf pos) 28
      let hi := payload buf pos >>> 4
      if endsVarint buf pos then .ok (bigInt hi lo) else
      (readHalf buf (buf.length - (pos + 1) ≤ 4) 3 (fun hi => asIntN64 (bigInt hi lo)) 5 0 hi (pos + 1)).bind
        HalfRead.result
  else
    (readHalf buf true 0 (fun lo => lo.toNat) 3 0 0 pos).bind fun
    | .returns value => .ok value
    | .ends lo pos => .ok (bigInt 0 (orShifted lo (payload buf pos) 21))

/-! ### One byte -/

section

variable {buf bs : List UInt8} {pos : ℕ} {byte : UInt8}

theorem endsVarint_cons (h : buf.drop pos = byte :: bs) : endsVarint buf pos = decide (byte < 128) := by
  have hget : buf[pos]? = some byte := by
    rw [← List.head?_drop, h, List.head?_cons]
  rw [endsVarint, hget]

theorem payload_cons (h : buf.drop pos = byte :: bs) : payload buf pos = byte.toUInt32 &&& 127 := by
  have hget : buf[pos]? = some byte := by
    rw [← List.head?_drop, h, List.head?_cons]
  rw [payload, hget]

theorem payload_nil (h : buf.drop pos = []) : payload buf pos = 0 := by
  rw [payload, ← List.head?_drop, h, List.head?_nil]

theorem drop_succ (h : buf.drop pos = byte :: bs) : buf.drop (pos + 1) = bs := by
  have hdrop : buf.drop (pos + 1) = (buf.drop pos).drop 1 := by simp [List.drop_drop]
  rw [hdrop, h, List.drop_one, List.tail_cons]

theorem lt_length (h : buf.drop pos = byte :: bs) : pos < buf.length := by
  by_contra hge
  rw [List.drop_eq_nil_of_le (Nat.not_lt.mp hge)] at h
  cases h

/-- The bits of a byte as the other reader adds them. -/
theorem toNat_orShifted (half : UInt32) (byte : UInt8) {shift : ℕ} (hs : shift < 32) :
    (orShifted half (byte.toUInt32 &&& 127) shift).toNat = Rpc.addBits half.toNat byte shift := by
  have hshift : (UInt32.ofNat shift).toNat % 32 = shift := by
    rw [UInt32.toNat_ofNat']
    omega
  rw [orShifted, UInt32.toNat_or, UInt32.toNat_shiftLeft, UInt32.toNat_and, hshift]
  rfl

end

/-! ### The routes -/

section

variable {buf bs : List UInt8} {pos : ℕ} {byte : UInt8} {checked : Bool} {shift left i : ℕ} {value : UInt32 → ℤ}
  {half : UInt32}

theorem readHalf_cons (h : buf.drop pos = byte :: bs) :
    readHalf buf checked shift value (left + 1) i half pos =
      if byte < 128 then .ok (.returns (value (orShifted half (byte.toUInt32 &&& 127) (i * 7 + shift))))
      else readHalf buf checked shift value left (i + 1) (orShifted half (byte.toUInt32 &&& 127) (i * 7 + shift))
        (pos + 1) := by
  have hpos : ¬ buf.length ≤ pos := Nat.not_le.mpr (lt_length h)
  rw [readHalf, payload_cons h, endsVarint_cons h]
  simp [hpos]

theorem readHalf_nil (h : buf.drop pos = []) :
    readHalf buf true shift value (left + 1) i half pos = .error "Index out of range" := by
  have hpos : buf.length ≤ pos := List.drop_eq_nil_iff.mp h
  simp [readHalf, hpos]

end

/-- The high half: near the end of the buffer or not, the bytes that are there are read. -/
theorem readHalf_high {buf : List UInt8} {checked : Bool} {lo : UInt32} {left i pos : ℕ} {half : UInt32}
    {bs : List UInt8} (hi : i + left = 5) (hdrop : buf.drop pos = bs) (hroom : checked = true ∨ left ≤ bs.length) :
    ((readHalf buf checked 3 (fun hi => asIntN64 (bigInt hi lo)) left i half pos).bind HalfRead.result).toOption =
      Rpc.decodeHigh lo.toNat i half.toNat bs := by
  induction left generalizing i half pos bs with
  | zero =>
    obtain rfl : i = 5 := hi
    simp [readHalf, Except.bind, HalfRead.result, Except.toOption, Rpc.decodeHigh]
  | succ left ih =>
    have hi5 : i ≠ 5 := by omega
    cases bs with
    | nil =>
      obtain rfl : checked = true := hroom.resolve_right (by simp)
      rw [readHalf_nil hdrop]
      simp [Except.bind, Except.toOption, Rpc.decodeHigh]
    | cons byte bs =>
      have hhalf := toNat_orShifted half byte (show i * 7 + 3 < 32 by omega)
      have hroom' : checked = true ∨ left ≤ bs.length := hroom.imp_right fun h => by simpa using h
      have hrest := @ih (i + 1) (pos + 1) (orShifted half (byte.toUInt32 &&& 127) (i * 7 + 3)) bs (by omega)
        (drop_succ hdrop) hroom'
      rw [readHalf_cons hdrop, Rpc.decodeHigh, ← hhalf]
      · split_ifs with hbyte hlast
        · rfl
        · exact hrest
        · -- after the tenth byte nothing is left to read
          obtain rfl : left = 0 := by omega
          rfl
      · exact hi5

/-- Near the end of the buffer. -/
theorem decodeInt64Varint_near {buf bs : List UInt8} {pos : ℕ} (h0 : buf.drop pos = bs) (hlen : ¬ 4 < bs.length) :
    (decodeInt64Varint buf pos).toOption = Rpc.decodeInt64Varint bs := by
  have hleft : ¬ 4 < buf.length - pos := by rwa [← List.length_drop, h0]
  rw [decodeInt64Varint, if_neg hleft]
  rcases bs with _ | ⟨b0, bs⟩
  · rw [readHalf_nil h0]
    rfl
  rw [readHalf_cons h0]
  have h1 := drop_succ h0
  by_cases c0 : b0 < 128
  · rw [Rpc.decode_one c0, if_pos c0]
    simp [Except.bind, Except.toOption, toNat_orShifted]
  rw [if_neg c0]
  rcases bs with _ | ⟨b1, bs⟩
  · rw [readHalf_nil h1]
    simp [Except.bind, Except.toOption, Rpc.decodeInt64Varint, c0]
  rw [readHalf_cons h1]
  have h2 := drop_succ h1
  by_cases c1 : b1 < 128
  · rw [Rpc.decode_two c0 c1, if_pos c1]
    simp [Except.bind, Except.toOption, toNat_orShifted]
  rw [if_neg c1]
  rcases bs with _ | ⟨b2, bs⟩
  · rw [readHalf_nil h2]
    simp [Except.bind, Except.toOption, Rpc.decodeInt64Varint, c0, c1]
  rw [readHalf_cons h2]
  have h3 := drop_succ h2
  by_cases c2 : b2 < 128
  · rw [Rpc.decode_three c0 c1 c2, if_pos c2]
    simp [Except.bind, Except.toOption, toNat_orShifted]
  rw [if_neg c2, readHalf]
  -- the fourth byte, there or not
  rcases bs with _ | ⟨b3, bs⟩
  · have hnone : ∀ half, (orShifted half 0 21).toNat = Rpc.addBits half.toNat 0 21 := fun half =>
      toNat_orShifted half 0 (by decide)
    simp [Except.bind, Except.toOption, toNat_orShifted, hnone, payload_nil h3, bigInt, Rpc.decodeInt64Varint, c0, c1,
      c2]
  obtain rfl : bs = [] := by
    refine List.eq_nil_of_length_eq_zero ?_
    simp only [List.length_cons] at hlen
    omega
  simp [Except.bind, Except.toOption, toNat_orShifted, payload_cons h3, bigInt, Rpc.decodeInt64Varint, c0, c1, c2]

/-- With more than four bytes left. -/
theorem decodeInt64Varint_far {buf bs : List UInt8} {pos : ℕ} {b0 b1 b2 b3 b4 : UInt8}
    (h0 : buf.drop pos = b0 :: b1 :: b2 :: b3 :: b4 :: bs) :
    (decodeInt64Varint buf pos).toOption = Rpc.decodeInt64Varint (b0 :: b1 :: b2 :: b3 :: b4 :: bs) := by
  have hleft : 4 < buf.length - pos := by rw [← List.length_drop, h0]; simp
  have h1 := drop_succ h0
  have h2 := drop_succ h1
  have h3 := drop_succ h2
  have h4 := drop_succ h3
  have h5 := drop_succ h4
  rw [decodeInt64Varint, if_pos hleft, readHalf_cons h0]
  by_cases c0 : b0 < 128
  · rw [Rpc.decode_one c0, if_pos c0]
    simp [Except.bind, Except.toOption, toNat_orShifted]
  rw [if_neg c0, readHalf_cons h1]
  by_cases c1 : b1 < 128
  · rw [Rpc.decode_two c0 c1, if_pos c1]
    simp [Except.bind, Except.toOption, toNat_orShifted]
  rw [if_neg c1, readHalf_cons h2]
  by_cases c2 : b2 < 128
  · rw [Rpc.decode_three c0 c1 c2, if_pos c2]
    simp [Except.bind, Except.toOption, toNat_orShifted]
  rw [if_neg c2, readHalf_cons h3]
  by_cases c3 : b3 < 128
  · rw [Rpc.decode_four c0 c1 c2 c3, if_pos c3]
    simp [Except.bind, Except.toOption, toNat_orShifted]
  rw [if_neg c3, readHalf, Rpc.decode_five c0 c1 c2 c3, Except.bind]
  dsimp only
  have hhigh : ((b4.toUInt32 &&& 127) >>> 4).toNat = (b4.toNat &&& 127) >>> 4 := by simp
  have hbytes : buf.length - (pos + 1 + 1 + 1 + 1 + 1) = bs.length := by rw [← List.length_drop, h5]
  rw [payload_cons h4, endsVarint_cons h4, hbytes]
  by_cases c4 : b4 < 128
  · rw [if_pos (decide_eq_true c4), if_pos c4]
    simp only [Except.toOption, bigInt, hhigh, toNat_orShifted, Nat.reduceLT]
    rfl
  · rw [if_neg (by simpa using c4), if_neg c4, readHalf_high rfl h5 (by simp; omega), hhigh]
    simp [toNat_orShifted]

/-- **The routes are one reader** of the bytes from `pos` on. -/
theorem toOption_decodeInt64Varint (buf : List UInt8) (pos : ℕ) :
    (decodeInt64Varint buf pos).toOption = Rpc.decodeInt64Varint (buf.drop pos) := by
  by_cases hlen : 4 < (buf.drop pos).length
  · match hdrop : buf.drop pos with
    | b0 :: b1 :: b2 :: b3 :: b4 :: bs => exact decodeInt64Varint_far hdrop
    | [] | [_] | [_, _] | [_, _, _] | [_, _, _, _] => simp [hdrop] at hlen
  · exact decodeInt64Varint_near rfl hlen

/-- **An int64 is read back**, whatever stands before and after it, and however little. -/
theorem decodeInt64Varint_encoded (value : Int64) (before after : List UInt8) :
    decodeInt64Varint (before ++ writeVarInt value.toUInt64.toNat ++ after) before.length = .ok value.toInt := by
  have hread := toOption_decodeInt64Varint (before ++ writeVarInt value.toUInt64.toNat ++ after) before.length
  have hvalue : (BitVec.ofNat 64 value.toUInt64.toNat).toInt = value.toInt := by
    show (BitVec.ofNat 64 value.toBitVec.toNat).toInt = value.toBitVec.toInt
    rw [BitVec.ofNat_toNat, BitVec.setWidth_eq]
  rw [List.append_assoc, List.drop_left, Rpc.decodeInt64Varint_write value.toUInt64.toNat_lt, hvalue] at hread
  rw [List.append_assoc]
  cases hresult : decodeInt64Varint (before ++ (writeVarInt value.toUInt64.toNat ++ after)) before.length with
  | error text =>
    rw [hresult] at hread
    cases hread
  | ok read =>
    rw [hresult] at hread
    rw [Option.some.inj hread]

end LynxTrace.Ui
