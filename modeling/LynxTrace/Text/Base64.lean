import LynxTrace.Base.Overwrite
import Mathlib.Algebra.Order.Ring.Int

/-!
# Text.Base64 — `Base64Encode` and `Base64Decode` (src/base/base64.cc)

Strings are lists of bytes.  A buffer of the caller is a list of its size; a write outside of it and a failing
`PERFETTO_CHECK` are faults.
-/

namespace LynxTrace.Text.Base64

inductive Fault
  | outOfBounds
  | failedCheck
  deriving DecidableEq, Repr

def kPadding : UInt8 := '='.toUInt8

def kEncTable : List UInt8 :=
  "ABCDEFGHIJKLMNOPQRSTUVWXYZabcdefghijklmnopqrstuvwxyz0123456789+/".toList.map Char.toUInt8

/-- Value used for invalid characters. -/
def kX : ℕ := 0xff

/-- Supports the standard (+/) and URL-safe (-_) alphabets. -/
def kDecTable : List ℕ := [
  62, kX, 62, kX, 63, 52, 53, 54, 55, 56,
  57, 58, 59, 60, 61, kX, kX, kX, 0,  kX,
  kX, kX, 0,  1,  2,  3,  4,  5,  6,  7,
  8,  9,  10, 11, 12, 13, 14, 15, 16, 17,
  18, 19, 20, 21, 22, 23, 24, 25, kX, kX,
  kX, kX, 63, kX, 26, 27, 28, 29, 30, 31,
  32, 33, 34, 35, 36, 37, 38, 39, 40, 41,
  42, 43, 44, 45, 46, 47, 48, 49, 50, 51]

def kMinDecChar : UInt8 := '+'.toUInt8

def kMaxDecChar : UInt8 := 'z'.toUInt8

def decodeChar (c : UInt8) : ℕ :=
  if c < kMinDecChar ∨ kMaxDecChar < c then kX else kDecTable.getD (c.toNat - kMinDecChar.toNat) kX

def base64EncSize (srcSize : ℕ) : ℕ := (srcSize + 2) / 3 * 4

def base64DecSize (srcSize : ℕ) : ℕ := (srcSize + 3) / 4 * 3

/-! ### `Base64Encode` -/

/-- `kEncTable[i]` -/
def encodeChar (i : ℕ) : UInt8 := kEncTable.getD i 0

/-- The characters that the loop writes, from `dst[0]` on. -/
def encodeLoop : List UInt8 → List UInt8
  | [] => []
  | [s0] => [encodeChar (s0.toNat >>> 2), encodeChar ((s0.toNat &&& 0x03) <<< 4), kPadding, kPadding]
  | [s0, s1] =>
    let carry0 := (s0.toNat &&& 0x03) <<< 4
    let carry1 := (s1.toNat &&& 0x0f) <<< 2
    [encodeChar (s0.toNat >>> 2), encodeChar (carry0 ||| (s1.toNat >>> 4)), encodeChar carry1, kPadding]
  | s0 :: s1 :: s2 :: rd =>
    let carry0 := (s0.toNat &&& 0x03) <<< 4
    let carry1 := (s1.toNat &&& 0x0f) <<< 2
    encodeChar (s0.toNat >>> 2) :: encodeChar (carry0 ||| (s1.toNat >>> 4)) ::
      encodeChar (carry1 ||| (s2.toNat >>> 6)) :: encodeChar (s2.toNat &&& 0x3f) :: encodeLoop rd

/-- The returned size, and the destination. -/
def base64EncodeInto (src dst : List UInt8) : Except Fault (ℤ × List UInt8) :=
  let paddedDstSize := base64EncSize src.length
  if dst.length < paddedDstSize then .ok (-1, dst)
  else if dst.length < (encodeLoop src).length then .error .outOfBounds
  else .ok (paddedDstSize, overwrite dst 0 (encodeLoop src))

def base64Encode (src : List UInt8) : Except Fault (List UInt8) :=
  match base64EncodeInto src (List.replicate (base64EncSize src.length) 0) with
  | .error fault => .error fault
  | .ok (res, dst) => if res = dst.length then .ok dst else .error .failedCheck

/-! ### `Base64Decode` -/

/-- `dst[i] = b` -/
def store (dst : List UInt8) (i : ℕ) (b : UInt8) : Except Fault (List UInt8) :=
  if i < dst.length then .ok (dst.set i b) else .error .outOfBounds

structure Group where
  s0 : UInt8
  s1 : UInt8
  s2 : UInt8
  s3 : UInt8

/-- The next four characters; padding is only feasible for the last two of them. -/
def readGroup : List UInt8 → Group × List UInt8
  | s0 :: s1 :: s2 :: s3 :: rd => (⟨s0, s1, s2, s3⟩, rd)
  | [s0, s1, s2] => (⟨s0, s1, s2, kPadding⟩, [])
  | [s0, s1] => (⟨s0, s1, kPadding, kPadding⟩, [])
  | [s0] => (⟨s0, 0, kPadding, kPadding⟩, [])
  | [] => (⟨0, 0, kPadding, kPadding⟩, [])

theorem readGroup_length_lt {c : UInt8} {rd : List UInt8} : (readGroup (c :: rd)).2.length < (c :: rd).length := by
  unfold readGroup
  split <;> simp_all
  omega

/-- The three bytes of a group, written from `dst[wrSize]` on. -/
def storeGroup (g : Group) (dst : List UInt8) (wrSize : ℕ) : Except Fault (List UInt8) := do
  let dst ← store dst wrSize (UInt8.ofNat ((decodeChar g.s0 <<< 2) ||| (decodeChar g.s1 >>> 4)))
  let dst ← store dst (wrSize + 1) (UInt8.ofNat ((decodeChar g.s1 <<< 4) ||| (decodeChar g.s2 >>> 2)))
  store dst (wrSize + 2) (UInt8.ofNat ((decodeChar g.s2 <<< 6) ||| decodeChar g.s3))

/-- One of the characters is invalid. -/
def Group.invalid (g : Group) : Bool :=
  decodeChar g.s0 = kX || decodeChar g.s1 = kX || decodeChar g.s2 = kX || decodeChar g.s3 = kX

/-- What the trailing padding of the last group takes off. -/
def Group.padding (g : Group) : ℕ := (if g.s3 = kPadding then 1 else 0) + (if g.s2 = kPadding then 1 else 0)

/-- The loop of `Base64Decode` with the last group read, and what comes after it. -/
def decodeLoop (dst : List UInt8) (wrSize : ℕ) (s : Group) : List UInt8 → Except Fault (ℤ × List UInt8)
  | [] => if dst.length < wrSize then .error .failedCheck else .ok ((wrSize : ℤ) - s.padding, dst)
  | c :: rd =>
    let r := readGroup (c :: rd)
    if r.1.invalid then .ok (-1, dst)
    else
      match storeGroup r.1 dst wrSize with
      | .error fault => .error fault
      | .ok dst => decodeLoop dst (wrSize + 3) r.1 r.2
termination_by rd => rd.length
decreasing_by exact readGroup_length_lt

/-- The returned size, and the destination. -/
def base64DecodeInto (src dst : List UInt8) : Except Fault (ℤ × List UInt8) :=
  if dst.length < base64DecSize src.length then .ok (-1, dst) else decodeLoop dst 0 ⟨0, 0, 0, 0⟩ src

/-- `none` is a decoding error. -/
def base64Decode (src : List UInt8) : Except Fault (Option (List UInt8)) :=
  match base64DecodeInto src (List.replicate (base64DecSize src.length) 0) with
  | .error fault => .error fault
  | .ok (res, dst) =>
    if res < 0 then .ok none
    else if (dst.length : ℤ) < res then .error .failedCheck
    else .ok (some (dst.take res.toNat))

end LynxTrace.Text.Base64
