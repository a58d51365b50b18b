import LynxTrace.Wire.Bytes

/-!
# Wire.Message — proto messages as lists of fields

The meaning of an encoded message, independent of any parser: a field is a tag varint followed by the value its
wire type announces, a message is a concatenation of fields.  Varints take at most ten bytes and count modulo
`2 ^ 64`; they need not be in shortest form.
-/

namespace LynxTrace.Wire

/-- A varint of at most ten bytes, read into a 64-bit register. -/
def IsVarint64 (enc : List UInt8) (v : ℕ) : Prop := ∃ w, IsVarint 10 enc w ∧ v = w % 2 ^ 64

inductive WireValue
  | varint (v : ℕ)
  | fixed64 (v : ℕ)
  | bytes (b : List UInt8)
  | fixed32 (v : ℕ)
  deriving DecidableEq, Repr

/-- The wire type in the three low bits of the tag. -/
def WireValue.wireType : WireValue → ℕ
  | varint _ => 0
  | fixed64 _ => 1
  | bytes _ => 2
  | fixed32 _ => 5

structure WireField where
  id : ℕ
  value : WireValue
  deriving DecidableEq, Repr

def WireField.tag (f : WireField) : ℕ := f.id * 8 + f.value.wireType

inductive EncodesValue : List UInt8 → WireValue → Prop
  | varint {enc : List UInt8} {v : ℕ} (h : IsVarint64 enc v) : EncodesValue enc (.varint v)
  | fixed64 {enc : List UInt8} (h : enc.length = 8) : EncodesValue enc (.fixed64 (leNat enc))
  | bytes {enc payload : List UInt8} (h : IsVarint64 enc payload.length) :
      EncodesValue (enc ++ payload) (.bytes payload)
  | fixed32 {enc : List UInt8} (h : enc.length = 4) : EncodesValue enc (.fixed32 (leNat enc))

inductive EncodesField : List UInt8 → WireField → Prop
  | mk {tagEnc valEnc : List UInt8} {f : WireField} (ht : IsVarint64 tagEnc f.tag)
      (hv : EncodesValue valEnc f.value) : EncodesField (tagEnc ++ valEnc) f

/-- The bytes are the fields of the list, one after the other. -/
inductive EncodesMessage : List UInt8 → List WireField → Prop
  | nil : EncodesMessage [] []
  | cons {enc bs : List UInt8} {f : WireField} {fs : List WireField} (hf : EncodesField enc f)
      (h : EncodesMessage bs fs) : EncodesMessage (enc ++ bs) (f :: fs)

/-! ### Basic facts -/

variable {enc : List UInt8}

theorem IsVarint64.ne_nil {v : ℕ} (h : IsVarint64 enc v) : enc ≠ [] := by
  obtain ⟨w, hw, -⟩ := h
  exact hw.ne_nil

theorem IsVarint64.length_le {v : ℕ} (h : IsVarint64 enc v) : enc.length ≤ 10 := by
  obtain ⟨w, hw, -⟩ := h
  obtain ⟨enc', heq, -, -, hle⟩ := decodeVarint_split hw
  rw [List.append_nil] at heq
  rwa [heq]

theorem IsVarint64.lt {v : ℕ} (h : IsVarint64 enc v) : v < 2 ^ 64 := by
  obtain ⟨w, -, rfl⟩ := h
  exact Nat.mod_lt _ (by norm_num)

theorem isVarint64_encode {v : ℕ} (h : v < 2 ^ 64) : IsVarint64 (encodeVarint 10 v) v :=
  ⟨v, isVarint_encode (lt_of_lt_of_le h (by norm_num)), (Nat.mod_eq_of_lt h).symm⟩

theorem EncodesValue.ne_nil {v : WireValue} (h : EncodesValue enc v) : enc ≠ [] := by
  cases h with
  | varint h => exact h.ne_nil
  | fixed64 h => rintro rfl; simp at h
  | bytes h => exact List.append_ne_nil_of_left_ne_nil h.ne_nil _
  | fixed32 h => rintro rfl; simp at h

theorem WireField.tag_mod (f : WireField) : f.tag % 8 = f.value.wireType := by
  unfold tag
  cases f.value <;> simp only [WireValue.wireType] <;> omega

theorem WireField.tag_div (f : WireField) : f.tag / 8 = f.id := by
  unfold tag
  cases f.value <;> simp only [WireValue.wireType] <;> omega

theorem EncodesField.ne_nil {f : WireField} (h : EncodesField enc f) : enc ≠ [] := by
  obtain ⟨ht, -⟩ := h
  exact List.append_ne_nil_of_left_ne_nil ht.ne_nil _

end LynxTrace.Wire
