import LynxTrace.Ui.ProtoRingBuffer
import Mathlib.Data.Nat.Bitwise

/-!
# Ui.ProtoRingFraming — the frames of a stream, and what `tryReadMessage` makes of them

A header gives the groups of the bits of a length, seven or eight bits each; `declared` is the number they make up, of
any size.  `frames` is the framing of a stream.  The operators of 32 bits give the same number below 2^30; above, what
they give depends on the bits that end up at 30 and 31 (`Recognized`).
-/

namespace LynxTrace.Ui

open ProtoRingBuffer

/-! ### Headers -/

/-- What is at the start of some data: a header that is not complete, a bad tag, or the groups of a length and the data
after it. -/
inductive Header
  | more
  | badTag
  | length (groups : List ℕ) (rest : List UInt8)
  deriving DecidableEq, Repr

namespace ProtoTokenizationMode

/-- The bits of a group. -/
def groupBits : ProtoTokenizationMode → ℕ
  | protoPreamble => 7
  | fixedSize => 8

/-- The length that the groups make up. -/
def declared (mode : ProtoTokenizationMode) : List ℕ → ℕ
  | [] => 0
  | group :: groups => group + 2 ^ mode.groupBits * declared mode groups

/-- The groups of a varint, and the data after it. -/
def varintGroups : List UInt8 → Option (List ℕ × List UInt8)
  | [] => none
  | val :: data =>
    if val.toNat < 0x80 then some ([val.toNat % 128], data)
    else (varintGroups data).map fun r => (val.toNat % 128 :: r.1, r.2)

def header (mode : ProtoTokenizationMode) (data : List UInt8) : Header :=
  match mode with
  | protoPreamble =>
    match data with
    | [] => .more
    | tag :: data =>
      if 0x80 ≤ tag.toNat ∨ tag.toNat % 8 ≠ 2 then .badTag
      else
        match varintGroups data with
        | none => .more
        | some (groups, rest) => .length groups rest
  | fixedSize =>
    match data with
    | b₀ :: b₁ :: b₂ :: b₃ :: rest => .length [b₀.toNat, b₁.toNat, b₂.toNat, b₃.toNat] rest
    | _ => .more

/-- The bit `b` of one of the groups, each shifted by its place modulo 32. -/
def bitAt (mode : ProtoTokenizationMode) (groups : List ℕ) (b : ℕ) : Prop :=
  ∃ i group, groups[i]? = some group ∧ mode.groupBits * i % 32 ≤ b ∧
    group.testBit (b - mode.groupBits * i % 32) = true

/-- A length that is too large is seen to be: bit 30 is set and bit 31 is not. -/
def Recognized (mode : ProtoTokenizationMode) (groups : List ℕ) : Prop := mode.bitAt groups 30 ∧ ¬ mode.bitAt groups 31

end ProtoTokenizationMode

open ProtoTokenizationMode

section Headers

variable {mode : ProtoTokenizationMode} {data rest : List UInt8} {groups : List ℕ}

theorem varintGroups_append (h : varintGroups data = some (groups, rest)) (more : List UInt8) :
    varintGroups (data ++ more) = some (groups, rest ++ more) := by
  induction data generalizing groups with
  | nil => cases h
  | cons val data ih =>
    rw [List.cons_append]
    unfold varintGroups at h ⊢
    split_ifs at h ⊢ with hlast
    · cases h
      rfl
    · obtain ⟨⟨groups', rest'⟩, h1, h2⟩ := Option.map_eq_some_iff.mp h
      cases h2
      rw [ih h1]
      rfl

theorem varintGroups_length (h : varintGroups data = some (groups, rest)) : rest.length < data.length := by
  induction data generalizing groups with
  | nil => cases h
  | cons val data ih =>
    unfold varintGroups at h
    split_ifs at h with hlast
    · cases h
      exact Nat.lt_succ_self _
    · obtain ⟨⟨groups', rest'⟩, h1, h2⟩ := Option.map_eq_some_iff.mp h
      cases h2
      exact (ih h1).trans (Nat.lt_succ_self _)

theorem header_append (h : mode.header data = .length groups rest) (more : List UInt8) :
    mode.header (data ++ more) = .length groups (rest ++ more) := by
  cases mode with
  | protoPreamble =>
    unfold header at h ⊢
    cases data with
    | nil => cases h
    | cons tag data =>
      dsimp only [List.cons_append] at h ⊢
      split_ifs at h ⊢ with htag
      cases hv : varintGroups data with
      | none =>
        rw [hv] at h
        cases h
      | some r =>
        rw [hv] at h
        rw [varintGroups_append hv]
        cases h
        rfl
  | fixedSize =>
    unfold header at h ⊢
    dsimp only at h ⊢
    split at h
    · cases h
      rfl
    · cases h

theorem header_badTag_append (h : mode.header data = .badTag) (more : List UInt8) :
    mode.header (data ++ more) = .badTag := by
  cases mode with
  | protoPreamble =>
    unfold header at h ⊢
    cases data with
    | nil => cases h
    | cons tag data =>
      dsimp only [List.cons_append] at h ⊢
      split_ifs at h ⊢ with htag
      · rfl
      · split at h
        · cases h
        · cases h
  | fixedSize =>
    unfold header at h
    dsimp only at h
    split at h
    · cases h
    · cases h

theorem varintGroups_suffix (h : varintGroups data = some (groups, rest)) : rest <:+ data := by
  induction data generalizing groups with
  | nil => cases h
  | cons val data ih =>
    unfold varintGroups at h
    split_ifs at h with hlast
    · cases h
      exact List.suffix_cons _ _
    · obtain ⟨⟨groups', rest'⟩, h1, h2⟩ := Option.map_eq_some_iff.mp h
      cases h2
      exact (ih h1).trans (List.suffix_cons _ _)

theorem header_suffix (h : mode.header data = .length groups rest) : rest <:+ data := by
  cases mode with
  | protoPreamble =>
    unfold header at h
    cases data with
    | nil => cases h
    | cons tag data =>
      dsimp only at h
      split_ifs at h with htag
      split at h
      · cases h
      · rename_i hv
        cases h
        exact (varintGroups_suffix hv).trans (List.suffix_cons _ _)
  | fixedSize =>
    unfold header at h
    dsimp only at h
    split at h
    · cases h
      exact ⟨[_, _, _, _], rfl⟩
    · cases h

theorem header_length (h : mode.header data = .length groups rest) : rest.length < data.length := by
  cases mode with
  | protoPreamble =>
    unfold header at h
    cases data with
    | nil => cases h
    | cons tag data =>
      dsimp only at h
      split_ifs at h with htag
      split at h
      · cases h
      · rename_i hv
        cases h
        exact (varintGroups_length hv).trans (Nat.lt_succ_self _)
  | fixedSize =>
    unfold header at h
    dsimp only at h
    split at h
    · cases h
      simp only [List.length_cons]
      omega
    · cases h

end Headers

/-- The decision on the frame at the start of some data. -/
def nextFrame (mode : ProtoTokenizationMode) (data : List UInt8) : Outcome UInt8 (List UInt8) :=
  match mode.header data with
  | .more => .more
  | .badTag => .fail []
  | .length groups rest =>
    if kMaxMsgSize ≤ mode.declared groups then .fail []
    else if rest.length < mode.declared groups then .more
    else .frame [rest.take (mode.declared groups)] (rest.drop (mode.declared groups))

variable {ms : List (List UInt8)}

theorem nextFrame_frame {mode : ProtoTokenizationMode} {data rest : List UInt8} :
    nextFrame mode data = .frame ms rest ↔ ∃ groups body, mode.header data = .length groups body ∧
      mode.declared groups < kMaxMsgSize ∧ mode.declared groups ≤ body.length ∧
      ms = [body.take (mode.declared groups)] ∧ rest = body.drop (mode.declared groups) := by
  unfold nextFrame
  cases mode.header data with
  | more => simp
  | badTag => simp
  | length groups body =>
    dsimp only
    constructor
    · intro h
      split_ifs at h with h1 h2
      obtain ⟨h3, h4⟩ := Outcome.frame.inj h
      exact ⟨groups, body, rfl, Nat.lt_of_not_le h1, Nat.le_of_not_lt h2, h3.symm, h4.symm⟩
    · rintro ⟨groups', body', h, h1, h2, rfl, rfl⟩
      cases h
      rw [if_neg (Nat.not_le.mpr h1), if_neg (Nat.not_lt.mpr h2)]

theorem nextFrame_fail {mode : ProtoTokenizationMode} {data : List UInt8} :
    nextFrame mode data = .fail ms ↔ ms = [] ∧ (mode.header data = .badTag ∨
      ∃ groups body, mode.header data = .length groups body ∧ kMaxMsgSize ≤ mode.declared groups) := by
  unfold nextFrame
  cases mode.header data with
  | more => simp
  | badTag => simp [eq_comm]
  | length groups body =>
    dsimp only
    constructor
    · intro h
      split_ifs at h with h1
      cases h
      exact ⟨rfl, Or.inr ⟨groups, body, rfl, h1⟩⟩
    · rintro ⟨rfl, h | ⟨groups', body', h, h1⟩⟩
      · cases h
      · cases h
        rw [if_pos h1]

/-- Length-delimited messages as frames of a stream. -/
def frames (mode : ProtoTokenizationMode) : Framing UInt8 (List UInt8) where
  next := nextFrame mode
  shorter := by
    intro xs ms rest h
    obtain ⟨groups, body, h1, -, -, -, rfl⟩ := nextFrame_frame.mp h
    have := header_length h1
    rw [List.length_drop]
    omega
  frame_append := by
    intro xs ms rest ys h
    obtain ⟨groups, body, h1, h2, h3, rfl, rfl⟩ := nextFrame_frame.mp h
    refine nextFrame_frame.mpr ⟨groups, body ++ ys, header_append h1 ys, h2, ?_, ?_, ?_⟩
    · rw [List.length_append]
      omega
    · rw [List.take_append_of_le_length h3]
    · rw [List.drop_append_of_le_length h3]
  fail_append := by
    intro xs ms ys h
    obtain ⟨hms, hbad⟩ := nextFrame_fail.mp h
    refine nextFrame_fail.mpr ⟨hms, ?_⟩
    rcases hbad with h | ⟨groups, body, h1, h2⟩
    · exact Or.inl (header_badTag_append h ys)
    · exact Or.inr ⟨groups, body ++ ys, header_append h1 ys, h2⟩

/-! ### Lengths in 32 bits -/

/-- The groups, shifted by their places from `shift` on and put together. -/
def orGroups (bits : ℕ) : (shift : ℕ) → BitVec 32 → List ℕ → BitVec 32
  | _, len, [] => len
  | shift, len, group :: groups => orGroups bits (shift + bits) (orShifted len group shift) groups

variable {len : BitVec 32}

theorem orShifted_getLsbD {val shift b : ℕ} (hb : b < 32) : (orShifted len val shift).getLsbD b =
    (len.getLsbD b || (decide (shift % 32 ≤ b) && val.testBit (b - shift % 32))) := by
  have hlt : b - shift % 32 < 32 := by omega
  rw [orShifted, BitVec.getLsbD_or, BitVec.getLsbD_shiftLeft, BitVec.getLsbD_ofNat]
  simp only [hb, hlt, decide_true, Bool.true_and]
  by_cases hle : shift % 32 ≤ b
  · simp [hle, Nat.not_lt.mpr hle]
  · simp [hle, Nat.lt_of_not_le hle]

/-- The bits of the groups put together. -/
theorem orGroups_getLsbD {bits shift b : ℕ} {groups : List ℕ} (hb : b < 32) :
    (orGroups bits shift len groups).getLsbD b = true ↔ len.getLsbD b = true ∨ ∃ i group, groups[i]? = some group ∧
      (shift + bits * i) % 32 ≤ b ∧ group.testBit (b - (shift + bits * i) % 32) = true := by
  induction groups generalizing shift len with
  | nil => simp [orGroups]
  | cons group groups ih =>
    rw [orGroups, ih, orShifted_getLsbD hb, Bool.or_eq_true, Bool.and_eq_true, decide_eq_true_eq, or_assoc]
    refine or_congr_right ?_
    constructor
    · rintro (⟨h1, h2⟩ | ⟨i, g, h1, h2, h3⟩)
      · exact ⟨0, group, rfl, h1, h2⟩
      · have hplace : shift + bits * (i + 1) = shift + bits + bits * i := by
          rw [Nat.mul_succ]
          omega
        exact ⟨i + 1, g, h1, hplace ▸ h2, hplace ▸ h3⟩
    · rintro ⟨i, g, h1, h2, h3⟩
      cases i with
      | zero =>
        obtain rfl := Option.some.inj h1
        exact Or.inl ⟨h2, h3⟩
      | succ i =>
        have hplace : shift + bits * (i + 1) = shift + bits + bits * i := by
          rw [Nat.mul_succ]
          omega
        exact Or.inr ⟨i, g, h1, hplace ▸ h2, hplace ▸ h3⟩

/-- A group that stays below 2^30 is put before the bits that are there. -/
theorem orShifted_toNat {group shift : ℕ} (hlen : len.toNat < 2 ^ shift) (hlt : group * 2 ^ shift < 2 ^ 30) :
    (orShifted len group shift).toNat = len.toNat + group * 2 ^ shift := by
  rcases Nat.eq_zero_or_pos group with rfl | hpos
  · simp [orShifted]
  · have hpow : 2 ^ shift ≤ group * 2 ^ shift := Nat.le_mul_of_pos_left _ hpos
    have hshift : shift < 30 := (Nat.pow_lt_pow_iff_right (by decide : 1 < 2)).mp (hpow.trans_lt hlt)
    have hgroup : group ≤ group * 2 ^ shift := Nat.le_mul_of_pos_right _ (Nat.two_pow_pos shift)
    rw [orShifted, Nat.mod_eq_of_lt (by omega : shift < 32), BitVec.toNat_or, BitVec.toNat_shiftLeft,
      BitVec.toNat_ofNat, Nat.mod_eq_of_lt (by omega : group < 2 ^ 32), Nat.shiftLeft_eq,
      Nat.mod_eq_of_lt (by omega), Nat.or_comm, ← Nat.shiftLeft_eq, ← Nat.shiftLeft_add_eq_or_of_lt hlen,
      Nat.shiftLeft_eq, Nat.add_comm]

/-- Below 2^30 nothing is lost. -/
theorem orGroups_toNat {mode : ProtoTokenizationMode} {shift : ℕ} {groups : List ℕ}
    (hgroups : ∀ g ∈ groups, g < 2 ^ mode.groupBits) (hlen : len.toNat < 2 ^ shift)
    (hlt : mode.declared groups * 2 ^ shift < 2 ^ 30) :
    (orGroups mode.groupBits shift len groups).toNat = len.toNat + mode.declared groups * 2 ^ shift := by
  induction groups generalizing shift len with
  | nil =>
    rw [declared, Nat.zero_mul, Nat.add_zero]
    rfl
  | cons group groups ih =>
    have hgroup := hgroups group List.mem_cons_self
    have hsplit : mode.declared (group :: groups) * 2 ^ shift =
        group * 2 ^ shift + mode.declared groups * 2 ^ (shift + mode.groupBits) := by
      rw [declared, Nat.add_mul, Nat.pow_add, Nat.mul_assoc, Nat.mul_left_comm, Nat.mul_comm (2 ^ mode.groupBits)]
    rw [hsplit] at hlt
    have hstep := orShifted_toNat hlen (show group * 2 ^ shift < 2 ^ 30 by omega)
    have hnext : (orShifted len group shift).toNat < 2 ^ (shift + mode.groupBits) := by
      rw [hstep, Nat.pow_add]
      calc len.toNat + group * 2 ^ shift < 2 ^ shift + group * 2 ^ shift := Nat.add_lt_add_right hlen _
        _ = (group + 1) * 2 ^ shift := by rw [Nat.succ_mul, Nat.add_comm]
        _ ≤ 2 ^ mode.groupBits * 2 ^ shift := Nat.mul_le_mul_right _ hgroup
        _ = 2 ^ shift * 2 ^ mode.groupBits := Nat.mul_comm _ _
    rw [orGroups, ih (fun g hg => hgroups g (List.mem_cons_of_mem _ hg)) hnext (by omega), hstep, hsplit]
    omega

/-! ### `tryReadMessage` -/

theorem varintLen_eq (shift : ℕ) (len : BitVec 32) (pos : ℕ) (data : List UInt8) : varintLen shift len pos data =
    (varintGroups data).map fun r => (orGroups 7 shift len r.1, pos + (data.length - r.2.length)) := by
  induction data generalizing shift len pos with
  | nil => rfl
  | cons val data ih =>
    unfold varintLen varintGroups
    dsimp only
    split_ifs with hlast
    · rw [Option.map_some, List.length_cons, Nat.add_sub_cancel_left]
      rfl
    · rw [ih]
      cases hv : varintGroups data with
      | none => rfl
      | some r =>
        have hlen := varintGroups_length (show varintGroups data = some (r.1, r.2) from hv)
        simp only [Option.map_some, List.length_cons, orGroups]
        rw [show pos + 1 + (data.length - r.2.length) = pos + (data.length + 1 - r.2.length) by omega]

theorem varintGroups_lt {data rest : List UInt8} {groups : List ℕ} (h : varintGroups data = some (groups, rest)) :
    ∀ g ∈ groups, g < 128 := by
  induction data generalizing groups with
  | nil => cases h
  | cons val data ih =>
    unfold varintGroups at h
    split_ifs at h with hlast
    · cases h
      exact fun g hg => List.mem_singleton.mp hg ▸ Nat.mod_lt _ (by decide)
    · obtain ⟨⟨groups', rest'⟩, h1, h2⟩ := Option.map_eq_some_iff.mp h
      cases h2
      intro g hg
      rcases List.mem_cons.mp hg with rfl | hg
      · exact Nat.mod_lt _ (by decide)
      · exact ih h1 g hg

theorem header_lt {mode : ProtoTokenizationMode} {data rest : List UInt8} {groups : List ℕ}
    (h : mode.header data = .length groups rest) : ∀ g ∈ groups, g < 2 ^ mode.groupBits := by
  cases mode with
  | protoPreamble =>
    unfold header at h
    cases data with
    | nil => cases h
    | cons tag data =>
      dsimp only at h
      split_ifs at h with htag
      split at h
      · cases h
      · rename_i hv
        cases h
        exact varintGroups_lt hv
  | fixedSize =>
    unfold header at h
    dsimp only at h
    split at h
    · cases h
      intro g hg
      simp only [List.mem_cons, List.not_mem_nil, or_false] at hg
      rcases hg with rfl | rfl | rfl | rfl <;> exact UInt8.toNat_lt _
    · cases h

/-- The header as the code reads it. -/
theorem readHeader_length {mode : ProtoTokenizationMode} {data rest : List UInt8} {groups : List ℕ}
    (h : mode.header data = .length groups rest) (pos : ℕ) : readHeader mode pos data =
      .ok (some (orGroups mode.groupBits 0 0 groups, pos + (data.length - rest.length))) := by
  cases mode with
  | protoPreamble =>
    unfold header at h
    unfold readHeader
    cases data with
    | nil => cases h
    | cons tag data =>
      dsimp only at h ⊢
      split_ifs at h ⊢ with htag
      split at h
      · cases h
      · rename_i hv
        cases h
        have hlen := varintGroups_length hv
        rw [varintLen_eq, hv, Option.map_some, List.length_cons,
          show pos + 1 + (data.length - rest.length) = pos + (data.length + 1 - rest.length) by omega]
        rfl
  | fixedSize =>
    unfold header at h
    unfold readHeader
    dsimp only at h ⊢
    split at h
    · cases h
      simp only [List.length_cons]
      rw [show pos + (rest.length + 1 + 1 + 1 + 1 - rest.length) = pos + 1 + 1 + 1 + 1 by omega]
      rfl
    · cases h

theorem readHeader_more {mode : ProtoTokenizationMode} {data : List UInt8} (h : mode.header data = .more) (pos : ℕ) :
    readHeader mode pos data = .ok none := by
  cases mode with
  | protoPreamble =>
    unfold header at h
    unfold readHeader
    cases data with
    | nil => rfl
    | cons tag data =>
      dsimp only at h ⊢
      split_ifs at h ⊢ with htag
      split at h
      · rename_i hv
        rw [varintLen_eq, hv]
        rfl
      · cases h
  | fixedSize =>
    unfold header at h
    unfold readHeader
    dsimp only at h ⊢
    split at h
    · cases h
    · rename_i hshort
      match data with
      | [] => rfl
      | [_] => rfl
      | [_, _] => rfl
      | [_, _, _] => rfl
      | b₀ :: b₁ :: b₂ :: b₃ :: rest => exact absurd rfl (hshort b₀ b₁ b₂ b₃ rest)

theorem readHeader_badTag {mode : ProtoTokenizationMode} {data : List UInt8} (h : mode.header data = .badTag)
    (pos : ℕ) : ∃ e, readHeader mode pos data = .error e := by
  cases mode with
  | protoPreamble =>
    unfold header at h
    unfold readHeader
    cases data with
    | nil => cases h
    | cons tag data =>
      dsimp only at h ⊢
      split_ifs at h ⊢ with htag
      · exact ⟨_, rfl⟩
      · split at h
        · cases h
        · cases h
  | fixedSize =>
    unfold header at h
    dsimp only at h
    split at h
    · cases h
    · cases h

/-- The length in 32 bits is found to be too large exactly where bit 30 is set and bit 31 is not. -/
theorem recognized_iff {mode : ProtoTokenizationMode} {groups : List ℕ} :
    (kMaxMsgSize : ℤ) ≤ (orGroups mode.groupBits 0 0 groups).toInt ↔ mode.Recognized groups := by
  have hbit : ∀ b, b < 32 → ((orGroups mode.groupBits 0 0 groups).getLsbD b = true ↔ mode.bitAt groups b) := by
    intro b hb
    rw [orGroups_getLsbD hb]
    simp only [Nat.zero_add, BitVec.ofNat_eq_ofNat, BitVec.getLsbD_zero, Bool.false_eq_true, false_or]
    rfl
  unfold Recognized
  rw [← hbit 30 (by decide), ← hbit 31 (by decide)]
  generalize orGroups mode.groupBits 0 0 groups = len
  have hlt := len.isLt
  have h30 : len.getLsbD 30 = true ↔ len.toNat / 2 ^ 30 % 2 = 1 := by
    rw [BitVec.getLsbD, Nat.testBit_eq_decide_div_mod_eq, decide_eq_true_eq]
  have h31 : len.getLsbD 31 = true ↔ len.toNat / 2 ^ 31 % 2 = 1 := by
    rw [BitVec.getLsbD, Nat.testBit_eq_decide_div_mod_eq, decide_eq_true_eq]
  rw [h30, h31, BitVec.toInt_eq_toNat_cond, kMaxMsgSize]
  split_ifs <;> omega

/-- A length below 2^30 is what the operators give. -/
theorem orGroups_toInt {mode : ProtoTokenizationMode} {data rest : List UInt8} {groups : List ℕ}
    (h : mode.header data = .length groups rest) (hlt : mode.declared groups < kMaxMsgSize) :
    (orGroups mode.groupBits 0 0 groups).toInt = mode.declared groups := by
  have hnat : (orGroups mode.groupBits 0 0 groups).toNat = mode.declared groups := by
    rw [orGroups_toNat (header_lt h) (by simp) (by rw [kMaxMsgSize] at hlt; omega)]
    simp
  have hsmall : 2 * (orGroups mode.groupBits 0 0 groups).toNat < 2 ^ 32 := by
    rw [hnat]
    rw [kMaxMsgSize] at hlt
    omega
  rw [BitVec.toInt_eq_toNat_of_lt hsmall, hnat]

/-- The data between two positions of a buffer. -/
theorem length_slice_between {data : List UInt8} {dataStart dataEnd : ℕ} (hle : dataEnd ≤ data.length) :
    (slice data dataStart (dataEnd - dataStart)).length = dataEnd - dataStart := by
  rw [slice, List.length_take, List.length_drop]
  omega

section TryReadMessage

variable {mode : ProtoTokenizationMode} {data : List UInt8} {dataStart dataEnd : ℕ}

/-- A header whose length is not found to be too large. -/
theorem tryReadMessage_length (hle : dataEnd ≤ data.length) {groups : List ℕ} {body : List UInt8}
    (h : mode.header (slice data dataStart (dataEnd - dataStart)) = .length groups body) :
    tryReadMessage mode data dataStart dataEnd =
      if (kMaxMsgSize : ℤ) ≤ (orGroups mode.groupBits 0 0 groups).toInt then
        .error ("RPC framing error, message too large (" ++ toString (orGroups mode.groupBits 0 0 groups).toInt ++
          " > " ++ toString kMaxMsgSize)
      else if (dataEnd : ℤ) < (dataEnd - body.length : ℕ) + (orGroups mode.groupBits 0 0 groups).toInt then .ok none
      else .ok (some (subarray data (dataEnd - body.length)
        ((dataEnd - body.length : ℕ) + (orGroups mode.groupBits 0 0 groups).toInt))) := by
  have hlen : (slice data dataStart (dataEnd - dataStart)).length = dataEnd - dataStart := length_slice_between hle
  have hshort := header_length h
  rw [hlen] at hshort
  unfold tryReadMessage
  rw [if_neg (Nat.not_lt.mpr hle), if_neg (by omega), readHeader_length h, hlen,
    show dataStart + (dataEnd - dataStart - body.length) = dataEnd - body.length by omega]

/-- A frame is read from its place. -/
theorem tryReadMessage_frame (hle : dataEnd ≤ data.length) {rest : List UInt8}
    (h : nextFrame mode (slice data dataStart (dataEnd - dataStart)) = .frame ms rest) :
    ∃ m, ms = [m] ∧ tryReadMessage mode data dataStart dataEnd = .ok (some (dataEnd - rest.length - m.length, m)) ∧
      rest.length + m.length ≤ dataEnd ∧ rest <:+ slice data dataStart (dataEnd - dataStart) := by
  obtain ⟨groups, body, hheader, hmax, hbody, rfl, rfl⟩ := nextFrame_frame.mp h
  have hsuffix := header_suffix hheader
  have hlong := header_length hheader
  have hlen : (slice data dataStart (dataEnd - dataStart)).length = dataEnd - dataStart := length_slice_between hle
  rw [hlen] at hlong
  refine ⟨_, rfl, ?_, ?_, (List.drop_suffix _ _).trans hsuffix⟩
  · have hsmall : ¬ (kMaxMsgSize : ℤ) ≤ (mode.declared groups : ℕ) := by omega
    have hinside : ¬ (dataEnd : ℤ) < (dataEnd - body.length : ℕ) + (mode.declared groups : ℕ) := by omega
    have hforward : ¬ ((dataEnd - body.length : ℕ) : ℤ) + (mode.declared groups : ℕ) < 0 := by omega
    rw [tryReadMessage_length hle hheader, orGroups_toInt hheader hmax, if_neg hsmall, if_neg hinside, subarray,
      if_neg hforward, List.length_drop, List.length_take]
    have hstop : min (((dataEnd - body.length : ℕ) : ℤ) + (mode.declared groups : ℕ)).toNat data.length =
        dataEnd - body.length + mode.declared groups := by omega
    have hoffset : dataEnd - (body.length - mode.declared groups) - min (mode.declared groups) body.length =
        dataEnd - body.length := by omega
    have hstart : dataEnd - body.length = dataStart + (dataEnd - dataStart - body.length) := by omega
    rw [hstop, hoffset, Nat.add_sub_cancel_left]
    nth_rewrite 2 [hstart]
    rw [← slice_slice (n := dataEnd - dataStart) (by omega), slice]
    have hdrop := List.suffix_iff_eq_drop.mp hsuffix
    rw [hlen] at hdrop
    rw [← hdrop]
  · rw [List.length_drop, List.length_take]
    omega

theorem tryReadMessage_more (hle : dataEnd ≤ data.length)
    (h : nextFrame mode (slice data dataStart (dataEnd - dataStart)) = .more) :
    tryReadMessage mode data dataStart dataEnd = .ok none := by
  unfold nextFrame at h
  cases hheader : mode.header (slice data dataStart (dataEnd - dataStart)) with
  | more =>
    unfold tryReadMessage
    rw [if_neg (Nat.not_lt.mpr hle), readHeader_more hheader]
    split_ifs <;> rfl
  | badTag =>
    rw [hheader] at h
    cases h
  | length groups body =>
    rw [hheader] at h
    dsimp only at h
    split_ifs at h with h1 h2
    have hshort := header_length hheader
    rw [length_slice_between hle] at hshort
    rw [tryReadMessage_length hle hheader, orGroups_toInt hheader (Nat.lt_of_not_le h1), if_neg (by omega),
      if_pos (by omega)]

/-- What is no frame throws, unless it is a length that is not found to be too large. -/
theorem tryReadMessage_fail (hle : dataEnd ≤ data.length)
    (h : nextFrame mode (slice data dataStart (dataEnd - dataStart)) = .fail ms) :
    (∃ e, tryReadMessage mode data dataStart dataEnd = .error e) ↔
      ∀ groups body, mode.header (slice data dataStart (dataEnd - dataStart)) = .length groups body →
        mode.Recognized groups := by
  obtain ⟨-, hbad | ⟨groups, body, hheader, -⟩⟩ := nextFrame_fail.mp h
  · have hpos : ¬ dataEnd ≤ dataStart := by
      intro hempty
      have hnil : slice data dataStart (dataEnd - dataStart) = [] := by
        rw [Nat.sub_eq_zero_of_le hempty]
        exact List.take_zero
      rw [hnil] at hbad
      cases mode <;> cases hbad
    obtain ⟨e, he⟩ := readHeader_badTag hbad dataStart
    constructor
    · intro _ groups body h1
      rw [hbad] at h1
      cases h1
    · intro _
      refine ⟨e, ?_⟩
      unfold tryReadMessage
      rw [if_neg (Nat.not_lt.mpr hle), if_neg hpos, he]
  · rw [tryReadMessage_length hle hheader]
    constructor
    · rintro ⟨e, he⟩ groups' body' h1
      rw [hheader] at h1
      cases h1
      by_contra hnot
      rw [if_neg (mt recognized_iff.mp hnot)] at he
      split_ifs at he
    · intro hrec
      rw [if_pos (recognized_iff.mpr (hrec groups body hheader))]
      exact ⟨_, rfl⟩

end TryReadMessage

end LynxTrace.Ui
