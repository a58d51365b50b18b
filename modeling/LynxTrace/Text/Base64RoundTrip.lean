import LynxTrace.Text.Base64
import Mathlib.Data.List.DropRight
import Mathlib.Tactic.SplitIfs

/-!
# Text.Base64RoundTrip — decoding what was encoded

The characters of an encoding are the digits of its bytes in base 64 (`body`), then padding.  `decodeLoop_body` reads
them back in any alphabet whose characters have the right digits (`Alphabet`), with any part of the padding left.

* `base64_roundTrip` — the round trips, and the bounds on what a decoder writes and returns.
-/

namespace LynxTrace.Text.Base64

/-! ### Digits -/

theorem shiftLeft_or {a b k : ℕ} (h : b < 2 ^ k) : (a <<< k) ||| b = a * 2 ^ k + b := by
  rw [← Nat.shiftLeft_add_eq_or_of_lt h, Nat.shiftLeft_eq]

theorem and_three (a : ℕ) : a &&& 0x03 = a % 4 := Nat.and_two_pow_sub_one_eq_mod a 2

theorem and_fifteen (a : ℕ) : a &&& 0x0f = a % 16 := Nat.and_two_pow_sub_one_eq_mod a 4

theorem and_sixtyThree (a : ℕ) : a &&& 0x3f = a % 64 := Nat.and_two_pow_sub_one_eq_mod a 6

/-- The characters that the encoder writes without padding. -/
def body : List UInt8 → List UInt8
  | [] => []
  | [a] => [encodeChar (a.toNat / 4), encodeChar (a.toNat % 4 * 16)]
  | [a, b] =>
    [encodeChar (a.toNat / 4), encodeChar (a.toNat % 4 * 16 + b.toNat / 16), encodeChar (b.toNat % 16 * 4)]
  | a :: b :: c :: s =>
    encodeChar (a.toNat / 4) :: encodeChar (a.toNat % 4 * 16 + b.toNat / 16) ::
      encodeChar (b.toNat % 16 * 4 + c.toNat / 64) :: encodeChar (c.toNat % 64) :: body s

/-- The number of padding characters. -/
def padCount : List UInt8 → ℕ
  | [] => 0
  | [_] => 2
  | [_, _] => 1
  | _ :: _ :: _ :: s => padCount s

theorem encodeLoop_eq (s : List UInt8) : encodeLoop s = body s ++ List.replicate (padCount s) kPadding := by
  induction s using body.induct with
  | case1 => rfl
  | case2 a =>
    rw [encodeLoop, and_three, Nat.shiftLeft_eq, Nat.shiftRight_eq_div_pow]
    rfl
  | case3 a b =>
    have hb := b.toNat_lt
    rw [encodeLoop, and_three, and_fifteen, shiftLeft_or (by rw [Nat.shiftRight_eq_div_pow]; omega), Nat.shiftLeft_eq,
      Nat.shiftRight_eq_div_pow, Nat.shiftRight_eq_div_pow]
    rfl
  | case4 a b c s ih =>
    have hb := b.toNat_lt
    have hc := c.toNat_lt
    rw [encodeLoop, and_three, and_fifteen, and_sixtyThree, shiftLeft_or (by rw [Nat.shiftRight_eq_div_pow]; omega),
      shiftLeft_or (by rw [Nat.shiftRight_eq_div_pow]; omega), Nat.shiftRight_eq_div_pow, Nat.shiftRight_eq_div_pow,
      Nat.shiftRight_eq_div_pow, ih]
    rfl

/-- Both formulas for the size agree. -/
theorem length_encodeLoop (s : List UInt8) : (encodeLoop s).length = base64EncSize s.length := by
  induction s using body.induct with
  | case1 => rfl
  | case2 a | case3 a b => simp [encodeLoop, base64EncSize]
  | case4 a b c s ih =>
    simp only [encodeLoop, List.length_cons, ih, base64EncSize]
    omega

theorem base64Encode_eq (s : List UInt8) : base64Encode s = .ok (encodeLoop s) := by
  have hlen := length_encodeLoop s
  have hwrite : overwrite (List.replicate (base64EncSize s.length) (0 : UInt8)) 0 (encodeLoop s) = encodeLoop s := by
    rw [overwrite, List.take_zero, List.nil_append, List.drop_eq_nil_of_le, List.append_nil]
    rw [List.length_replicate, hlen, Nat.zero_add]
  unfold base64Encode base64EncodeInto
  dsimp only
  rw [List.length_replicate, if_neg (Nat.lt_irrefl _), hlen, if_neg (Nat.lt_irrefl _), hwrite]
  dsimp only
  rw [hlen, if_pos rfl]

/-- The bytes that a group stands for. -/
def Group.bytes (g : Group) : List UInt8 :=
  [UInt8.ofNat ((decodeChar g.s0 <<< 2) ||| (decodeChar g.s1 >>> 4)),
    UInt8.ofNat ((decodeChar g.s1 <<< 4) ||| (decodeChar g.s2 >>> 2)),
    UInt8.ofNat ((decodeChar g.s2 <<< 6) ||| decodeChar g.s3)]

/-- The characters of the group have the digits of these bytes. -/
structure Group.Digits (g : Group) (a b c : UInt8) : Prop where
  d0 : decodeChar g.s0 = a.toNat / 4
  d1 : decodeChar g.s1 = a.toNat % 4 * 16 + b.toNat / 16
  d2 : decodeChar g.s2 = b.toNat % 16 * 4 + c.toNat / 64
  d3 : decodeChar g.s3 = c.toNat % 64

theorem Group.Digits.bytes {g : Group} {a b c : UInt8} (h : g.Digits a b c) : g.bytes = [a, b, c] := by
  have ha := a.toNat_lt
  have hb := b.toNat_lt
  have hc := c.toNat_lt
  have hbyte : ∀ (n : ℕ) (x : UInt8), n % 256 = x.toNat → UInt8.ofNat n = x := by
    intro n x hn
    refine UInt8.toNat_inj.mp ?_
    rw [UInt8.toNat_ofNat']
    exact hn
  unfold Group.bytes
  rw [h.d0, h.d1, h.d2, h.d3, Nat.shiftRight_eq_div_pow, Nat.shiftRight_eq_div_pow, shiftLeft_or (by omega),
    shiftLeft_or (by omega), shiftLeft_or (by omega), hbyte _ a (by omega), hbyte _ b (by omega), hbyte _ c (by omega)]

theorem Group.Digits.valid {g : Group} {a b c : UInt8} (h : g.Digits a b c) : g.invalid = false := by
  have ha := a.toNat_lt
  have hb := b.toNat_lt
  have hc := c.toNat_lt
  unfold Group.invalid
  rw [h.d0, h.d1, h.d2, h.d3, kX]
  simp only [Bool.or_eq_false_iff, decide_eq_false_iff_not]
  omega

/-! ### Writes -/

variable {dst : List UInt8}

theorem store_ok {i : ℕ} (h : i < dst.length) (b : UInt8) :
    ∃ dst', store dst i b = .ok dst' ∧ dst'.length = dst.length ∧ dst'.take (i + 1) = dst.take i ++ [b] := by
  refine ⟨dst.set i b, if_pos h, List.length_set, ?_⟩
  have hlen : i < (dst.set i b).length := by rwa [List.length_set]
  rw [List.take_add_one, List.getElem?_eq_getElem hlen, List.getElem_set_self, List.take_set_of_le (Nat.le_refl i)]
  rfl

variable {wrSize : ℕ}

/-- A group is written behind what is there. -/
theorem storeGroup_ok (g : Group) (h : wrSize + 3 ≤ dst.length) :
    ∃ dst', storeGroup g dst wrSize = .ok dst' ∧ dst'.length = dst.length ∧
      dst'.take (wrSize + 3) = dst.take wrSize ++ g.bytes := by
  obtain ⟨dst₁, h₁, hlen₁, htake₁⟩ :=
    store_ok (show wrSize < dst.length by omega) (UInt8.ofNat ((decodeChar g.s0 <<< 2) ||| (decodeChar g.s1 >>> 4)))
  obtain ⟨dst₂, h₂, hlen₂, htake₂⟩ := store_ok (show wrSize + 1 < dst₁.length by omega)
    (UInt8.ofNat ((decodeChar g.s1 <<< 4) ||| (decodeChar g.s2 >>> 2)))
  obtain ⟨dst₃, h₃, hlen₃, htake₃⟩ := store_ok (show wrSize + 2 < dst₂.length by omega)
    (UInt8.ofNat ((decodeChar g.s2 <<< 6) ||| decodeChar g.s3))
  refine ⟨dst₃, ?_, by omega, ?_⟩
  · unfold storeGroup
    rw [h₁]
    show (do let dst ← store dst₁ (wrSize + 1) _; store dst (wrSize + 2) _) = _
    rw [h₂]
    exact h₃
  · rw [htake₃, htake₂, htake₁, List.append_assoc, List.append_assoc]
    rfl

/-! ### The bounds -/

theorem readGroup_space {c : UInt8} {rd : List UInt8} :
    3 + base64DecSize (readGroup (c :: rd)).2.length ≤ base64DecSize (c :: rd).length := by
  unfold readGroup base64DecSize
  split <;> simp_all
  all_goals omega

theorem Group.padding_le (g : Group) : g.padding ≤ 2 := by
  unfold Group.padding
  split_ifs <;> omega

/-- With the space of the formula nothing is written outside, and the padding is never more than what was written. -/
theorem decodeLoop_bounds {rd : List UInt8} {s : Group} (hspace : wrSize + base64DecSize rd.length ≤ dst.length)
    (hpad : s.padding ≤ wrSize) :
    ∃ res dst', decodeLoop dst wrSize s rd = .ok (res, dst') ∧ dst'.length = dst.length ∧
      (res = -1 ∨ 0 ≤ res ∧ res ≤ dst.length) := by
  induction hn : rd.length using Nat.strongRecOn generalizing rd dst wrSize s with
  | ind n ih =>
    subst hn
    cases rd with
    | nil =>
      rw [List.length_nil] at hspace
      rw [decodeLoop, if_neg (by omega)]
      exact ⟨_, dst, rfl, rfl, Or.inr (by omega)⟩
    | cons c rd =>
      have hgroup := @readGroup_space c rd
      rw [decodeLoop]
      split_ifs with hinvalid
      · exact ⟨-1, dst, rfl, rfl, Or.inl rfl⟩
      · obtain ⟨dst', hstore, hlen, -⟩ := storeGroup_ok (readGroup (c :: rd)).1 (show wrSize + 3 ≤ dst.length by omega)
        rw [hstore]
        have hle := (readGroup (c :: rd)).1.padding_le
        obtain ⟨res, dst'', hloop, hlen', hres⟩ := ih _ readGroup_length_lt
          (show wrSize + 3 + base64DecSize (readGroup (c :: rd)).2.length ≤ dst'.length by omega)
          (show (readGroup (c :: rd)).1.padding ≤ wrSize + 3 by omega) rfl
        exact ⟨res, dst'', hloop, by omega, by omega⟩

/-- Decoding fails, or writes inside the destination only and returns a size within it. -/
theorem base64DecodeInto_bounds (src dst : List UInt8) :
    ∃ res dst', base64DecodeInto src dst = .ok (res, dst') ∧ dst'.length = dst.length ∧
      (res = -1 ∨ 0 ≤ res ∧ res ≤ dst.length) := by
  unfold base64DecodeInto
  split_ifs with hsize
  · exact ⟨-1, dst, rfl, rfl, Or.inl rfl⟩
  · exact decodeLoop_bounds (by omega) (show Group.padding ⟨0, 0, 0, 0⟩ ≤ 0 by decide)

/-! ### The round trip -/

/-- An alphabet: its characters have the digits of the standard ones, and none is the padding. -/
structure Alphabet (f : UInt8 → UInt8) : Prop where
  decode : ∀ i, i < 64 → decodeChar (f (encodeChar i)) = i
  ne_padding : ∀ i, i < 64 → f (encodeChar i) ≠ kPadding

/-- The character of the URL-safe alphabet. -/
def urlSafe (c : UInt8) : UInt8 :=
  if c = '+'.toUInt8 then '-'.toUInt8 else if c = '/'.toUInt8 then '_'.toUInt8 else c

theorem alphabet_id : Alphabet id := ⟨by decide +kernel, by decide +kernel⟩

theorem alphabet_urlSafe : Alphabet urlSafe := ⟨by decide +kernel, by decide +kernel⟩

theorem decodeChar_padding : decodeChar kPadding = 0 := by decide

/-- One round of the loop. -/
theorem decodeLoop_group (last : Group) {c : UInt8} {rd rest : List UInt8} {g : Group} {x y z : UInt8}
    (hread : readGroup (c :: rd) = (g, rest)) (hdigits : g.Digits x y z) (hspace : wrSize + 3 ≤ dst.length) :
    ∃ dst', decodeLoop dst wrSize last (c :: rd) = decodeLoop dst' (wrSize + 3) g rest ∧
      dst'.length = dst.length ∧ dst'.take (wrSize + 3) = dst.take wrSize ++ [x, y, z] := by
  obtain ⟨dst', hstore, hlen, htake⟩ := storeGroup_ok g hspace
  refine ⟨dst', ?_, hlen, hdigits.bytes ▸ htake⟩
  rw [decodeLoop, hread]
  dsimp only
  rw [hdigits.valid, if_neg Bool.false_ne_true, hstore]

/-- The bytes that a last group holds before its padding. -/
theorem take_last (bytes : List UInt8) {dst' more : List UInt8} (hwr : wrSize ≤ dst.length)
    (htake : dst'.take (wrSize + 3) = dst.take wrSize ++ (bytes ++ more)) (hlen : bytes.length ≤ 3) :
    dst'.take (wrSize + bytes.length) = dst.take wrSize ++ bytes := by
  have hshort : dst'.take (wrSize + bytes.length) = (dst'.take (wrSize + 3)).take (wrSize + bytes.length) := by
    rw [List.take_take, Nat.min_eq_left (by omega)]
  have hwhole : (dst.take wrSize ++ bytes).length = wrSize + bytes.length := by
    rw [List.length_append, List.length_take, Nat.min_eq_left hwr]
  rw [hshort, htake, ← List.append_assoc, ← hwhole, List.take_left]

/-- The loop reads the bytes back. -/
theorem decodeLoop_body {f : UInt8 → UInt8} (hf : Alphabet f) {s : List UInt8} {k : ℕ} {last : Group}
    (hk : k ≤ padCount s) (hlast : last.padding = 0)
    (hspace : wrSize + base64DecSize ((body s).map f ++ List.replicate k kPadding).length ≤ dst.length) :
    ∃ dst', decodeLoop dst wrSize last ((body s).map f ++ List.replicate k kPadding) =
      .ok (((wrSize + s.length : ℕ) : ℤ), dst') ∧ dst'.take (wrSize + s.length) = dst.take wrSize ++ s := by
  have hpadding := decodeChar_padding
  induction s using body.induct generalizing dst wrSize last with
  | case1 =>
    obtain rfl := Nat.le_zero.mp hk
    refine ⟨dst, ?_, (List.append_nil _).symm⟩
    show decodeLoop dst wrSize last [] = _
    rw [decodeLoop, if_neg (by omega), hlast]
    simp
  | case2 a =>
    have ha := a.toNat_lt
    let g : Group := ⟨f (encodeChar (a.toNat / 4)), f (encodeChar (a.toNat % 4 * 16)), kPadding, kPadding⟩
    have hread : readGroup (g.s0 :: g.s1 :: List.replicate k kPadding) = (g, []) := by
      have hk : k = 0 ∨ k = 1 ∨ k = 2 := by
        rw [padCount] at hk
        omega
      rcases hk with rfl | rfl | rfl <;> rfl
    have hdigits : g.Digits a 0 0 := ⟨hf.decode _ (by omega), hf.decode _ (by omega), hpadding, hpadding⟩
    have hroom : wrSize + 3 ≤ dst.length := by
      simp only [body, List.map_cons, List.map_nil, List.length_append, List.length_cons, List.length_nil,
        base64DecSize] at hspace
      omega
    obtain ⟨dst', hloop, hlen, htake⟩ := decodeLoop_group last hread hdigits hroom
    refine ⟨dst', hloop.trans ?_, take_last [a] (by omega) htake (by simp)⟩
    rw [decodeLoop, if_neg (by omega), show g.padding = 2 by rfl, List.length_singleton,
      show ((wrSize + 3 : ℕ) : ℤ) - (2 : ℕ) = (wrSize + 1 : ℕ) by omega]
  | case3 a b =>
    have ha := a.toNat_lt
    have hb := b.toNat_lt
    let g : Group := ⟨f (encodeChar (a.toNat / 4)), f (encodeChar (a.toNat % 4 * 16 + b.toNat / 16)),
      f (encodeChar (b.toNat % 16 * 4)), kPadding⟩
    have hread : readGroup (g.s0 :: g.s1 :: g.s2 :: List.replicate k kPadding) = (g, []) := by
      have hk : k = 0 ∨ k = 1 := by
        rw [padCount] at hk
        omega
      rcases hk with rfl | rfl <;> rfl
    have hdigits : g.Digits a b 0 :=
      ⟨hf.decode _ (by omega), hf.decode _ (by omega), hf.decode _ (by omega), hpadding⟩
    have hroom : wrSize + 3 ≤ dst.length := by
      simp only [body, List.map_cons, List.map_nil, List.length_append, List.length_cons, List.length_nil,
        base64DecSize] at hspace
      omega
    have hpad : g.padding = 1 := by
      unfold Group.padding
      rw [if_pos rfl, if_neg (hf.ne_padding _ (by omega))]
    obtain ⟨dst', hloop, hlen, htake⟩ := decodeLoop_group last hread hdigits hroom
    refine ⟨dst', hloop.trans ?_, take_last [a, b] (by omega) htake (by simp)⟩
    rw [decodeLoop, if_neg (by omega), hpad, show [a, b].length = 2 by rfl,
      show ((wrSize + 3 : ℕ) : ℤ) - (1 : ℕ) = (wrSize + 2 : ℕ) by omega]
  | case4 a b c s ih =>
    have ha := a.toNat_lt
    have hb := b.toNat_lt
    have hc := c.toNat_lt
    let g : Group := ⟨f (encodeChar (a.toNat / 4)), f (encodeChar (a.toNat % 4 * 16 + b.toNat / 16)),
      f (encodeChar (b.toNat % 16 * 4 + c.toNat / 64)), f (encodeChar (c.toNat % 64))⟩
    have hread : readGroup (g.s0 :: g.s1 :: g.s2 :: g.s3 :: ((body s).map f ++ List.replicate k kPadding)) =
        (g, (body s).map f ++ List.replicate k kPadding) := rfl
    have hdigits : g.Digits a b c :=
      ⟨hf.decode _ (by omega), hf.decode _ (by omega), hf.decode _ (by omega), hf.decode _ (by omega)⟩
    have hpad : g.padding = 0 := by
      unfold Group.padding
      rw [if_neg (hf.ne_padding _ (by omega)), if_neg (hf.ne_padding _ (by omega))]
    have hroom : wrSize + 3 + base64DecSize ((body s).map f ++ List.replicate k kPadding).length ≤ dst.length := by
      simp only [body, List.map_cons, List.cons_append, List.length_cons, base64DecSize] at hspace ⊢
      omega
    obtain ⟨dst₁, hloop, hlen, htake⟩ := decodeLoop_group last hread hdigits (show wrSize + 3 ≤ dst.length by omega)
    obtain ⟨dst₂, hrest, htake'⟩ := ih hk hpad (hlen ▸ hroom)
    have hcount : wrSize + (a :: b :: c :: s).length = wrSize + 3 + s.length := by
      simp only [List.length_cons]
      omega
    refine ⟨dst₂, hloop.trans (hrest.trans ?_), ?_⟩
    · rw [hcount]
    · rw [hcount, htake', htake, List.append_assoc]
      rfl

/-- Any spelling of the encoding is decoded. -/
theorem base64Decode_body {f : UInt8 → UInt8} (hf : Alphabet f) {s : List UInt8} {k : ℕ} (hk : k ≤ padCount s) :
    base64Decode ((body s).map f ++ List.replicate k kPadding) = .ok (some s) := by
  obtain ⟨text, htext⟩ : ∃ text, text = (body s).map f ++ List.replicate k kPadding := ⟨_, rfl⟩
  obtain ⟨dst, hdst⟩ : ∃ dst, dst = List.replicate (base64DecSize text.length) (0 : UInt8) := ⟨_, rfl⟩
  have hlen : dst.length = base64DecSize text.length := by rw [hdst, List.length_replicate]
  obtain ⟨dst', hloop, htake⟩ := decodeLoop_body hf hk (show Group.padding ⟨0, 0, 0, 0⟩ = 0 by decide)
    (show 0 + base64DecSize _ ≤ dst.length by rw [hlen, htext, Nat.zero_add])
  have hinto : base64DecodeInto text dst = .ok ((s.length : ℕ), dst') := by
    unfold base64DecodeInto
    rw [if_neg (by omega), htext, hloop, Nat.zero_add]
  obtain ⟨res, dst'', hinto', hsame, hres⟩ := base64DecodeInto_bounds text dst
  rw [hinto, Except.ok.injEq, Prod.mk.injEq] at hinto'
  obtain ⟨rfl, rfl⟩ := hinto'
  rw [Nat.zero_add, List.take_zero, List.nil_append] at htake
  rw [← htext]
  unfold base64Decode
  rw [← hdst, hinto]
  dsimp only
  rw [if_neg (by omega), if_neg (by omega), Int.toNat_natCast, htake]

/-! ### The encoding without its padding -/

/-- The text without its trailing padding. -/
def trimPadding (text : List UInt8) : List UInt8 := text.rdropWhile (· = kPadding)

theorem encodeChar_of_mem_body {s : List UInt8} {c : UInt8} (h : c ∈ body s) : ∃ i, i < 64 ∧ c = encodeChar i := by
  induction s using body.induct with
  | case1 => cases h
  | case2 a =>
    have ha := a.toNat_lt
    simp only [body, List.mem_cons, List.not_mem_nil, or_false] at h
    rcases h with rfl | rfl <;> exact ⟨_, by omega, rfl⟩
  | case3 a b =>
    have ha := a.toNat_lt
    have hb := b.toNat_lt
    simp only [body, List.mem_cons, List.not_mem_nil, or_false] at h
    rcases h with rfl | rfl | rfl <;> exact ⟨_, by omega, rfl⟩
  | case4 a b c s ih =>
    have ha := a.toNat_lt
    have hb := b.toNat_lt
    have hc := c.toNat_lt
    simp only [body, List.mem_cons] at h
    rcases h with rfl | rfl | rfl | rfl | h
    · exact ⟨_, by omega, rfl⟩
    · exact ⟨_, by omega, rfl⟩
    · exact ⟨_, by omega, rfl⟩
    · exact ⟨_, by omega, rfl⟩
    · exact ih h

theorem trimPadding_encodeLoop (s : List UInt8) : trimPadding (encodeLoop s) = body s := by
  have hpads : ∀ k, trimPadding (body s ++ List.replicate k kPadding) = trimPadding (body s) := by
    intro k
    induction k with
    | zero => rw [List.replicate_zero, List.append_nil]
    | succ k ih =>
      rw [List.replicate_succ', ← List.append_assoc, trimPadding, List.rdropWhile_concat_pos _ _ _ (by simp)]
      exact ih
  rw [encodeLoop_eq, hpads, trimPadding, List.rdropWhile_eq_self_iff]
  intro hne hlast
  obtain ⟨i, hi, heq⟩ := encodeChar_of_mem_body (List.getLast_mem hne)
  refine alphabet_id.ne_padding i hi ?_
  rw [id_eq, ← heq]
  exact of_decide_eq_true hlast

/-- What was encoded is decoded, in both alphabets and with the padding or without it; and a decoder fails or returns
a size within the destination, where alone it writes. -/
theorem base64_roundTrip :
    (∀ s, ∃ text, base64Encode s = .ok text ∧ base64Decode text = .ok (some s) ∧
      base64Decode (trimPadding text) = .ok (some s) ∧ base64Decode (text.map urlSafe) = .ok (some s) ∧
      base64Decode ((trimPadding text).map urlSafe) = .ok (some s)) ∧
    ∀ src dst, ∃ res dst', base64DecodeInto src dst = .ok (res, dst') ∧ dst'.length = dst.length ∧
      (res = -1 ∨ 0 ≤ res ∧ res ≤ dst.length) := by
  refine ⟨fun s => ⟨encodeLoop s, base64Encode_eq s, ?_, ?_, ?_, ?_⟩, base64DecodeInto_bounds⟩
  · have h := base64Decode_body alphabet_id (Nat.le_refl (padCount s))
    rwa [List.map_id, ← encodeLoop_eq] at h
  · have h := base64Decode_body alphabet_id (Nat.zero_le (padCount s))
    rwa [List.map_id, List.replicate_zero, List.append_nil, ← trimPadding_encodeLoop] at h
  · have h := base64Decode_body alphabet_urlSafe (Nat.le_refl (padCount s))
    rwa [show List.replicate (padCount s) kPadding = (List.replicate (padCount s) kPadding).map urlSafe by
      rw [List.map_replicate]; rfl, ← List.map_append, ← encodeLoop_eq] at h
  · have h := base64Decode_body alphabet_urlSafe (Nat.zero_le (padCount s))
    rwa [List.replicate_zero, List.append_nil, ← trimPadding_encodeLoop] at h

end LynxTrace.Text.Base64
