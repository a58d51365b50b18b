import LynxTrace.Filtering.BytecodeParser

/-!
# Filtering.MessageTable — what the words of a message say about a field

`MessageTable.state` is the state of a field in the two vectors of a message.  A table is well formed (`Fits`) when
its ranges start at the limit of the directly indexed fields and follow each other.  Adding fields behind all the others
keeps it so and sets the states of the added fields only; `Query` reads the states back (`query_tables`).
-/

namespace LynxTrace.Filtering

/-! ### Field states -/

variable {m currentMsgIndex fieldId : ℕ}

theorem allowed_or_eq (h : m < 2 ^ 31) : kAllowed ||| m = 2 ^ 31 + m := by
  have hor := Nat.two_pow_add_eq_or_of_lt h 1
  rw [Nat.mul_one] at hor
  exact hor.symm

theorem and_kNotAllowedMask (m : ℕ) : m &&& kNotAllowedMask = m % 2 ^ 31 := Nat.and_two_pow_sub_one_eq_mod m 31

theorem and_kSemanticTypeMask (m : ℕ) : m &&& kSemanticTypeMask = m % 2 ^ 16 := Nat.and_two_pow_sub_one_eq_mod m 16

theorem and_typeMask (h : m < 2 ^ 31) : m &&& kFilterStringFieldWithTypeMask = m / 2 ^ 16 * 2 ^ 16 := by
  have hmask : kFilterStringFieldWithTypeMask = (2 ^ 15 - 1) * 2 ^ 16 := by decide
  have hsplit : m = m / 2 ^ 16 * 2 ^ 16 + m % 2 ^ 16 := (Nat.div_add_mod' m (2 ^ 16)).symm
  refine Nat.eq_of_testBit_eq fun i => ?_
  rw [hmask, Nat.testBit_and, Nat.testBit_mul_two_pow, Nat.testBit_mul_two_pow]
  by_cases hi : 16 ≤ i
  · rw [Nat.testBit_two_pow_sub_one, Nat.testBit_div_two_pow, Nat.sub_add_cancel hi]
    by_cases hlt : i - 16 < 15
    · simp [hi, hlt]
    · have hbit : m.testBit i = false := Nat.testBit_lt_two_pow (h.trans_le (Nat.pow_le_pow_right (by norm_num) (by omega)))
      simp [hbit]
  · simp [hi]

/-- What `Query` makes of the state of an added field. -/
theorem resultOf_allowed (h : m < 2 ^ 31) : FilterBytecodeParser.resultOf (kAllowed ||| m) =
    ⟨true, m, if m / 2 ^ 16 = 0x7fff ∧ m ≠ kFilterStringField then m % 2 ^ 16 else 0⟩ := by
  have hmod : (2 ^ 31 + m) % 2 ^ 31 = m := by omega
  have hbit : (2 ^ 31 + m) &&& kAllowed ≠ 0 := by
    have htest : (2 ^ 31 + m).testBit 31 = true := by
      rw [Nat.testBit_two_pow_add_eq, Nat.testBit_lt_two_pow h]
      rfl
    rw [kAllowed, Nat.and_two_pow, htest]
    simp
  have htype : m &&& kFilterStringFieldWithTypeMask = kFilterStringFieldWithType ↔ m / 2 ^ 16 = 0x7fff := by
    rw [and_typeMask h]
    unfold kFilterStringFieldWithType
    omega
  simp only [FilterBytecodeParser.resultOf, allowed_or_eq h, and_kNotAllowedMask, hmod, hbit, htype,
    and_kSemanticTypeMask, ne_eq, not_false_eq_true, decide_true]

theorem resultOf_zero : FilterBytecodeParser.resultOf 0 = ⟨false, 0, 0⟩ := by decide

theorem typedMessageId_eq (s : ℕ) : typedMessageId s = 0x7fff0000 + s % 2 ^ 16 := by
  have hlt : s % 2 ^ 16 < 2 ^ 16 := Nat.mod_lt _ (by norm_num)
  have hor := Nat.two_pow_add_eq_or_of_lt hlt 0x7fff
  rw [typedMessageId, and_kSemanticTypeMask]
  exact hor.symm

/-! ### Lookups -/

namespace MessageTable

/-- The state of the first range that has the field. -/
def rangeState (fieldId : ℕ) : List Range → ℕ
  | [] => 0
  | r :: ranges => if r.start ≤ fieldId ∧ fieldId < r.limit then r.state else rangeState fieldId ranges

/-- The state of a field; 0 is not allowed. -/
def state (t : MessageTable) (fieldId : ℕ) : ℕ :=
  if fieldId < t.directIndexedFields.length then t.directIndexedFields.getD fieldId 0 else rangeState fieldId t.ranges

/-- The ranges start at the limit or later, follow each other, and end by `bound`. -/
structure Fits (t : MessageTable) (bound : ℕ) : Prop where
  direct : t.directIndexedFields.length ≤ kDirectlyIndexLimit
  starts : ∀ r ∈ t.ranges, kDirectlyIndexLimit ≤ r.start
  limits : ∀ r ∈ t.ranges, r.limit ≤ bound
  sorted : t.ranges.Pairwise fun a b => a.limit ≤ b.start

variable {t : MessageTable}

theorem Fits.mono {n : ℕ} (h : t.Fits m) (hle : m ≤ n) : t.Fits n :=
  ⟨h.direct, h.starts, fun r hr => (h.limits r hr).trans hle, h.sorted⟩

theorem fits_empty (bound : ℕ) : ({} : MessageTable).Fits bound := ⟨by simp, by simp, by simp, .nil⟩

theorem findRange_flatMap (f : ℕ) (ranges : List Range) :
    FilterBytecodeParser.findRange f (ranges.flatMap fun r => [r.start, r.limit, r.state]) = rangeState f ranges := by
  induction ranges with
  | nil => rfl
  | cons r ranges ih => simp [FilterBytecodeParser.findRange, rangeState, ih]

theorem fieldState_toWords (t : MessageTable) (f : ℕ) : FilterBytecodeParser.fieldState f t.toWords = t.state f := by
  unfold toWords FilterBytecodeParser.fieldState state
  by_cases hf : f < t.directIndexedFields.length
  · simp only [List.cons_append, if_pos hf]
    rw [List.getD_append _ _ _ _ hf]
  · simp only [List.cons_append, if_neg hf, List.drop_left, findRange_flatMap]

theorem rangeState_append (f : ℕ) (ranges : List Range) (r : Range) (h : ∀ r' ∈ ranges, r'.limit ≤ r.start) :
    rangeState f (ranges ++ [r]) = if r.start ≤ f ∧ f < r.limit then r.state else rangeState f ranges := by
  induction ranges with
  | nil => simp [rangeState]
  | cons r' ranges ih =>
    have hr' := h r' (by simp)
    rw [List.cons_append, rangeState, ih fun r'' hr'' => h r'' (by simp [hr''])]
    by_cases hf : r.start ≤ f ∧ f < r.limit
    · rw [if_neg (by omega), if_pos hf, if_pos hf]
    · rw [if_neg hf, if_neg hf]
      rfl

variable {f b : ℕ}

theorem rangeState_of_lt {ranges : List Range} (h : ∀ r ∈ ranges, f < r.start) : rangeState f ranges = 0 := by
  induction ranges with
  | nil => rfl
  | cons r ranges ih =>
    have hr := h r (by simp)
    rw [rangeState, if_neg (by omega), ih fun r' hr' => h r' (by simp [hr'])]

variable {bound id a : ℕ}

/-- Below the limit the state is the directly indexed one. -/
theorem Fits.state_direct (h : t.Fits bound) (hf : f < kDirectlyIndexLimit) :
    t.state f = t.directIndexedFields.getD f 0 := by
  unfold state
  by_cases hlt : f < t.directIndexedFields.length
  · rw [if_pos hlt]
  · rw [if_neg hlt, rangeState_of_lt fun r hr => hf.trans_le (h.starts r hr), List.getD_eq_default]
    omega

theorem Fits.state_range (h : t.Fits bound) (hf : kDirectlyIndexLimit ≤ f) : t.state f = rangeState f t.ranges := by
  have hd := h.direct
  rw [state, if_neg (by omega)]

/-! ### Adding fields -/

theorem addDirectlyIndexedField_getD (t : MessageTable) (id msgId f : ℕ) :
    (t.addDirectlyIndexedField id msgId).directIndexedFields.getD f 0 =
      if f = id then kAllowed ||| msgId else t.directIndexedFields.getD f 0 := by
  simp only [addDirectlyIndexedField, List.getD_eq_getElem?_getD, List.getElem?_set, List.length_append,
    List.length_replicate, List.getElem?_append, List.getElem?_replicate]
  by_cases hf : f = id
  · subst hf
    rw [if_pos rfl, if_pos (by omega), if_pos rfl]
    rfl
  · rw [if_neg (Ne.symm hf), if_neg hf]
    by_cases hlt : f < t.directIndexedFields.length
    · rw [if_pos hlt]
    · rw [if_neg hlt, List.getElem?_eq_none (by omega)]
      split_ifs <;> rfl

theorem addDirectlyIndexedField_length (t : MessageTable) (id msgId : ℕ) :
    (t.addDirectlyIndexedField id msgId).directIndexedFields.length = max t.directIndexedFields.length (id + 1) := by
  simp only [addDirectlyIndexedField, List.length_set, List.length_append, List.length_replicate]
  omega

theorem Fits.addDirectlyIndexedField (h : t.Fits bound) (hid : id < kDirectlyIndexLimit) (msgId : ℕ) :
    (t.addDirectlyIndexedField id msgId).Fits bound := by
  refine ⟨?_, h.starts, h.limits, h.sorted⟩
  have hd := h.direct
  rw [addDirectlyIndexedField_length]
  omega

theorem Fits.state_addDirectlyIndexedField (h : t.Fits bound) (hid : id < kDirectlyIndexLimit) (msgId f : ℕ) :
    (t.addDirectlyIndexedField id msgId).state f = if f = id then kAllowed ||| msgId else t.state f := by
  have h' := h.addDirectlyIndexedField hid msgId
  by_cases hf : f < kDirectlyIndexLimit
  · rw [h'.state_direct hf, h.state_direct hf, addDirectlyIndexedField_getD]
  · rw [h'.state_range (by omega), h.state_range (by omega), if_neg (by omega)]
    rfl

theorem Fits.addRange (h : t.Fits bound) (ha : kDirectlyIndexLimit ≤ a) (hb : bound ≤ a) (hab : a < b) (msgId : ℕ) :
    (t.addRange a b msgId).Fits b := by
  refine ⟨h.direct, fun r hr => ?_, fun r hr => ?_, ?_⟩
  · rcases List.mem_append.mp hr with hr | hr
    · exact h.starts r hr
    · rw [List.mem_singleton.mp hr]
      exact ha
  · rcases List.mem_append.mp hr with hr | hr
    · exact (h.limits r hr).trans (by omega)
    · rw [List.mem_singleton.mp hr]
  · refine List.pairwise_append.mpr ⟨h.sorted, List.pairwise_singleton _ _, fun r hr r' hr' => ?_⟩
    rw [List.mem_singleton.mp hr']
    exact (h.limits r hr).trans hb

theorem Fits.state_addRange (h : t.Fits bound) (ha : kDirectlyIndexLimit ≤ a) (hb : bound ≤ a) (hab : a < b)
    (msgId f : ℕ) : (t.addRange a b msgId).state f = if a ≤ f ∧ f < b then kAllowed ||| msgId else t.state f := by
  have h' := h.addRange ha hb hab msgId
  by_cases hf : f < kDirectlyIndexLimit
  · rw [h'.state_direct hf, h.state_direct hf, if_neg (by omega)]
    rfl
  · rw [h'.state_range (by omega), h.state_range (by omega)]
    exact rangeState_append f t.ranges ⟨a, b, kAllowed ||| msgId⟩ fun r hr => (h.limits r hr).trans hb

theorem Fits.addField (h : t.Fits bound) (hb : bound ≤ id) (msgId : ℕ) : (t.addField id msgId).Fits (id + 1) := by
  unfold MessageTable.addField
  split_ifs with hid
  · exact (h.addDirectlyIndexedField hid msgId).mono (by omega)
  · exact h.addRange (by omega) hb (by omega) msgId

theorem Fits.state_addField (h : t.Fits bound) (hb : bound ≤ id) (msgId f : ℕ) :
    (t.addField id msgId).state f = if f = id then kAllowed ||| msgId else t.state f := by
  unfold MessageTable.addField
  split_ifs with hid hf hf
  · rw [h.state_addDirectlyIndexedField hid, if_pos hf]
  · rw [h.state_addDirectlyIndexedField hid, if_neg hf]
  · rw [h.state_addRange (by omega) hb (by omega), if_pos (by omega)]
  · rw [h.state_addRange (by omega) hb (by omega), if_neg (by omega)]

/-! ### Adding ranges of simple fields -/

theorem addSimpleField_eq (t : MessageTable) (id : ℕ) :
    t.addDirectlyIndexedField id (kAllowed ||| kSimpleField) = t.addDirectlyIndexedField id kSimpleField := by
  simp only [addDirectlyIndexedField, ← Nat.or_assoc, Nat.or_self]

/-- The loop over the ids below the limit. -/
def addDirect (t : MessageTable) (a n : ℕ) : MessageTable :=
  (List.range' a n).foldl (fun t id => t.addDirectlyIndexedField id (kAllowed ||| kSimpleField)) t

theorem Fits.addDirect (n : ℕ) (h : t.Fits bound) (hn : a + n ≤ kDirectlyIndexLimit) : (t.addDirect a n).Fits bound ∧
      ∀ f, (t.addDirect a n).state f = if a ≤ f ∧ f < a + n then kAllowed ||| kSimpleField else t.state f := by
  induction n generalizing t a with
  | zero =>
    refine ⟨h, fun f => ?_⟩
    rw [if_neg (by omega)]
    rfl
  | succ n ih =>
    have hid : a < kDirectlyIndexLimit := by omega
    have hfirst := h.addDirectlyIndexedField hid kSimpleField
    obtain ⟨hfits, hstate⟩ := ih hfirst (show a + 1 + n ≤ kDirectlyIndexLimit by omega)
    have heq : t.addDirect a (n + 1) = (t.addDirectlyIndexedField a kSimpleField).addDirect (a + 1) n := by
      simp only [MessageTable.addDirect, List.range'_succ, List.foldl_cons, addSimpleField_eq]
    rw [heq]
    refine ⟨hfits, fun f => ?_⟩
    rw [hstate, h.state_addDirectlyIndexedField hid]
    by_cases hf : f = a
    · rw [if_neg (by omega), if_pos hf, if_pos (by omega)]
    · rw [if_neg hf]
      exact if_congr (by omega) rfl rfl

theorem addSimpleFields_eq (t : MessageTable) (a b : ℕ) : t.addSimpleFields a b =
    let directEnd := max a (min b kDirectlyIndexLimit)
    let t := t.addDirect a (directEnd - a)
    if directEnd < b then t.addRange directEnd b kSimpleField else t := rfl

theorem Fits.addSimpleFields (h : t.Fits bound) (hb : bound ≤ a) (hab : a < b) :
    (t.addSimpleFields a b).Fits b ∧
      ∀ f, (t.addSimpleFields a b).state f = if a ≤ f ∧ f < b then kAllowed ||| kSimpleField else t.state f := by
  rw [addSimpleFields_eq]
  simp only
  set directEnd := max a (min b kDirectlyIndexLimit)
  obtain ⟨hfits, hstate⟩ : (t.addDirect a (directEnd - a)).Fits bound ∧ ∀ f, (t.addDirect a (directEnd - a)).state f =
      if a ≤ f ∧ f < directEnd then kAllowed ||| kSimpleField else t.state f := by
    by_cases ha : a < kDirectlyIndexLimit
    · have hd := h.addDirect (directEnd - a) (show a + (directEnd - a) ≤ kDirectlyIndexLimit by omega)
      rwa [show a + (directEnd - a) = directEnd by omega] at hd
    · have hzero : directEnd - a = 0 := by omega
      rw [hzero]
      exact ⟨h, fun f => by rw [if_neg (by omega)]; rfl⟩
  split_ifs with hrange
  · refine ⟨hfits.addRange (by omega) (by omega) hrange kSimpleField, fun f => ?_⟩
    rw [hfits.state_addRange (by omega) (by omega) hrange, hstate]
    by_cases hf : directEnd ≤ f ∧ f < b
    · rw [if_pos hf, if_pos (by omega)]
    · rw [if_neg hf]
      exact if_congr (by omega) rfl rfl
  · refine ⟨hfits.mono (by omega), fun f => ?_⟩
    rw [hstate]
    exact if_congr (by omega) rfl rfl

/-! ### Directly indexed fields in another order -/

theorem ext_getD {l l' : List ℕ} (hlen : l.length = l'.length) (h : ∀ f, l.getD f 0 = l'.getD f 0) : l = l' := by
  refine List.ext_getElem hlen fun i hi hi' => ?_
  have hd := h i
  rwa [List.getD_eq_getElem _ _ hi, List.getD_eq_getElem _ _ hi'] at hd

theorem addDirectlyIndexedField_comm (t : MessageTable) {i j : ℕ} (hij : i ≠ j) (m n : ℕ) :
    (t.addDirectlyIndexedField i m).addDirectlyIndexedField j n =
      (t.addDirectlyIndexedField j n).addDirectlyIndexedField i m := by
  have hdirect : ((t.addDirectlyIndexedField i m).addDirectlyIndexedField j n).directIndexedFields =
      ((t.addDirectlyIndexedField j n).addDirectlyIndexedField i m).directIndexedFields := by
    refine ext_getD ?_ fun f => ?_
    · simp only [addDirectlyIndexedField_length]
      omega
    · simp only [addDirectlyIndexedField_getD]
      split_ifs <;> first | rfl | omega
  exact congrArg (fun d => (⟨d, t.ranges⟩ : MessageTable)) hdirect

/-- A field below a range of simple fields can as well be added after it. -/
theorem addSimpleFields_addField_comm (t : MessageTable) (b : ℕ) (hid : id < kDirectlyIndexLimit) (ha : id < a) (m : ℕ) :
    (t.addSimpleFields a b).addField id m = (t.addField id m).addSimpleFields a b := by
  have hdirect : ∀ (n a : ℕ) (t : MessageTable), id < a →
      (t.addDirect a n).addDirectlyIndexedField id m = (t.addDirectlyIndexedField id m).addDirect a n := by
    intro n
    induction n with
    | zero => exact fun _ _ _ => rfl
    | succ n ih =>
      intro a t hlt
      simp only [addDirect, List.range'_succ, List.foldl_cons]
      rw [addDirectlyIndexedField_comm t (Nat.ne_of_lt hlt)]
      exact ih (a + 1) _ (by omega)
  simp only [addField, if_pos hid, addSimpleFields_eq]
  split_ifs
  · rw [← hdirect _ _ _ ha]
    rfl
  · exact hdirect _ _ _ ha

end MessageTable

/-! ### Overlay entries -/

/-- The table after all of the entries have been added to it. -/
def addEntries (entries : List OverlayEntry) (t : MessageTable) : MessageTable :=
  entries.foldl (fun t e => t.addField e.fieldId e.messageId) t

/-- No entry of the list is for the field or one before it. -/
def Behind (currentMsgIndex fieldId : ℕ) : List OverlayEntry → Prop
  | [] => True
  | e :: _ => e.msgIndex > currentMsgIndex ∨ (e.msgIndex = currentMsgIndex ∧ e.fieldId > fieldId)

theorem processOverlay_entries {pending : List OverlayEntry}
    (h : ∀ e ∈ pending, e.msgIndex = currentMsgIndex ∧ e.fieldId < fieldId) (overlay : List OverlayEntry)
    (t : MessageTable) : processOverlay currentMsgIndex fieldId (pending ++ overlay) t =
      processOverlay currentMsgIndex fieldId overlay (addEntries pending t) := by
  induction pending generalizing t with
  | nil => rfl
  | cons e pending ih =>
    obtain ⟨hmsg, hid⟩ := h e (by simp)
    rw [List.cons_append, processOverlay, if_neg (by omega), if_neg (by omega), ih fun e' he' => h e' (by simp [he'])]
    rfl

theorem processOverlay_behind {overlay : List OverlayEntry} (h : Behind currentMsgIndex fieldId overlay)
    (t : MessageTable) : processOverlay currentMsgIndex fieldId overlay t = (t, overlay, 0) := by
  cases overlay with
  | nil => rfl
  | cons e overlay =>
    rw [processOverlay]
    exact if_pos h

theorem processOverlay_match {messageId : ℕ} (overlay : List OverlayEntry) (t : MessageTable) :
    processOverlay currentMsgIndex fieldId (⟨currentMsgIndex, fieldId, messageId⟩ :: overlay) t =
      (t, overlay, messageId) := by
  rw [processOverlay, if_neg (by simp), if_pos rfl]

/-! ### Messages one after the other -/

/-- Appends a message. -/
def FilterBytecodeParser.push (p : FilterBytecodeParser) (t : MessageTable) : FilterBytecodeParser :=
  ⟨p.words ++ t.toWords, p.messageOffset ++ [p.words.length % 2 ^ 32]⟩

/-- The loaded filter of some messages. -/
def FilterBytecodeParser.ofTables (tables : List MessageTable) : FilterBytecodeParser :=
  let p := tables.foldl push {}
  ⟨p.words, p.messageOffset ++ [p.words.length % 2 ^ 32]⟩

namespace FilterBytecodeParser

/-- The offsets of messages that are appended at `n`. -/
def offsets (n : ℕ) : List MessageTable → List ℕ
  | [] => []
  | t :: tables => n % 2 ^ 32 :: offsets (n + t.toWords.length) tables

theorem foldl_push (tables : List MessageTable) (p : FilterBytecodeParser) : tables.foldl push p =
    ⟨p.words ++ tables.flatMap MessageTable.toWords, p.messageOffset ++ offsets p.words.length tables⟩ := by
  induction tables generalizing p with
  | nil => simp [offsets]
  | cons t tables ih =>
    rw [List.foldl_cons, ih]
    simp [push, offsets]

theorem length_offsets (n : ℕ) (tables : List MessageTable) : (offsets n tables).length = tables.length := by
  induction tables generalizing n with
  | nil => rfl
  | cons t tables ih => simp [offsets, ih]

theorem offsets_getD (tables : List MessageTable) (n : ℕ) (hm : m ≤ tables.length) :
    (offsets n tables ++ [(n + (tables.flatMap MessageTable.toWords).length) % 2 ^ 32]).getD m 0 =
      (n + ((tables.take m).flatMap MessageTable.toWords).length) % 2 ^ 32 := by
  induction tables generalizing n m with
  | nil =>
    obtain rfl : m = 0 := by simpa using hm
    rfl
  | cons t tables ih =>
    cases m with
    | zero => simp [offsets]
    | succ m =>
      have hrec := ih (n + t.toWords.length) (Nat.le_of_succ_le_succ hm)
      simp only [offsets, List.cons_append, List.getD_cons_succ, List.flatMap_cons, List.length_append,
        List.take_succ_cons, ← Nat.add_assoc]
      exact hrec

/-- `Query` on the loaded filter of some messages that takes fewer than `2 ^ 32` words. -/
theorem query_ofTables {tables : List MessageTable} (h : (ofTables tables).words.length < 2 ^ 32) (m f : ℕ) :
    (ofTables tables).query m f = match tables[m]? with
      | none => ⟨false, 0, 0⟩
      | some t => resultOf (t.state f) := by
  have hwords : (ofTables tables).words = tables.flatMap MessageTable.toWords := by
    simp [ofTables, foldl_push]
  have hoffset : (ofTables tables).messageOffset =
      offsets 0 tables ++ [(0 + (tables.flatMap MessageTable.toWords).length) % 2 ^ 32] := by
    simp [ofTables, foldl_push]
  rw [hwords] at h
  unfold query
  rw [hwords, hoffset, List.length_append, length_offsets]
  by_cases hm : m < tables.length
  · have htake : tables = tables.take m ++ tables[m] :: tables.drop (m + 1) := by
      rw [List.cons_getElem_drop_succ, List.take_append_drop]
    have hflat : tables.flatMap MessageTable.toWords = (tables.take m).flatMap MessageTable.toWords ++
        (tables[m].toWords ++ (tables.drop (m + 1)).flatMap MessageTable.toWords) :=
      (congrArg (List.flatMap MessageTable.toWords) htake).trans (by rw [List.flatMap_append, List.flatMap_cons])
    have hend : (tables.take (m + 1)).flatMap MessageTable.toWords =
        (tables.take m).flatMap MessageTable.toWords ++ tables[m].toWords := by
      rw [List.take_add_one, List.getElem?_eq_getElem hm, Option.toList_some, List.flatMap_append,
        List.flatMap_singleton]
    have hlen := congrArg List.length hflat
    simp only [List.length_append] at hlen
    rw [if_neg (by simp; omega), offsets_getD tables 0 hm.le, offsets_getD tables 0 (Nat.succ_le_of_lt hm), hend,
      List.length_append, Nat.mod_eq_of_lt (by omega), Nat.mod_eq_of_lt (by omega), hflat, ← List.append_assoc]
    simp only [Nat.zero_add, List.getElem?_eq_getElem hm, ← List.length_append]
    rw [List.take_left, List.drop_left, MessageTable.fieldState_toWords]
  · rw [if_pos (by simp; omega), List.getElem?_eq_none (by omega)]

end FilterBytecodeParser

end LynxTrace.Filtering
