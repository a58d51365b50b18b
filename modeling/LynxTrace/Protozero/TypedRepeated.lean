import LynxTrace.Protozero.TypedDecoder

/-!
# Protozero.TypedRepeated — a typed decoder holds the fields that `ReadField` returns
-/

namespace LynxTrace.Protozero

/-! ### The fields that are read -/

/-- The parse stops where it is, or it has the field and the position for the last checks. -/
theorem parseOneField_cases (buf : List UInt8) : parseOneField buf = ⟨.kAbort, buf, {}⟩ ∨
    ∃ f newPos, f.id ≠ 0 ∧ parseOneField buf = finishField f newPos := by
  unfold parseOneField
  cases buf with
  | nil => exact .inl rfl
  | cons b bs =>
    dsimp only
    cases (if b.toNat < 0x80 then some (b.toNat, bs) else parseVarInt (b :: bs)) with
    | none => exact .inl rfl
    | some x =>
      obtain ⟨preamble, pos⟩ := x
      dsimp only
      by_cases h0 : preamble / 8 % 2 ^ 32 = 0 ∨ pos = []
      · exact .inl (if_pos h0)
      rw [if_neg h0]
      have hid : preamble / 8 % 2 ^ 32 ≠ 0 := fun hz => h0 (.inl hz)
      cases ProtoWireType.ofNat? (preamble % 8) with
      | none => exact .inl rfl
      | some t =>
        cases t with
        | kVarInt =>
          dsimp only
          cases parseVarInt pos with
          | none => exact .inl rfl
          | some r => exact .inr ⟨_, _, hid, rfl⟩
        | kLengthDelimited =>
          dsimp only
          cases parseVarInt pos with
          | none => exact .inl rfl
          | some r =>
            dsimp only
            split_ifs
            · exact .inl rfl
            · exact .inr ⟨_, _, hid, rfl⟩
        | kFixed64 | kFixed32 =>
          dsimp only
          split_ifs
          · exact .inl rfl
          · exact .inr ⟨_, _, hid, rfl⟩

/-- What a parse gives: nothing and no progress, a field passed over, or a valid field. -/
theorem parseOneField_result (buf : List UInt8) :
    ((parseOneField buf).parseRes = .kAbort ∧ (parseOneField buf).field = {}) ∨
      (parseOneField buf).parseRes = .kSkip ∨
      ((parseOneField buf).parseRes = .kOk ∧ (parseOneField buf).field.valid = true) := by
  rcases parseOneField_cases buf with habort | ⟨f, newPos, hid, hfinish⟩
  · exact .inl (by rw [habort]; exact ⟨rfl, rfl⟩)
  · right
    rw [hfinish]
    unfold finishField
    split_ifs
    · exact .inl rfl
    · exact .inl rfl
    · exact .inr ⟨rfl, bne_iff_ne.mpr hid⟩

/-- A valid field takes at least one byte. -/
theorem readField_length_lt {buf : List UInt8} (h : (readField buf).1.valid = true) :
    (readField buf).2.length < buf.length := by
  induction hn : buf.length using Nat.strongRecOn generalizing buf with
  | ind n ih =>
    subst hn
    rw [readField_eq] at h ⊢
    rcases parseOneField_result buf with ⟨hres, hfield⟩ | hres | ⟨hres, -⟩
    · rw [if_neg (by simp [hres]), hfield] at h
      cases h
    · rw [if_pos hres] at h ⊢
      have hlt := parseOneField_length_lt (show (parseOneField buf).parseRes ≠ .kAbort by simp [hres])
      exact Nat.lt_trans (ih _ hlt h rfl) hlt
    · rw [if_neg (by simp [hres])]
      exact parseOneField_length_lt (by simp [hres])

theorem readFieldsFrom_fuel {n m : ℕ} {buf : List UInt8} (hn : buf.length ≤ n) (hm : buf.length ≤ m) :
    readFieldsFrom n buf = readFieldsFrom m buf := by
  induction n generalizing m buf with
  | zero =>
    rw [List.length_eq_zero_iff.mp (Nat.le_zero.mp hn)]
    cases m with
    | zero => rfl
    | succ m => simp [readFieldsFrom, readField_nil, Field.valid]
  | succ n ih =>
    cases m with
    | zero =>
      rw [List.length_eq_zero_iff.mp (Nat.le_zero.mp hm)]
      simp [readFieldsFrom, readField_nil, Field.valid]
    | succ m =>
      simp only [readFieldsFrom]
      split_ifs with hv
      · have hlt := readField_length_lt hv
        have hrest : readFieldsFrom n (readField buf).2 = readFieldsFrom m (readField buf).2 :=
          ih (by omega) (by omega)
        rw [hrest]
      · rfl

/-- The fields that are read, by the result of the first parse. -/
theorem readFields_eq (buf : List UInt8) : readFields buf =
    match (parseOneField buf).parseRes with
    | .kAbort => []
    | .kSkip => readFields (parseOneField buf).next
    | .kOk => (parseOneField buf).field :: readFields (parseOneField buf).next := by
  have hstep : ∀ n, readFieldsFrom (n + 1) buf =
      if (readField buf).1.valid then (readField buf).1 :: readFieldsFrom n (readField buf).2 else [] := fun _ => rfl
  have hread : readFields buf = readFieldsFrom (buf.length + 1) buf := readFieldsFrom_fuel le_rfl (by omega)
  rcases parseOneField_result buf with ⟨hres, hfield⟩ | hres | ⟨hres, hvalid⟩
  · have hfirst : readField buf = ({}, (parseOneField buf).next) := by
      rw [readField_eq, if_neg (by simp [hres]), hfield]
    rw [hread, hstep, hfirst, hres]
    rfl
  · have hlt := parseOneField_length_lt (show (parseOneField buf).parseRes ≠ .kAbort by simp [hres])
    have hnext : readFields (parseOneField buf).next = readFieldsFrom (buf.length + 1) (parseOneField buf).next :=
      readFieldsFrom_fuel le_rfl (by omega)
    have hskip : readField buf = readField (parseOneField buf).next := by rw [readField_eq, if_pos hres]
    rw [hres]
    dsimp only
    rw [hread, hnext, hstep, hskip]
    rfl
  · have hlt := parseOneField_length_lt (show (parseOneField buf).parseRes ≠ .kAbort by simp [hres])
    have hnext : readFields (parseOneField buf).next = readFieldsFrom buf.length (parseOneField buf).next :=
      readFieldsFrom_fuel le_rfl (by omega)
    have hfirst : readField buf = ((parseOneField buf).field, (parseOneField buf).next) := by
      rw [readField_eq, if_neg (by simp [hres])]
    rw [hres]
    dsimp only
    rw [hread, hnext, hstep, hfirst, if_pos hvalid]

theorem readFields_valid {buf : List UInt8} {f : Field} (h : f ∈ readFields buf) : f.id ≠ 0 := by
  suffices hfuel : ∀ n buf, f ∈ readFieldsFrom n buf → f.id ≠ 0 from hfuel _ _ h
  intro n
  induction n with
  | zero => simp [readFieldsFrom]
  | succ n ih =>
    intro buf hf
    simp only [readFieldsFrom] at hf
    split_ifs at hf with hv
    · rcases List.mem_cons.mp hf with rfl | hf
      · exact bne_iff_ne.mp hv
      · exact ih _ hf
    · simp at hf

namespace TypedProtoDecoder

/-- Storing fields one after the other. -/
def storeAll (fs : List Field) (d : TypedProtoDecoder) : Except StorageFailure TypedProtoDecoder :=
  fs.foldlM store d

/-- The storage after an expansion: slots for every known id, and room for one more. -/
theorem expandHeapStorage_eq_ok {d d' : TypedProtoDecoder} (h : d.expandHeapStorage = .ok d') :
    d'.fields = d.fields ++ List.replicate (d.numFields - d.size) ({} : Field) ∧ d'.numFields = d.numFields ∧
      d'.size = max d.size d.numFields ∧ d'.size < d'.capacity := by
  unfold expandHeapStorage at h
  dsimp only at h
  split_ifs at h with hcheck
  cases h
  have hpad : max d.size d.numFields - d.size = d.numFields - d.size := by omega
  have hsize : (d.fields ++ List.replicate (d.numFields - d.size) ({} : Field)).length = max d.size d.numFields := by
    rw [List.length_append, List.length_replicate]
    have : d.fields.length = d.size := rfl
    omega
  rw [hpad]
  refine ⟨rfl, rfl, hsize, ?_⟩
  exact hsize.trans_lt (max_lt hcheck.1 hcheck.2)

/-- What never changes: the number of known fields, and that the capacity has 32 bits. -/
def Fixed (d d' : TypedProtoDecoder) : Prop :=
  d'.numFields = d.numFields ∧ (d.capacity < 2 ^ 32 → d'.capacity < 2 ^ 32)

theorem Fixed.trans {a b c : TypedProtoDecoder} (h : Fixed a b) (h' : Fixed b c) : Fixed a c :=
  ⟨h'.1.trans h.1, fun hc => h'.2 (h.2 hc)⟩

theorem expandIf_fixed {c : Prop} [Decidable c] {d d' : TypedProtoDecoder} (h : d.expandIf c = .ok d') :
    Fixed d d' := by
  unfold expandIf at h
  split_ifs at h
  · refine ⟨(expandHeapStorage_eq_ok h).2.1, fun _ => ?_⟩
    unfold expandHeapStorage at h
    dsimp only at h
    split_ifs at h
    cases h
    exact max_lt (Nat.mod_lt _ (by norm_num)) (Nat.mod_lt _ (by norm_num))
  · cases h
    exact ⟨rfl, id⟩

theorem store_fixed {d d' : TypedProtoDecoder} {f : Field} (h : d.store f = .ok d') : Fixed d d' := by
  unfold store at h
  cases hfirst : d.expandIf (f.id ≥ d.size ∨ d.size ≥ d.capacity) with
  | error e => rw [hfirst] at h; cases h
  | ok d₁ =>
    rw [hfirst] at h
    refine (expandIf_fixed hfirst).trans ?_
    dsimp only [bind, Except.bind] at h
    cases hslot : d₁.fields[f.id]? with
    | none => rw [hslot] at h; cases h
    | some fld =>
      rw [hslot] at h
      dsimp only at h
      split_ifs at h
      · cases h
        exact ⟨rfl, id⟩
      · cases hsecond : d₁.expandIf (d₁.numFields > d₁.size) with
        | error e => rw [hsecond] at h; cases h
        | ok d₂ =>
          rw [hsecond] at h
          dsimp only at h
          split_ifs at h
          cases h
          exact (expandIf_fixed hsecond : Fixed d₁ d₂)

theorem storeAll_fixed {fs : List Field} {d d' : TypedProtoDecoder} (h : storeAll fs d = .ok d') : Fixed d d' := by
  induction fs generalizing d with
  | nil =>
    cases h
    exact ⟨rfl, id⟩
  | cons f fs ih =>
    unfold storeAll at h
    rw [List.foldlM_cons] at h
    cases hstore : d.store f with
    | error e => rw [hstore] at h; cases h
    | ok d₁ =>
      rw [hstore] at h
      exact (store_fixed hstore).trans (ih h)

/-- `ParseAllFields` stores the fields that `ReadField` returns and whose id is known. -/
theorem parseAllFieldsFrom_eq {fuel : ℕ} {buf : List UInt8} (hfuel : buf.length < fuel) (d : TypedProtoDecoder) :
    parseAllFieldsFrom fuel buf d = storeAll ((readFields buf).filter (·.id < d.numFields)) d := by
  induction fuel generalizing buf d with
  | zero => omega
  | succ fuel ih =>
    unfold parseAllFieldsFrom
    dsimp only
    rw [readFields_eq]
    rcases parseOneField_result buf with ⟨hres, -⟩ | hres | ⟨hres, -⟩
    · rw [hres]
      rfl
    · have hlt := parseOneField_length_lt (show (parseOneField buf).parseRes ≠ .kAbort by simp [hres])
      rw [hres]
      exact ih (by omega) d
    · have hlt := parseOneField_length_lt (show (parseOneField buf).parseRes ≠ .kAbort by simp [hres])
      rw [hres]
      dsimp only
      by_cases hknown : (parseOneField buf).field.id < d.numFields
      · have hfilter : ((parseOneField buf).field :: readFields (parseOneField buf).next).filter (·.id < d.numFields) =
            (parseOneField buf).field :: (readFields (parseOneField buf).next).filter (·.id < d.numFields) :=
          List.filter_cons_of_pos (by simpa using hknown)
        rw [if_neg (Nat.not_le.mpr hknown), hfilter, storeAll, List.foldlM_cons]
        cases hstore : d.store (parseOneField buf).field with
        | error e => rfl
        | ok d' =>
          have hrest := @ih (parseOneField buf).next (by omega) d'
          rw [(store_fixed hstore).1] at hrest
          exact hrest
      · rw [if_pos (Nat.not_lt.mp hknown), List.filter_cons_of_neg (by simpa using hknown)]
        exact ih (by omega) d

/-! ### What the storage holds -/

/-- The fields with an id. -/
abbrev withId (fs : List Field) (id : ℕ) : List Field := fs.filter (·.id = id)

/-- What a decoder holds after some fields of known ids. -/
structure Holds (maxFieldId : ℕ) (fs : List Field) (d : TypedProtoDecoder) : Prop where
  numFields : d.numFields = maxFieldId + 1
  size_pos : 0 < d.size
  size_le : d.size ≤ d.capacity
  size_bound : d.size ≤ maxFieldId + 1 + fs.length
  zero : d.fields.getD 0 {} = {}
  /-- Its slot has the last value of an id. -/
  slot : ∀ id, 0 < id → id ≤ maxFieldId → d.fields.getD id {} = (withId fs id).getLast?.getD {}
  /-- The repeated storage has the values before it. -/
  earlier : ∀ id, 0 < id → id ≤ maxFieldId → withId (d.fields.drop d.numFields) id = (withId fs id).dropLast

variable {maxFieldId : ℕ} {fs : List Field} {d : TypedProtoDecoder}

theorem init_holds (maxFieldId : ℕ) : Holds maxFieldId [] (init maxFieldId) := by
  have hsize : (init maxFieldId).size = min (maxFieldId + 1) 99 := List.length_replicate
  have hslots : ∀ id, (init maxFieldId).fields.getD id {} = {} := by
    intro id
    simp only [init, List.getD_eq_getElem?_getD, List.getElem?_replicate]
    split_ifs <;> rfl
  refine ⟨rfl, by omega, ?_, ?_, hslots 0, fun id _ _ => hslots id, fun id _ _ => ?_⟩
  · show _ ≤ 100
    omega
  · show _ ≤ _ + 0
    omega
  · have hnone : (init maxFieldId).fields.drop (init maxFieldId).numFields = [] :=
      List.drop_eq_nil_of_le (by show (init maxFieldId).size ≤ maxFieldId + 1; omega)
    rw [hnone]
    rfl

/-- An expansion keeps what the storage holds, and fails only when the capacity has reached 2^31. -/
theorem Holds.expand (h : Holds maxFieldId fs d) :
    (∃ d', d.expandHeapStorage = .ok d' ∧ Holds maxFieldId fs d' ∧ maxFieldId < d'.size ∧ d'.size < d'.capacity) ∨
      (d.expandHeapStorage = .error .capacityCheck ∧
        (d.capacity ≤ d.size ∨ d.size ≤ maxFieldId → 2 ^ 31 ≤ maxFieldId + 1 + fs.length)) := by
  cases hexpand : d.expandHeapStorage with
  | ok d' =>
    obtain ⟨hfields, hnum, hsize, hroom⟩ := expandHeapStorage_eq_ok hexpand
    have hn := h.numFields
    have hb := h.size_bound
    have hslots : ∀ id, d'.fields.getD id {} = d.fields.getD id {} := by
      intro id
      simp only [hfields, List.getD_eq_getElem?_getD, List.getElem?_append, List.getElem?_replicate]
      split_ifs with hlt hpad
      · rfl
      · rw [List.getElem?_eq_none (Nat.not_lt.mp hlt)]
        rfl
      · rw [List.getElem?_eq_none (Nat.not_lt.mp hlt)]
    have hdrop : d'.fields.drop d'.numFields = d.fields.drop d.numFields := by
      rw [hfields, hnum, List.drop_append]
      have hpad : (List.replicate (d.numFields - d.size) ({} : Field)).drop (d.numFields - d.fields.length) = [] :=
        List.drop_eq_nil_of_le (by rw [List.length_replicate]; rfl)
      rw [hpad, List.append_nil]
    refine .inl ⟨d', rfl, ⟨hnum.trans hn, ?_, hroom.le, ?_, ?_, ?_, ?_⟩, ?_, hroom⟩
    · omega
    · omega
    · rw [hslots, h.zero]
    · exact fun id hpos hle => (hslots id).trans (h.slot id hpos hle)
    · exact fun id hpos hle => hdrop ▸ h.earlier id hpos hle
    · omega
  | error e =>
    unfold expandHeapStorage at hexpand
    dsimp only at hexpand
    split_ifs at hexpand with hcheck
    cases hexpand
    refine .inr ⟨rfl, fun hwhy => ?_⟩
    have hn := h.numFields
    have hb := h.size_bound
    have hle := h.size_le
    have hpos := h.size_pos
    by_contra hsmall
    refine hcheck ?_
    rcases hwhy with hfull | hlow
    · omega
    · omega

theorem Holds.expandIf (h : Holds maxFieldId fs d) {needed : Prop} [Decidable needed]
    (hwhy : needed → d.capacity ≤ d.size ∨ d.size ≤ maxFieldId) :
    (∃ d', d.expandIf needed = .ok d' ∧ Holds maxFieldId fs d' ∧
        (needed → maxFieldId < d'.size ∧ d'.size < d'.capacity) ∧ (¬ needed → d' = d)) ∨
      (d.expandIf needed = .error .capacityCheck ∧ 2 ^ 31 ≤ maxFieldId + 1 + fs.length) := by
  unfold TypedProtoDecoder.expandIf
  by_cases hneeded : needed
  · rw [if_pos hneeded]
    rcases h.expand with ⟨d', hexpand, hd', hroom⟩ | ⟨herror, hfull⟩
    · exact .inl ⟨d', hexpand, hd', fun _ => hroom, fun hnot => absurd hneeded hnot⟩
    · exact .inr ⟨herror, hfull (hwhy hneeded)⟩
  · rw [if_neg hneeded]
    exact .inl ⟨d, rfl, h, fun hyes => absurd hyes hneeded, fun _ => rfl⟩

theorem withId_append (fs gs : List Field) (id : ℕ) : withId (fs ++ gs) id = withId fs id ++ withId gs id :=
  List.filter_append ..

theorem withId_singleton (f : Field) (id : ℕ) : withId [f] id = if f.id = id then [f] else [] := by
  simp [withId, List.filter_cons]

theorem getD_set (l : List Field) (i j : ℕ) (f : Field) (hi : i < l.length) :
    (l.set i f).getD j {} = if i = j then f else l.getD j {} := by
  simp only [List.getD_eq_getElem?_getD, List.getElem?_set]
  split_ifs <;> rfl

/-- Storing one more field. -/
theorem Holds.store (h : Holds maxFieldId fs d) {f : Field} (hpos : 0 < f.id) (hknown : f.id ≤ maxFieldId) :
    (∃ d', d.store f = .ok d' ∧ Holds maxFieldId (fs ++ [f]) d') ∨
      (d.store f = .error .capacityCheck ∧ 2 ^ 31 ≤ maxFieldId + 1 + fs.length) := by
  have hle := h.size_le
  unfold TypedProtoDecoder.store
  rcases @Holds.expandIf _ _ _ h (f.id ≥ d.size ∨ d.size ≥ d.capacity) _ (by omega) with
    ⟨d₁, hfirst, h₁, hexpanded, hsame⟩ | ⟨herror, hfull⟩
  swap
  · rw [herror]
    exact .inr ⟨rfl, hfull⟩
  rw [hfirst]
  dsimp only [bind, Except.bind]
  -- the slot is in the storage, and there is room for one more
  have hroom : f.id < d₁.size ∧ d₁.size < d₁.capacity := by
    by_cases hneeded : f.id ≥ d.size ∨ d.size ≥ d.capacity
    · have := hexpanded hneeded
      omega
    · rw [hsame hneeded]
      omega
  have hslotIn : f.id < d₁.fields.length := hroom.1
  have hslot := h₁.slot f.id hpos hknown
  rw [List.getD_eq_getElem?_getD, List.getElem?_eq_getElem hslotIn, Option.getD_some] at hslot
  rw [List.getElem?_eq_getElem hslotIn]
  set fld := d₁.fields[f.id] with hfld
  dsimp only
  by_cases hvalid : fld.valid = true
  swap
  · -- the first value of this id
    rw [if_pos (by simp [hvalid])]
    have hnone : withId fs f.id = [] := by
      rw [← List.getLast?_eq_none_iff]
      cases hlast : (withId fs f.id).getLast? with
      | none => rfl
      | some g =>
        rw [hlast, Option.getD_some] at hslot
        have hid : g.id = f.id := of_decide_eq_true (List.mem_filter.mp (List.mem_of_getLast? hlast)).2
        refine absurd ?_ hvalid
        rw [hslot, Field.valid, hid, bne_iff_ne]
        omega
    refine .inl ⟨_, rfl, ⟨h₁.numFields, ?_, ?_, ?_, ?_, fun id hpos' hle' => ?_, fun id hpos' hle' => ?_⟩⟩
    · show 0 < (d₁.fields.set f.id f).length
      rw [List.length_set]
      exact h₁.size_pos
    · show (d₁.fields.set f.id f).length ≤ d₁.capacity
      rw [List.length_set]
      exact h₁.size_le
    · have hb := h₁.size_bound
      show (d₁.fields.set f.id f).length ≤ _
      rw [List.length_set, List.length_append]
      exact Nat.le_trans hb (by omega)
    · rw [getD_set _ _ _ _ hslotIn, if_neg (by omega), h₁.zero]
    · rw [getD_set _ _ _ _ hslotIn, withId_append, withId_singleton]
      split_ifs with hid
      · rw [List.getLast?_append, List.getLast?_singleton]
        rfl
      · rw [List.append_nil, h₁.slot id hpos' hle']
    · have hn := h₁.numFields
      show withId ((d₁.fields.set f.id f).drop d₁.numFields) id = _
      rw [List.drop_set_of_lt (by omega), h₁.earlier id hpos' hle', withId_append, withId_singleton]
      split_ifs with hid
      · rw [← hid, hnone]
        rfl
      · rw [List.append_nil]
  · -- the last value goes to the repeated storage
    rw [if_neg (by simp [hvalid])]
    rcases @Holds.expandIf _ _ _ h₁ (d₁.numFields > d₁.size) _ (by have := h₁.numFields; omega) with
      ⟨d₂, hsecond, h₂, hexpanded₂, hsame₂⟩ | ⟨herror, hfull⟩
    swap
    · rw [herror]
      exact .inr ⟨rfl, hfull⟩
    rw [hsecond]
    have hn := h₂.numFields
    have hroom₂ : maxFieldId < d₂.size ∧ d₂.size < d₂.capacity := by
      by_cases hneeded : d₁.numFields > d₁.size
      · exact hexpanded₂ hneeded
      · have hn₁ := h₁.numFields
        rw [hsame₂ hneeded]
        omega
    dsimp only
    rw [if_pos hroom₂.2]
    have hsize : d₂.fields.length = d₂.size := rfl
    have hlength : ((d₂.fields ++ [fld]).set f.id f).length = d₂.size + 1 := by
      rw [List.length_set, List.length_append, hsize, List.length_singleton]
    have hin : f.id < (d₂.fields ++ [fld]).length := by
      rw [List.length_append, hsize]
      omega
    have hlast : (withId fs f.id).getLast? = some fld := by
      cases hl : (withId fs f.id).getLast? with
      | some g => rw [hl, Option.getD_some] at hslot; rw [hslot]
      | none =>
        rw [hl] at hslot
        rw [hslot] at hvalid
        cases hvalid
    have hfldId : fld.id = f.id := of_decide_eq_true (List.mem_filter.mp (List.mem_of_getLast? hlast)).2
    have hold : ∀ id, id < d₂.size → (d₂.fields ++ [fld]).getD id {} = d₂.fields.getD id {} := by
      intro id hid
      rw [List.getD_eq_getElem?_getD, List.getD_eq_getElem?_getD, List.getElem?_append_left (hsize ▸ hid)]
    refine .inl ⟨_, rfl, ⟨hn, ?_, ?_, ?_, ?_, fun id hpos' hle' => ?_, fun id hpos' hle' => ?_⟩⟩
    · exact (Nat.succ_pos _).trans_eq hlength.symm
    · exact hlength.trans_le hroom₂.2
    · have hb := h₂.size_bound
      show ((d₂.fields ++ [fld]).set f.id f).length ≤ _
      rw [hlength, List.length_append, List.length_singleton]
      omega
    · rw [getD_set _ _ _ _ hin, if_neg (by omega), hold 0 (by omega), h₂.zero]
    · rw [getD_set _ _ _ _ hin, withId_append, withId_singleton]
      split_ifs with hid
      · rw [List.getLast?_append, List.getLast?_singleton]
        rfl
      · rw [List.append_nil, hold id (by omega), h₂.slot id hpos' hle']
    · show withId (((d₂.fields ++ [fld]).set f.id f).drop d₂.numFields) id = _
      rw [List.drop_set_of_lt (by omega), List.drop_append_of_le_length (by omega), withId_append,
        h₂.earlier id hpos' hle', withId_append, withId_singleton, withId_singleton, hfldId]
      split_ifs with hid
      · rw [← hid, List.dropLast_concat]
        exact List.dropLast_append_getLast? fld hlast
      · rw [List.append_nil, List.append_nil]

/-- Storing fields of known ids keeps them all, or fails on the capacity. -/
theorem Holds.storeAll (fs' : List Field) (hids : ∀ f ∈ fs', 0 < f.id ∧ f.id ≤ maxFieldId) :
    ∀ {fs : List Field} {d : TypedProtoDecoder}, Holds maxFieldId fs d →
      (∃ d', storeAll fs' d = .ok d' ∧ Holds maxFieldId (fs ++ fs') d') ∨
        (storeAll fs' d = .error .capacityCheck ∧ 2 ^ 31 ≤ maxFieldId + (fs ++ fs').length) := by
  induction fs' with
  | nil =>
    intro fs d h
    exact .inl ⟨d, rfl, by rwa [List.append_nil]⟩
  | cons f fs' ih =>
    intro fs d h
    obtain ⟨⟨hpos, hknown⟩, hrest⟩ := List.forall_mem_cons.mp hids
    unfold TypedProtoDecoder.storeAll
    rw [List.foldlM_cons]
    rcases h.store hpos hknown with ⟨d', hstore, h'⟩ | ⟨herror, hfull⟩
    · rw [hstore]
      have hsplit : fs ++ f :: fs' = (fs ++ [f]) ++ fs' := by rw [List.append_assoc, List.singleton_append]
      rw [hsplit]
      exact ih hrest h'
    · rw [herror]
      refine .inr ⟨rfl, ?_⟩
      rw [List.length_append, List.length_cons]
      omega

end TypedProtoDecoder

/-! ### Iteration -/

namespace RepeatedFieldIterator

open TypedProtoDecoder

/-- The search does not read the position that the iterator is at. -/
theorem findFrom_iter (fields : List Field) (fieldId a b end_ last n : ℕ) :
    ∀ iter, findFrom fields ⟨fieldId, a, end_, last⟩ n iter = findFrom fields ⟨fieldId, b, end_, last⟩ n iter := by
  induction n with
  | zero => exact fun _ => rfl
  | succ n ih =>
    intro iter
    rw [findFrom, findFrom, ih]

/-- From a position in the repeated storage, the iterator sees the fields with its id, then the last value. -/
theorem drain_findNext (fields : List Field) (fieldId last : ℕ) (n : ℕ) :
    ∀ iter fuel, iter + n = fields.length → last < iter → n + 1 < fuel →
      drain fields fuel (findNextMatchingId fields ⟨fieldId, iter, fields.length, last⟩) =
        withId (fields.drop iter) fieldId ++ if (fields.getD last {}).valid then [fields.getD last {}] else [] := by
  induction n with
  | zero =>
    intro iter fuel hiter hlast hfuel
    have hend : iter = fields.length := hiter
    obtain ⟨fuel, rfl⟩ : ∃ k, fuel = k + 2 := ⟨fuel - 2, by omega⟩
    have hdrop : fields.drop iter = [] := List.drop_eq_nil_of_le hend.ge
    unfold findNextMatchingId
    dsimp only
    rw [hdrop, hend, Nat.sub_self, findFrom]
    dsimp only
    split_ifs with hvalid
    · have hne : (last != fields.length) = true := bne_iff_ne.mpr (by omega)
      rw [drain, valid, if_pos hne, next, if_pos rfl, drain, valid]
      simp
    · rw [drain, valid]
      simp
  | succ n ih =>
    intro iter fuel hiter hlast hfuel
    have hin : iter < fields.length := by omega
    have hdrop : fields.drop iter = fields.getD iter {} :: fields.drop (iter + 1) := by
      rw [List.drop_eq_getElem_cons hin, List.getD_eq_getElem?_getD, List.getElem?_eq_getElem hin, Option.getD_some]
    have hleft : fields.length - iter = n + 1 := by omega
    unfold findNextMatchingId
    dsimp only
    rw [hdrop, hleft, findFrom]
    dsimp only
    have hrest : ∀ fuel, n + 1 < fuel → drain fields fuel (findNextMatchingId fields
        ⟨fieldId, iter + 1, fields.length, last⟩) = withId (fields.drop (iter + 1)) fieldId ++
          if (fields.getD last {}).valid then [fields.getD last {}] else [] :=
      fun fuel hfuel => ih (iter + 1) fuel (by omega) (by omega) hfuel
    by_cases hmatch : (fields.getD iter {}).id = fieldId
    · obtain ⟨fuel, rfl⟩ : ∃ k, fuel = k + 1 := ⟨fuel - 1, by omega⟩
      have hne : (iter != fields.length) = true := bne_iff_ne.mpr (by omega)
      have hfilter : withId (fields.getD iter {} :: fields.drop (iter + 1)) fieldId =
          fields.getD iter {} :: withId (fields.drop (iter + 1)) fieldId :=
        List.filter_cons_of_pos (decide_eq_true hmatch)
      rw [if_pos hmatch, drain, valid, if_pos hne, next, if_neg (by dsimp only; omega), hfilter, List.cons_append,
        hrest fuel (by omega)]
    · have hfilter : withId (fields.getD iter {} :: fields.drop (iter + 1)) fieldId =
          withId (fields.drop (iter + 1)) fieldId :=
        List.filter_cons_of_neg (by simpa using hmatch)
      have hstep : fields.length - (iter + 1) = n := by omega
      have hnext := hrest fuel (by omega)
      unfold findNextMatchingId at hnext
      dsimp only at hnext
      rw [hstep] at hnext
      rw [if_neg hmatch, hfilter, ← hnext, findFrom_iter fields fieldId iter (iter + 1)]

end RepeatedFieldIterator

namespace TypedProtoDecoder

variable {maxFieldId : ℕ} {fs : List Field} {d : TypedProtoDecoder}

theorem Holds.get (h : Holds maxFieldId fs d) {id : ℕ} (hpos : 0 < id) (hle : id ≤ maxFieldId) :
    d.get id = (withId fs id).getLast?.getD {} := by
  unfold TypedProtoDecoder.get getIndex
  have hn := h.numFields
  split_ifs with hin
  · exact h.slot id hpos hle
  · rw [h.zero, ← h.slot id hpos hle, List.getD_eq_getElem?_getD, List.getElem?_eq_none (by
      show d.size ≤ id
      omega), Option.getD_none]

/-- The iterator gives the values of the id in the order of the fields. -/
theorem Holds.repeated (h : Holds maxFieldId fs d) (hvalid : ∀ f ∈ fs, f.id ≠ 0) {id : ℕ} (hpos : 0 < id)
    (hle : id ≤ maxFieldId) : d.repeated id = withId fs id := by
  have hn := h.numFields
  have hsize : d.fields.length = d.size := rfl
  have hpos' := h.size_pos
  have hget : d.fields.getD (d.getIndex id) {} = (withId fs id).getLast?.getD {} := h.get hpos hle
  set begin_ := if d.numFields < d.size then d.numFields else d.size with hbegin
  have hlast : d.getIndex id < begin_ := by
    unfold getIndex
    split_ifs at hbegin ⊢ <;> omega
  have hdrain := RepeatedFieldIterator.drain_findNext d.fields id (d.getIndex id) (d.size - begin_) begin_ (d.size + 2)
    (by split_ifs at hbegin <;> omega) hlast (by omega)
  have htail : withId (d.fields.drop begin_) id = (withId fs id).dropLast := by
    rw [← h.earlier id hpos hle]
    split_ifs at hbegin with hlt
    · rw [hbegin]
    · rw [hbegin, List.drop_eq_nil_of_le hsize.le, List.drop_eq_nil_of_le (by omega)]
  unfold TypedProtoDecoder.repeated getRepeated
  rw [hget, htail] at hdrain
  refine hdrain.trans ?_
  cases hl : (withId fs id).getLast? with
  | none =>
    rw [List.getLast?_eq_none_iff.mp hl]
    rfl
  | some f =>
    have hf : f.valid = true := bne_iff_ne.mpr (hvalid f (List.mem_filter.mp (List.mem_of_getLast? hl)).1)
    rw [Option.getD_some, if_pos hf]
    exact List.dropLast_append_getLast? f hl

/-- The fields of known ids. -/
def knownFields (maxFieldId : ℕ) (buffer : List UInt8) : List Field := (readFields buffer).filter (·.id < maxFieldId + 1)

theorem make_eq (maxFieldId : ℕ) (buffer : List UInt8) :
    make maxFieldId buffer = storeAll (knownFields maxFieldId buffer) (init maxFieldId) :=
  parseAllFieldsFrom_eq (Nat.lt_succ_self _) _

/-- What is read of an id is among the known fields. -/
theorem withId_knownFields {id : ℕ} (hle : id ≤ maxFieldId) (buffer : List UInt8) :
    withId (knownFields maxFieldId buffer) id = withId (readFields buffer) id := by
  unfold knownFields withId
  rw [List.filter_filter]
  refine List.filter_congr fun f _ => ?_
  rw [Bool.and_eq_left_iff_imp]
  intro hid
  have := of_decide_eq_true hid
  exact decide_eq_true (by omega)

/-- Either the decoder gives, for each known id, the fields that `ReadField` gives, in order, and the last of them; or
the heap capacity does not fit in 32 bits, with so many fields. -/
theorem make_reads_fields (maxFieldId : ℕ) (buffer : List UInt8) :
    (∃ d, make maxFieldId buffer = .ok d ∧ ∀ id, 1 ≤ id → id ≤ maxFieldId →
        d.repeated id = (readFields buffer).filter (·.id = id) ∧
        d.get id = ((readFields buffer).filter (·.id = id)).getLast?.getD {}) ∨
      (make maxFieldId buffer = .error .capacityCheck ∧ 2 ^ 31 ≤ maxFieldId + (readFields buffer).length) := by
  have hvalid : ∀ f ∈ knownFields maxFieldId buffer, f.id ≠ 0 := fun f hf =>
    readFields_valid (List.mem_filter.mp hf).1
  have hids : ∀ f ∈ knownFields maxFieldId buffer, 0 < f.id ∧ f.id ≤ maxFieldId := fun f hf =>
    ⟨Nat.pos_of_ne_zero (hvalid f hf), Nat.le_of_lt_succ (of_decide_eq_true (List.mem_filter.mp hf).2)⟩
  rw [make_eq]
  rcases Holds.storeAll _ hids (init_holds maxFieldId) with ⟨d, hstore, h⟩ | ⟨herror, hfull⟩
  · refine .inl ⟨d, hstore, fun id hpos hle => ?_⟩
    rw [List.nil_append] at h
    exact ⟨(h.repeated hvalid hpos hle).trans (withId_knownFields hle buffer),
      (h.get hpos hle).trans (by rw [withId_knownFields hle buffer])⟩
  · refine .inr ⟨herror, Nat.le_trans hfull ?_⟩
    rw [List.nil_append]
    exact Nat.add_le_add_left (List.length_filter_le ..) _

/-- A message of `n` empty values of field 1. -/
def manyValues (n : ℕ) : List UInt8 := (List.replicate n [8, 0]).flatten

theorem readFields_manyValues (n : ℕ) : readFields (manyValues n) = List.replicate n { id := 1 } := by
  induction n with
  | zero => rfl
  | succ n ih =>
    have hsplit : manyValues (n + 1) = 8 :: 0 :: manyValues n := by
      rw [manyValues, List.replicate_succ, List.flatten_cons]
      rfl
    have hparse : parseOneField (8 :: 0 :: manyValues n) = ⟨.kOk, manyValues n, { id := 1 }⟩ := by
      rfl
    rw [hsplit, readFields_eq, hparse]
    dsimp only
    rw [ih, List.replicate_succ]

/-- With 2^32 values of a field there is no decoder. -/
theorem make_manyValues {n : ℕ} (hn : 2 ^ 32 ≤ n) : make 1 (manyValues n) = .error .capacityCheck := by
  have hknown : knownFields 1 (manyValues n) = List.replicate n { id := 1 } := by
    rw [knownFields, readFields_manyValues]
    exact List.filter_eq_self.mpr fun f hf => by rw [List.eq_of_mem_replicate hf]; rfl
  have hids : ∀ f ∈ List.replicate n ({ id := 1 } : Field), 0 < f.id ∧ f.id ≤ 1 := fun f hf => by
    rw [List.eq_of_mem_replicate hf]
    exact ⟨Nat.one_pos, le_rfl⟩
  rw [make_eq, hknown]
  rcases Holds.storeAll _ hids (init_holds 1) with ⟨d, hstore, h⟩ | ⟨herror, -⟩
  · -- the storage would have more slots than 32 bits count
    have hcapacity := (storeAll_fixed hstore).2 (by show initialStackCapacity < 2 ^ 32; decide)
    have hall : withId (List.replicate n ({ id := 1 } : Field)) 1 = List.replicate n { id := 1 } :=
      List.filter_eq_self.mpr fun f hf => by rw [List.eq_of_mem_replicate hf]; rfl
    have htail := congrArg List.length (h.earlier 1 Nat.one_pos le_rfl)
    rw [List.nil_append, hall, List.length_dropLast, List.length_replicate] at htail
    have hfilter := List.length_filter_le (fun f : Field => f.id = 1) (d.fields.drop d.numFields)
    rw [List.length_drop, h.numFields] at hfilter
    have hlength : (withId (d.fields.drop d.numFields) 1).length ≤ d.size - 2 := by
      rw [h.numFields]
      exact hfilter
    have hle := h.size_le
    omega
  · exact herror

/-- 8 GiB of one field. -/
theorem not_make_manyValues : make 1 (manyValues (2 ^ 32)) = .error .capacityCheck := make_manyValues le_rfl

end TypedProtoDecoder

end LynxTrace.Protozero
