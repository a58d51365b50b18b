import LynxTrace.Filtering.BytecodeCalls

/-!
# Filtering.BytecodeRoundTrip — what is generated is what is loaded

The loader merges the overlay into the bytecode.  Between two calls it has left the entries of some of the calls before
for later; `Loading` says that its table with those entries is the table of all these calls.  A call keeps it so
(`Loading.call`), and a message ends with no entry left (`Loading.endMessage`).
-/

namespace LynxTrace.Filtering

/-! ### The table of a call -/

namespace Call

theorem lastId_lt {c : Call} (h : c.InRange) : c.lastId < 2 ^ 32 - 1 := by
  have hf := firstId_lt h
  cases c with
  | addSimpleFieldRange a n =>
    obtain ⟨-, hn, hlim⟩ := h
    simp only [lastId]
    omega
  | _ => exact hf.trans (by norm_num)

/-- The field state a call gives the fields it adds. -/
def fieldState (v : BytecodeVersion) (c : Call) : ℕ :=
  match c.messageId v with
  | none => 0
  | some msgId => kAllowed ||| msgId

def isRange : Call → Bool
  | addSimpleFieldRange _ _ => true
  | _ => false

theorem covers_iff {c : Call} (h : c.isRange = false) (f : ℕ) : c.covers f ↔ f = c.firstId := by
  have hlast : c.lastId = c.firstId := by
    cases c <;> first | rfl | cases h
  simp only [covers, hlast, decide_eq_true_eq]
  omega

theorem fits_table {c : Call} (hc : c ≠ .endMessage) (hr : c.InRange) {last : ℕ} (hlt : last < c.firstId)
    {t : MessageTable} (ht : t.Fits (last + 1)) (v : BytecodeVersion) : (c.table v t).Fits (c.lastId + 1) := by
  cases c with
  | endMessage => exact absurd rfl hc
  | addSimpleField f => exact ht.addField hlt _
  | addNestedField f i => exact ht.addField hlt _
  | addSimpleFieldRange a n =>
    obtain ⟨-, hn, -⟩ := hr
    have hend : a + n - 1 + 1 = a + n := by omega
    have hlt' : a < a + n := by omega
    exact hend ▸ (ht.addSimpleFields hlt hlt').1
  | addFilterStringField f s allowInV1 allowInV2 =>
    simp only [table]
    cases (addFilterStringField f s allowInV1 allowInV2).messageId v with
    | some msgId => exact ht.addField hlt msgId
    | none => exact ht.mono (Nat.le_succ_of_le hlt)

/-- A call behind the fields of a table sets the states of the fields it covers. -/
theorem state_table {c : Call} (hc : c ≠ .endMessage) (hr : c.InRange) {last : ℕ} (hlt : last < c.firstId)
    {t : MessageTable} (ht : t.Fits (last + 1)) (hz : ∀ f, last < f → t.state f = 0) (v : BytecodeVersion) (f : ℕ) :
    (c.table v t).state f = if c.covers f then c.fieldState v else t.state f := by
  cases c with
  | endMessage => exact absurd rfl hc
  | addSimpleField f' | addNestedField f' i =>
    exact (ht.state_addField hlt _ f).trans (if_congr (covers_iff rfl f).symm rfl rfl)
  | addSimpleFieldRange a n =>
    obtain ⟨-, hn, -⟩ := hr
    have hlt' : a < a + n := by omega
    refine ((ht.addSimpleFields hlt hlt').2 f).trans (if_congr ?_ rfl rfl)
    show a ≤ f ∧ f < a + n ↔ decide (a ≤ f ∧ f ≤ a + n - 1) = true
    rw [decide_eq_true_eq]
    omega
  | addFilterStringField f' s allowInV1 allowInV2 =>
    rw [if_congr (covers_iff rfl f) rfl rfl]
    simp only [table, fieldState]
    cases (addFilterStringField f' s allowInV1 allowInV2).messageId v with
    | some msgId => exact ht.state_addField hlt msgId f
    | none =>
      split_ifs with hf
      · rw [hf]
        exact hz _ hlt
      · rfl

/-- The calls that are in the overlay and not in the bytecode. -/
def overlayOnly (v : BytecodeVersion) (c : Call) : Prop := c.words v = [] ∧ (c.overlayType v).isSome

instance (v : BytecodeVersion) (c : Call) : Decidable (c.overlayOnly v) := inferInstanceAs (Decidable (_ ∧ _))

end Call

/-! ### Field words and overlay entries -/

variable {f last m : ℕ}

/-- What the loader does with a field word. -/
theorem loadWords_fieldWord (hf : f < 2 ^ 29) (op : FilterOpcode) (words : List ℕ) (st : LoadState) :
    loadWords (fieldWord f op :: words) st = match op with
      | .endOfMessage => st.endMessage.bind (loadWords words)
      | .simpleField => if f = 0 then none else loadWords words (st.field f kSimpleField)
      | .filterString => if f = 0 then none else loadWords words (st.field f kFilterStringField)
      | .filterStringWithType =>
        match words with
        | [] => none
        | semanticType :: words =>
          if f = 0 then none else loadWords words (st.field f (typedMessageId semanticType))
      | .nestedField =>
        match words with
        | [] => none
        | msgId :: words =>
          if f = 0 then none
          else loadWords words ({ st with maxMsgIndex := max st.maxMsgIndex msgId }.field f msgId)
      | .simpleFieldRange =>
        match words with
        | [] => none
        | rangeLen :: words => if f = 0 then none else loadWords words (st.range f rangeLen) := by
  conv_lhs => unfold loadWords
  simp only [fieldWord_opcode hf, fieldWord_fieldId hf, ofNat?_toNat]
  cases op
  case endOfMessage => cases st.endMessage <;> rfl
  all_goals rfl

variable {st : LoadState} {pending : List OverlayEntry}

/-- A field word adds the entries before the field, then the field. -/
theorem LoadState.field_eq {overlay : List OverlayEntry} (ho : st.overlay = pending ++ overlay)
    (hp : ∀ e ∈ pending, e.msgIndex = st.currentMsgIndex ∧ e.fieldId < f) (hb : Behind st.currentMsgIndex f overlay)
    (msgId : ℕ) : st.field f msgId =
      { st with table := (addEntries pending st.table).addField f msgId, overlay, isEom := false } := by
  simp only [field, ho, processOverlay_entries hp, processOverlay_behind hb, ne_eq, not_true_eq_false, if_false]

/-- With an entry for the field itself, that entry is the one added. -/
theorem LoadState.field_upgraded {id : ℕ} {overlay : List OverlayEntry}
    (ho : st.overlay = pending ++ ⟨st.currentMsgIndex, f, id⟩ :: overlay) (hid : id ≠ 0)
    (hp : ∀ e ∈ pending, e.msgIndex = st.currentMsgIndex ∧ e.fieldId < f) (msgId : ℕ) : st.field f msgId =
      { st with table := (addEntries pending st.table).addField f id, overlay, isEom := false } := by
  simp only [field, ho, processOverlay_entries hp, processOverlay_match, ne_eq, hid, not_false_eq_true, if_true]

/-- Entries below the limit can as well be added after a range behind them. -/
theorem addEntries_addSimpleFields {a : ℕ} (b : ℕ) (h : ∀ e ∈ pending, e.fieldId < kDirectlyIndexLimit ∧ e.fieldId < a)
    (t : MessageTable) : addEntries pending (t.addSimpleFields a b) = (addEntries pending t).addSimpleFields a b := by
  induction pending generalizing t with
  | nil => rfl
  | cons e pending ih =>
    obtain ⟨hdirect, hlt⟩ := h e (by simp)
    have hrest := ih (fun e' he' => h e' (by simp [he'])) (t.addField e.fieldId e.messageId)
    rw [← MessageTable.addSimpleFields_addField_comm t b hdirect hlt] at hrest
    exact hrest

/-- The loader between two calls of a message: `t` is the table of the calls so far, `pending` are the overlay entries
among them that it has not added yet. -/
structure Loading (v : BytecodeVersion) (last : ℕ) (t : MessageTable) (cs : List Call) (pending : List OverlayEntry)
    (st : LoadState) : Prop where
  overlay_eq : st.overlay = pending ++ overlayEntries v st.currentMsgIndex cs
  behind : ∀ e ∈ pending, e.msgIndex = st.currentMsgIndex ∧ e.fieldId ≤ last
  table_eq : addEntries pending st.table = t
  noOverlay : v ≠ .kV2 → pending = []
  direct : cs.head?.any Call.isRange → ∀ e ∈ pending, e.fieldId < kDirectlyIndexLimit

/-- An overlay entry for a field behind the limit is not followed by a range. -/
def NoRangeAfterOverlay (v : BytecodeVersion) (cs : List Call) : Prop :=
  cs.IsChain fun a b => a.overlayOnly v → kDirectlyIndexLimit ≤ a.firstId → b.isRange = false

variable {t : MessageTable} {v : BytecodeVersion} {cs : List Call}

/-- A field word leaves no entry for later. -/
theorem Loading.field {id : ℕ} {c : Call} (h : Loading v last t (c :: cs) pending st) (hlt : last < f)
    (hb : Behind st.currentMsgIndex f (overlayEntries v st.currentMsgIndex cs)) (msgId : ℕ)
    (hid : overlayEntries v st.currentMsgIndex (c :: cs) = overlayEntries v st.currentMsgIndex cs ∧ msgId = id ∨
      overlayEntries v st.currentMsgIndex (c :: cs) =
        ⟨st.currentMsgIndex, f, id⟩ :: overlayEntries v st.currentMsgIndex cs ∧ id ≠ 0) :
    Loading v f (t.addField f id) cs [] (st.field f msgId) ∧ (st.field f msgId).parser = st.parser ∧
      (st.field f msgId).currentMsgIndex = st.currentMsgIndex ∧
        (st.field f msgId).maxMsgIndex = st.maxMsgIndex := by
  have hp : ∀ e ∈ pending, e.msgIndex = st.currentMsgIndex ∧ e.fieldId < f := fun e he =>
    ⟨(h.behind e he).1, (h.behind e he).2.trans_lt hlt⟩
  have ho := h.overlay_eq
  have heq : st.field f msgId = { st with
      table := t.addField f id, overlay := overlayEntries v st.currentMsgIndex cs, isEom := false } := by
    rcases hid with ⟨hes, rfl⟩ | ⟨hes, hne⟩
    · rw [hes] at ho
      rw [LoadState.field_eq ho hp hb, h.table_eq]
    · rw [hes] at ho
      rw [LoadState.field_upgraded ho hne hp, h.table_eq]
  rw [heq]
  exact ⟨⟨rfl, by simp, rfl, fun _ => rfl, by simp⟩, rfl, rfl, rfl⟩

/-- A range leaves the entries for later. -/
theorem Loading.range {a n : ℕ} (h : Loading v last t (.addSimpleFieldRange a n :: cs) pending st) (hlt : last < a)
    (hlim : a + n < 2 ^ 32) : Loading v (a + n - 1) (t.addSimpleFields a (a + n)) cs pending (st.range a n) := by
  have hp : ∀ e ∈ pending, e.fieldId < kDirectlyIndexLimit ∧ e.fieldId < a := fun e he =>
    ⟨h.direct rfl e he, (h.behind e he).2.trans_lt hlt⟩
  refine ⟨h.overlay_eq, fun e he => ⟨(h.behind e he).1, ?_⟩, ?_, h.noOverlay, fun _ e he => (hp e he).1⟩
  · have hlt' := (hp e he).2
    omega
  · simp only [LoadState.range, Nat.mod_eq_of_lt hlim]
    rw [addEntries_addSimpleFields _ hp, h.table_eq]

/-- A string field that is in the overlay only leaves its entry for later. -/
theorem Loading.overlayOnly {s : ℕ} {allowInV1 : Bool} (hs : s ≠ 0) (hlt : last < f)
    (h : Loading .kV2 last t (.addFilterStringField f s allowInV1 false :: cs) pending st)
    (hslip : NoRangeAfterOverlay .kV2 (.addFilterStringField f s allowInV1 false :: cs)) :
    Loading .kV2 f (t.addField f (typedMessageId s)) cs
      (pending ++ [⟨st.currentMsgIndex, f, typedMessageId s⟩]) st := by
  have hentry : overlayEntries .kV2 st.currentMsgIndex (.addFilterStringField f s allowInV1 false :: cs) =
      ⟨st.currentMsgIndex, f, typedMessageId s⟩ :: overlayEntries .kV2 st.currentMsgIndex cs := by
    simp [overlayEntries, Call.overlayEntries, Call.overlayType, hs, Call.firstId]
  have hmem : ∀ e ∈ pending ++ [⟨st.currentMsgIndex, f, typedMessageId s⟩],
      e.msgIndex = st.currentMsgIndex ∧ e.fieldId ≤ f := by
    intro e he
    rcases List.mem_append.mp he with he | he
    · exact ⟨(h.behind e he).1, ((h.behind e he).2.trans_lt hlt).le⟩
    · rw [List.mem_singleton.mp he]
      exact ⟨rfl, le_rfl⟩
  refine ⟨?_, hmem, ?_, fun hv => absurd rfl hv, fun hrange e he => ?_⟩
  · rw [h.overlay_eq, hentry, List.append_assoc]
    rfl
  · rw [← h.table_eq]
    simp [addEntries]
  · by_contra hnot
    have hle := (hmem e he).2
    cases cs with
    | nil => cases hrange
    | cons b cs =>
      have hpair := (List.isChain_cons_cons.mp hslip).1 (by simp [Call.overlayOnly, Call.words, Call.overlayType, hs])
        (by simp only [Call.firstId]; omega)
      rw [List.head?_cons, Option.any_some, hpair] at hrange
      cases hrange

/-- A string field, which each version has its own words for. -/
theorem Loading.string {s : ℕ} {allowInV1 allowInV2 : Bool} {c : Call}
    (hc : c = .addFilterStringField f s allowInV1 allowInV2) (h : Loading v last t (c :: cs) pending st)
    (hr : c.InRange) (hlt : last < f) (hb : Behind st.currentMsgIndex f (overlayEntries v st.currentMsgIndex cs))
    (hslip : NoRangeAfterOverlay v (c :: cs)) (words : List ℕ) :
    ∃ pending' st', loadWords (c.words v ++ words) st = loadWords words st' ∧
      Loading v f (c.table v t) cs pending' st' ∧ st'.parser = st.parser ∧
        st'.currentMsgIndex = st.currentMsgIndex ∧ st'.maxMsgIndex = st.maxMsgIndex := by
  have hf : f < 2 ^ 29 := by
    rw [hc] at hr
    exact hr.1
  have hne : f ≠ 0 := by omega
  cases v with
  | kV1 =>
    have hes : overlayEntries .kV1 st.currentMsgIndex (c :: cs) = overlayEntries .kV1 st.currentMsgIndex cs := by
      rw [hc]
      rfl
    cases allowInV1 with
    | true =>
      obtain ⟨hload, hp, hcur, hmax⟩ := h.field hlt hb kSimpleField (.inl ⟨hes, rfl⟩)
      subst hc
      refine ⟨[], _, ?_, hload, hp, hcur, hmax⟩
      exact (loadWords_fieldWord hf .simpleField words st).trans (if_neg hne)
    | false =>
      subst hc
      have hnil : pending = [] := h.noOverlay (by decide)
      subst hnil
      exact ⟨[], st, rfl, ⟨h.overlay_eq, by simp, h.table_eq, fun _ => rfl, by simp⟩, rfl, rfl, rfl⟩
  | kV54 =>
    have hes : overlayEntries .kV54 st.currentMsgIndex (c :: cs) = overlayEntries .kV54 st.currentMsgIndex cs := by
      rw [hc]
      rfl
    by_cases hs : s = 0
    · obtain ⟨hload, hp, hcur, hmax⟩ := h.field hlt hb kFilterStringField (.inl ⟨hes, rfl⟩)
      subst hc hs
      refine ⟨[], _, ?_, hload, hp, hcur, hmax⟩
      exact (loadWords_fieldWord hf .filterString words st).trans (if_neg hne)
    · obtain ⟨hload, hp, hcur, hmax⟩ := h.field hlt hb (typedMessageId s) (.inl ⟨hes, rfl⟩)
      refine ⟨[], st.field f (typedMessageId s), ?_, ?_, hp, hcur, hmax⟩
      · have hwords : c.words .kV54 = [fieldWord f .filterStringWithType, s] := by simp [hc, Call.words, hs]
        rw [hwords]
        exact (loadWords_fieldWord hf .filterStringWithType (s :: words) st).trans (if_neg hne)
      · have htable : c.table .kV54 t = t.addField f (typedMessageId s) := by
          simp [hc, Call.table, Call.messageId, hs, Call.firstId]
        rwa [htable]
  | kV2 =>
    by_cases hs : s = 0
    · have hes : overlayEntries .kV2 st.currentMsgIndex (c :: cs) = overlayEntries .kV2 st.currentMsgIndex cs := by
        rw [hc, hs]
        rfl
      obtain ⟨hload, hp, hcur, hmax⟩ := h.field hlt hb kFilterStringField (.inl ⟨hes, rfl⟩)
      subst hc hs
      refine ⟨[], _, ?_, hload, hp, hcur, hmax⟩
      exact (loadWords_fieldWord hf .filterString words st).trans (if_neg hne)
    · have htable : c.table .kV2 t = t.addField f (typedMessageId s) := by
        simp [hc, Call.table, Call.messageId, hs, Call.firstId]
      rw [htable]
      cases allowInV2 with
      | true =>
        have hes : overlayEntries .kV2 st.currentMsgIndex (c :: cs) =
            ⟨st.currentMsgIndex, f, typedMessageId s⟩ :: overlayEntries .kV2 st.currentMsgIndex cs := by
          simp [hc, overlayEntries, Call.overlayEntries, Call.overlayType, hs, Call.firstId]
        obtain ⟨hload, hp, hcur, hmax⟩ :=
          h.field hlt hb kFilterStringField (.inr ⟨hes, typedMessageId_ne_zero s⟩)
        refine ⟨[], st.field f kFilterStringField, ?_, hload, hp, hcur, hmax⟩
        have hwords : c.words .kV2 = [fieldWord f .filterString] := by simp [hc, Call.words, hs]
        rw [hwords]
        exact (loadWords_fieldWord hf .filterString words st).trans (if_neg hne)
      | false =>
        subst hc
        refine ⟨_, st, ?_, h.overlayOnly hs hlt hslip, rfl, rfl, rfl⟩
        simp [Call.words, hs]

/-- One call. -/
theorem Loading.call {c : Call} (h : Loading v last t (c :: cs) pending st) (hc : c ≠ .endMessage)
    (hr : ∀ c' ∈ c :: cs, c'.InRange) (hinc : Increasing last (c :: cs)) (hslip : NoRangeAfterOverlay v (c :: cs))
    (words : List ℕ) : ∃ pending' st', loadWords (c.words v ++ words) st = loadWords words st' ∧
      Loading v c.lastId (c.table v t) cs pending' st' ∧ st'.parser = st.parser ∧
        st'.currentMsgIndex = st.currentMsgIndex ∧ st'.maxMsgIndex = max st.maxMsgIndex c.nestedIndex := by
  obtain ⟨hlt, hinc⟩ := (increasing_cons hc).mp hinc
  have hrc := hr c (by simp)
  have hf := Call.firstId_lt hrc
  have hne : c.firstId ≠ 0 := by omega
  have hb : Behind st.currentMsgIndex c.lastId (overlayEntries v st.currentMsgIndex cs) :=
    overlayEntries_behind v hinc fun c' hc' => hr c' (by simp [hc'])
  cases c with
  | endMessage => exact absurd rfl hc
  | addSimpleField f =>
    obtain ⟨hload, hp, hcur, hmax⟩ := h.field hlt hb kSimpleField (.inl ⟨rfl, rfl⟩)
    refine ⟨[], _, ?_, hload, hp, hcur, hmax.trans (Nat.max_zero _).symm⟩
    exact (loadWords_fieldWord hf .simpleField words st).trans (if_neg hne)
  | addNestedField f i =>
    have h1 : Loading v last t (.addNestedField f i :: cs) pending { st with maxMsgIndex := max st.maxMsgIndex i } :=
      ⟨h.overlay_eq, h.behind, h.table_eq, h.noOverlay, h.direct⟩
    obtain ⟨hload, hp, hcur, hmax⟩ := h1.field hlt hb i (.inl ⟨rfl, rfl⟩)
    refine ⟨[], _, ?_, hload, hp, hcur, hmax⟩
    exact (loadWords_fieldWord hf .nestedField (i :: words) st).trans (if_neg hne)
  | addSimpleFieldRange a n =>
    refine ⟨pending, st.range a n, ?_, h.range hlt hrc.2.2, rfl, rfl, (Nat.max_zero _).symm⟩
    exact (loadWords_fieldWord hf .simpleFieldRange (n :: words) st).trans (if_neg hne)
  | addFilterStringField f s allowInV1 allowInV2 =>
    obtain ⟨pending', st', hload, h', hp, hcur, hmax⟩ := h.string rfl hrc hlt hb hslip words
    exact ⟨pending', st', hload, h', hp, hcur, hmax.trans (Nat.max_zero _).symm⟩

theorem nonOverlapping_of_sorted {ranges : List Range} (h : ranges.Pairwise fun a b => a.limit ≤ b.start) :
    MessageTable.nonOverlapping ranges = true := by
  induction ranges with
  | nil => rfl
  | cons a ranges ih =>
    cases ranges with
    | nil => rfl
    | cons b ranges =>
      obtain ⟨ha, hrest⟩ := List.pairwise_cons.mp h
      have hle := ha b (by simp)
      rw [MessageTable.nonOverlapping, ih hrest, decide_eq_false (by omega)]
      rfl

/-- The end of a message, whose table is the one of its calls. -/
theorem Loading.endMessage (h : Loading v last t (.endMessage :: cs) pending st) (ht : t.Fits (last + 1))
    (hlast : last < 2 ^ 32 - 1) (hr : ∀ c ∈ cs, c.InRange) (hinc : Increasing 0 cs)
    (hm : st.currentMsgIndex + 1 < 2 ^ 32) (words : List ℕ) :
    ∃ st', loadWords (Call.words v .endMessage ++ words) st = loadWords words st' ∧ Loading v 0 {} cs [] st' ∧
      st'.parser = st.parser.push t ∧ st'.currentMsgIndex = st.currentMsgIndex + 1 ∧
        st'.maxMsgIndex = st.maxMsgIndex ∧ st'.isEom = true := by
  have hb : Behind st.currentMsgIndex (2 ^ 32 - 1) (overlayEntries v st.currentMsgIndex (.endMessage :: cs)) :=
    overlayEntries_behind v (show Increasing (2 ^ 32 - 1) (.endMessage :: cs) from hinc) (by simpa [Call.InRange] using hr)
  have hp : ∀ e ∈ pending, e.msgIndex = st.currentMsgIndex ∧ e.fieldId < 2 ^ 32 - 1 := fun e he =>
    ⟨(h.behind e he).1, (h.behind e he).2.trans_lt hlast⟩
  have hnext : (st.currentMsgIndex + 1) % 2 ^ 32 = st.currentMsgIndex + 1 := Nat.mod_eq_of_lt hm
  refine ⟨{ st with
      table := {}
      overlay := overlayEntries v (st.currentMsgIndex + 1) cs
      currentMsgIndex := st.currentMsgIndex + 1
      isEom := true
      parser := st.parser.push t }, ?_, ⟨rfl, by simp, rfl, fun _ => rfl, by simp⟩, rfl, rfl, rfl, rfl⟩
  refine (loadWords_fieldWord (by norm_num : 0 < 2 ^ 29) .endOfMessage words st).trans ?_
  simp only [LoadState.endMessage, h.overlay_eq, processOverlay_entries hp, processOverlay_behind hb, h.table_eq,
    nonOverlapping_of_sorted ht.sorted, if_true, hnext]
  rfl

/-- All the calls. -/
theorem loadWords_calls (h : Loading v last t cs pending st) (ht : t.Fits (last + 1)) (hlast : last < 2 ^ 32 - 1)
    (hinc : Increasing last cs) (hr : ∀ c ∈ cs, c.InRange) (hslip : NoRangeAfterOverlay v cs)
    (hm : st.currentMsgIndex + cs.count .endMessage < 2 ^ 32) :
    ∃ st', loadWords (cs.flatMap (Call.words v)) st = some st' ∧
      st'.parser = (tables v t cs).foldl FilterBytecodeParser.push st.parser ∧
      st'.maxMsgIndex = (cs.map Call.nestedIndex).foldl max st.maxMsgIndex ∧
      (Ended (st.isEom = true ∧ pending = []) cs → st'.isEom = true ∧ st'.overlay = []) := by
  induction cs generalizing last t pending st with
  | nil =>
    refine ⟨st, rfl, rfl, rfl, fun hend => ?_⟩
    rcases hend with hend | ⟨-, heom, hnil⟩
    · cases hend
    · exact ⟨heom, by rw [h.overlay_eq, hnil]; rfl⟩
  | cons c cs ih =>
    have hr' : ∀ c ∈ cs, c.InRange := fun c' hc' => hr c' (by simp [hc'])
    have hslip' : NoRangeAfterOverlay v cs := List.IsChain.tail hslip
    rw [List.flatMap_cons]
    by_cases hc : c = .endMessage
    · subst hc
      rw [List.count_cons_self] at hm
      obtain ⟨st₁, hload, h₁, hp, hcur, hmax, heom⟩ :=
        h.endMessage ht hlast hr' hinc (by omega) (cs.flatMap (Call.words v))
      obtain ⟨st', hload', hp', hmax', hend⟩ :=
        ih h₁ (MessageTable.fits_empty 1) (by norm_num) hinc hr' hslip' (by omega)
      refine ⟨st', hload.trans hload', ?_, ?_, fun he => hend (he.of_endMessage.imp_right fun hnil => ⟨hnil.1, heom, rfl⟩)⟩
      · rw [hp', hp]
        rfl
      · rw [hmax', hmax]
        exact congrArg (fun n => List.foldl max n _) (Nat.max_zero _).symm
    · rw [count_endMessage_cons hc] at hm
      obtain ⟨hlt, hinc'⟩ := (increasing_cons hc).mp hinc
      have hrc := hr c (by simp)
      obtain ⟨pending', st₁, hload, h₁, hp, hcur, hmax⟩ := h.call hc hr hinc hslip (cs.flatMap (Call.words v))
      obtain ⟨st', hload', hp', hmax', hend⟩ :=
        ih h₁ (Call.fits_table hc hrc hlt ht v) (Call.lastId_lt hrc) hinc' hr' hslip' (by omega)
      refine ⟨st', hload.trans hload', ?_, ?_, fun he => hend (.inl (he.of_cons hc))⟩
      · rw [hp', hp, tables_cons hc]
      · rw [hmax', hmax]
        rfl

/-! ### Answers -/

theorem mem_messageCalls {c : Call} (h : c ∈ messageCalls m cs) : c ∈ cs ∧ c ≠ .endMessage := by
  induction cs generalizing m with
  | nil => cases h
  | cons c' cs ih =>
    by_cases hc : c' = .endMessage
    · subst hc
      cases m with
      | zero => cases h
      | succ m => exact ⟨.tail _ (ih h).1, (ih h).2⟩
    · cases m with
      | zero =>
        rw [messageCalls_zero_cons hc] at h
        rcases List.mem_cons.mp h with rfl | h
        · exact ⟨by simp, hc⟩
        · exact ⟨.tail _ (ih h).1, (ih h).2⟩
      | succ m =>
        rw [messageCalls_succ_cons hc] at h
        exact ⟨.tail _ (ih h).1, (ih h).2⟩

theorem increasing_messageCalls_zero (h : Increasing last cs) : Increasing last (messageCalls 0 cs) := by
  induction cs generalizing last with
  | nil => trivial
  | cons c cs ih =>
    by_cases hc : c = .endMessage
    · subst hc
      trivial
    · obtain ⟨hlt, hinc⟩ := (increasing_cons hc).mp h
      rw [messageCalls_zero_cons hc]
      exact (increasing_cons hc).mpr ⟨hlt, ih hinc⟩

theorem increasing_messageCalls (h : Increasing last cs) (m : ℕ) : Increasing 0 (messageCalls m cs) := by
  induction cs generalizing last m with
  | nil => trivial
  | cons c cs ih =>
    by_cases hc : c = .endMessage
    · subst hc
      cases m with
      | zero => trivial
      | succ m => exact ih h m
    · obtain ⟨hlt, hinc⟩ := (increasing_cons hc).mp h
      cases m with
      | zero =>
        rw [messageCalls_zero_cons hc]
        exact (increasing_cons hc).mpr ⟨by omega, increasing_messageCalls_zero hinc⟩
      | succ m =>
        rw [messageCalls_succ_cons hc]
        exact ih hinc (m + 1)

theorem Increasing.lt_firstId (h : Increasing last cs) (hcs : ∀ c ∈ cs, c ≠ .endMessage ∧ c.InRange) :
    ∀ c ∈ cs, last < c.firstId := by
  induction cs generalizing last with
  | nil => simp
  | cons c cs ih =>
    obtain ⟨hc, hr⟩ := hcs c (by simp)
    obtain ⟨hlt, hinc⟩ := (increasing_cons hc).mp h
    have hle := Call.firstId_le_lastId hr
    intro c' hc'
    rcases List.mem_cons.mp hc' with rfl | hc'
    · exact hlt
    · have hlt' := ih hinc (fun c'' hc'' => hcs c'' (by simp [hc''])) c' hc'
      omega

/-- The table of a message is the one of its calls. -/
theorem tables_getElem? (t : MessageTable) (hm : m < cs.count .endMessage) : (tables v t cs)[m]? =
      some ((messageCalls m cs).foldl (fun t c => c.table v t) (if m = 0 then t else {})) := by
  induction cs generalizing m t with
  | nil => cases hm
  | cons c cs ih =>
    by_cases hc : c = .endMessage
    · subst hc
      rw [List.count_cons_self] at hm
      cases m with
      | zero => rfl
      | succ m =>
        have hrest := ih {} (m := m) (by omega)
        rw [ite_self] at hrest
        exact hrest
    · rw [count_endMessage_cons hc] at hm
      rw [tables_cons hc, ih _ hm]
      cases m with
      | zero => rw [messageCalls_zero_cons hc]; rfl
      | succ m => rw [messageCalls_succ_cons hc]; rfl

/-- Past the last message there are no calls and no table. -/
theorem tables_length (t : MessageTable) : (tables v t cs).length = cs.count .endMessage := by
  induction cs generalizing t with
  | nil => rfl
  | cons c cs ih =>
    by_cases hc : c = .endMessage
    · subst hc
      rw [List.count_cons_self]
      exact congrArg (· + 1) (ih {})
    · rw [tables_cons hc, count_endMessage_cons hc, ih]

theorem messageCalls_eq_nil {idle : Prop} (hend : Ended idle cs) (hm : cs.count .endMessage ≤ m) :
    messageCalls m cs = [] := by
  induction cs generalizing m idle with
  | nil => cases m <;> rfl
  | cons c cs ih =>
    by_cases hc : c = .endMessage
    · subst hc
      rw [List.count_cons_self] at hm
      obtain ⟨m, rfl⟩ : ∃ n, m = n + 1 := ⟨m - 1, by omega⟩
      exact ih hend.of_endMessage (by omega)
    · rw [count_endMessage_cons hc] at hm
      have hcount : 0 < cs.count .endMessage := List.count_pos_iff.mpr (List.mem_of_getLast? (hend.of_cons hc))
      obtain ⟨m, rfl⟩ : ∃ n, m = n + 1 := ⟨m - 1, by omega⟩
      rw [messageCalls_succ_cons hc]
      have hend' : Ended True cs := .inl (hend.of_cons hc)
      exact ih hend' hm

/-- A field of the table of some calls has the state the call that covers it gives it. -/
theorem state_foldl_table (hc : ∀ c ∈ cs, c ≠ .endMessage ∧ c.InRange) (hinc : Increasing last cs)
    (ht : t.Fits (last + 1)) (hz : ∀ f, last < f → t.state f = 0) (f : ℕ) :
    (cs.foldl (fun t c => c.table v t) t).state f =
      match cs.find? (·.covers f) with
      | none => t.state f
      | some c => c.fieldState v := by
  induction cs generalizing last t with
  | nil => rfl
  | cons c cs ih =>
    obtain ⟨hne, hr⟩ := hc c (by simp)
    obtain ⟨hlt, hinc⟩ := (increasing_cons hne).mp hinc
    have hstate := Call.state_table hne hr hlt ht hz v
    have hle := Call.firstId_le_lastId hr
    have hz' : ∀ f, c.lastId < f → (c.table v t).state f = 0 := by
      intro f' hf'
      rw [hstate, if_neg, hz f' (by omega)]
      simp only [Call.covers, decide_eq_true_eq]
      omega
    rw [List.foldl_cons, ih (fun c' hc' => hc c' (by simp [hc'])) hinc (Call.fits_table hne hr hlt ht v) hz',
      hstate, List.find?_cons]
    cases hcov : c.covers f with
    | false => rfl
    | true =>
      have hnone : cs.find? (·.covers f) = none := by
        refine List.find?_eq_none.mpr fun c' hc' hcov' => ?_
        have hlt' := hinc.lt_firstId (fun c'' hc'' => hc c'' (by simp [hc''])) c' hc'
        simp only [Call.covers, decide_eq_true_eq] at hcov hcov'
        omega
      rw [hnone]
      rfl

/-- Semantic types that a field state has room for. -/
def Call.TypeFits : Call → Prop
  | addFilterStringField _ semanticType _ _ => semanticType < 0xfffe
  | _ => True

theorem QueryResult.answer_nested {i : ℕ} (hi : i < kFilterStringFieldWithType) (s : ℕ) :
    QueryResult.answer ⟨true, i, s⟩ = .nested i := by
  have hlt : i < 0x7fff0000 := hi
  have hsimple : decide (i = kSimpleField) = false := decide_eq_false (by unfold kSimpleField; omega)
  have hstring : decide (kFilterStringFieldWithType ≤ i ∧ i ≤ kFilterStringField) = false :=
    decide_eq_false (by unfold kFilterStringFieldWithType; omega)
  simp only [answer, simpleField, filterStringField, hsimple, hstring]
  rfl

theorem QueryResult.answer_filterString {i : ℕ} (hi : kFilterStringFieldWithType ≤ i) (hi' : i ≤ kFilterStringField)
    (s : ℕ) : QueryResult.answer ⟨true, i, s⟩ = .filterString s := by
  have hle : i ≤ 0x7ffffffe := hi'
  have hsimple : decide (i = kSimpleField) = false := decide_eq_false (by unfold kSimpleField; omega)
  have hstring : decide (kFilterStringFieldWithType ≤ i ∧ i ≤ kFilterStringField) = true := decide_eq_true ⟨hi, hi'⟩
  simp only [answer, simpleField, filterStringField, hsimple, hstring]
  rfl

/-- `Query` reads the answer of a call from the state it gives. -/
theorem Call.answer_fieldState {c : Call} (hr : c.InRange) (hty : v ≠ .kV1 → c.TypeFits) :
    (FilterBytecodeParser.resultOf (c.fieldState v)).answer = c.answerFor v := by
  have hsimple : (FilterBytecodeParser.resultOf (kAllowed ||| kSimpleField)).answer = .simple := by decide
  have hdenied : (FilterBytecodeParser.resultOf 0).answer = .notAllowed := by decide
  cases c with
  | endMessage => exact hdenied
  | addSimpleField f => exact hsimple
  | addSimpleFieldRange a n => exact hsimple
  | addNestedField f i =>
    have hi : i < kFilterStringFieldWithType := hr.2
    have hi' : i < 2 ^ 31 := hi.trans (by decide)
    show (FilterBytecodeParser.resultOf (kAllowed ||| i)).answer = .nested i
    rw [resultOf_allowed hi', QueryResult.answer_nested hi]
  | addFilterStringField f s allowInV1 allowInV2 =>
    by_cases hv : v = .kV1
    · subst hv
      cases allowInV1 with
      | true => exact hsimple
      | false => exact hdenied
    · have hs : s < 0xfffe := hty hv
      have hid : (addFilterStringField f s allowInV1 allowInV2).fieldState v =
          kAllowed ||| (if s = 0 then kFilterStringField else typedMessageId s) := by
        simp [fieldState, messageId, hv]
      have hanswer : (addFilterStringField f s allowInV1 allowInV2).answerFor v = .filterString s := by
        simp [answerFor, hv]
      rw [hid, hanswer]
      split_ifs with hs0
      · rw [hs0]
        decide
      · have hmod : s % 2 ^ 16 = s := Nat.mod_eq_of_lt (by omega)
        have hge : kFilterStringFieldWithType ≤ 0x7fff0000 + s := Nat.le_add_right _ _
        have hne : 0x7fff0000 + s < kFilterStringField := by
          unfold kFilterStringField
          omega
        rw [typedMessageId_eq, hmod, resultOf_allowed (by omega), QueryResult.answer_filterString hge hne.le,
          if_pos ⟨by omega, hne.ne⟩]
        exact congrArg Answer.filterString (by omega)

/-! ### Round trip -/

/-- The calls pass the generator, its output loads, and every query answers as given, if the loaded filter is within
the 32-bit offsets of its vector of words. -/
def RoundTrips (v : BytecodeVersion) (answers : ℕ → ℕ → Answer) (cs : List Call) : Prop :=
  ∃ g r p, FilterBytecodeGenerator.calls cs { minVersion := v } = some g ∧ g.serialize = some r ∧
    FilterBytecodeParser.load r.bytecode r.v54Overlay = some p ∧
      (p.words.length < 2 ^ 32 → ∀ m f, (p.query m f).answer = answers m f)

theorem words_lt (hr : ∀ c ∈ cs, c.InRange) : ∀ w ∈ cs.flatMap (Call.words v), w < 2 ^ 32 := by
  intro w hw
  obtain ⟨c, hc, hw⟩ := List.mem_flatMap.mp hw
  have hrc := hr c hc
  have hf := fieldWord_lt (Call.firstId_lt hrc)
  cases c with
  | endMessage =>
    rw [List.mem_singleton.mp hw]
    decide
  | addSimpleField f =>
    rw [List.mem_singleton.mp hw]
    exact hf _
  | addNestedField f i =>
    have hi : i < 0x7fff0000 := hrc.2
    rcases List.mem_pair.mp hw with rfl | rfl
    · exact hf _
    · omega
  | addSimpleFieldRange a n =>
    obtain ⟨-, -, hlim⟩ := hrc
    rcases List.mem_pair.mp hw with rfl | rfl
    · exact hf _
    · omega
  | addFilterStringField f s allowInV1 allowInV2 =>
    have hs : s < 2 ^ 32 := hrc.2
    simp only [Call.words] at hw
    split_ifs at hw
    · exact List.mem_singleton.mp hw ▸ hf _
    · cases hw
    · exact List.mem_singleton.mp hw ▸ hf _
    · rcases List.mem_pair.mp hw with rfl | rfl
      · exact hf _
      · exact hs
    · exact List.mem_singleton.mp hw ▸ hf _
    · cases hw

theorem overlayWords_lt (hr : ∀ c ∈ cs, c.InRange) (hm : m + cs.count .endMessage < 2 ^ 32) :
    ∀ w ∈ overlayWords v m cs, w < 2 ^ 32 := by
  induction cs generalizing m with
  | nil => simp [overlayWords]
  | cons c cs ih =>
    have hr' : ∀ c ∈ cs, c.InRange := fun c' hc' => hr c' (by simp [hc'])
    by_cases hc : c = .endMessage
    · subst hc
      rw [List.count_cons_self] at hm
      exact ih hr' (by omega)
    · rw [count_endMessage_cons hc] at hm
      have hrc := hr c (by simp)
      rw [overlayWords_cons hc]
      intro w hw
      rcases List.mem_append.mp hw with hw | hw
      · cases c with
        | addFilterStringField f s allowInV1 allowInV2 =>
          simp only [Call.overlayWords, Call.overlayType] at hw
          split_ifs at hw
          · rcases List.mem_cons.mp hw with rfl | hw
            · omega
            · rcases List.mem_pair.mp hw with rfl | rfl
              · exact fieldWord_lt hrc.1 _
              · exact hrc.2
          · cases hw
        | _ => cases hw
      · exact ih hr' hm w hw

theorem foldl_max_lt {n : ℕ} {l : List ℕ} {a : ℕ} (ha : a < n) (h : ∀ i ∈ l, i < n) : l.foldl max a < n := by
  induction l generalizing a with
  | nil => exact ha
  | cons i l ih => exact ih (max_lt ha (h i (by simp))) fun j hj => h j (by simp [hj])

theorem Legal.nestedIndex_lt (h : Legal cs) : (cs.map Call.nestedIndex).foldl max 0 < cs.count .endMessage := by
  have hpos : 0 < cs.count .endMessage := List.count_pos_iff.mpr (List.mem_of_getLast? h.ended)
  refine foldl_max_lt hpos fun i hi => ?_
  obtain ⟨c, hc, rfl⟩ := List.mem_map.mp hi
  cases c with
  | addNestedField f i => exact h.nested f i hc
  | _ => exact hpos

theorem FilterBytecodeParser.load_serialized {words overlay : List ℕ} {entries : List OverlayEntry}
    (hw : ∀ w ∈ words, w < 2 ^ 32) (ho : ∀ w ∈ overlay, w < 2 ^ 32) (hentries : parseOverlay none overlay = some entries) :
    load (serializeWords words) (if overlay = [] then [] else serializeWords overlay) = loadInternal words entries := by
  simp only [load, parseAndVerifyChecksum_serializeWords hw]
  by_cases hnil : overlay = []
  · subst hnil
    obtain rfl : [] = entries := Option.some.inj hentries
    rfl
  · simp only [if_neg hnil, if_neg (serializeWords_ne_nil overlay), parseAndVerifyChecksum_serializeWords ho, hentries]

/-- What is generated loads to the tables of the calls. -/
theorem FilterBytecodeParser.loadInternal_calls (h : Legal cs) (hslip : NoRangeAfterOverlay v cs) :
    loadInternal (cs.flatMap (Call.words v)) (overlayEntries v 0 cs) = some (ofTables (tables v {} cs)) := by
  have hstart : Loading v 0 {} cs [] { overlay := overlayEntries v 0 cs } :=
    ⟨rfl, by simp, rfl, fun _ => rfl, by simp⟩
  have hm : 0 + cs.count .endMessage < 2 ^ 32 := by
    rw [Nat.zero_add]
    exact h.messages
  obtain ⟨st, hload, hp, hmax, hend⟩ := loadWords_calls hstart (MessageTable.fits_empty 1) (by norm_num) h.increasing
    h.inRange hslip hm
  obtain ⟨heom, hover⟩ := hend (.inl h.ended)
  have hlen : st.parser.messageOffset.length = cs.count .endMessage := by
    rw [hp, foldl_push]
    simp [length_offsets, tables_length]
  have hlt : st.maxMsgIndex < st.parser.messageOffset.length := by
    rw [hlen, hmax]
    exact h.nestedIndex_lt
  simp only [loadInternal, hload, heom, hover]
  rw [if_neg (by simp), if_neg (by simp), if_neg (by omega), hp]
  rfl

/-- The calls pass the generator, and `Load` reads its output. -/
theorem load_calls (h : Legal cs) : ∃ g r,
    FilterBytecodeGenerator.calls cs { minVersion := v } = some g ∧ g.serialize = some r ∧
      FilterBytecodeParser.load r.bytecode r.v54Overlay =
        FilterBytecodeParser.loadInternal (cs.flatMap (Call.words v)) (overlayEntries v 0 cs) := by
  have hm : 0 + cs.count .endMessage < 2 ^ 32 := by
    rw [Nat.zero_add]
    exact h.messages
  obtain ⟨g, hg, hbytes, hoverlay, hnum, hmax, hend⟩ :=
    FilterBytecodeGenerator.calls_eq (g := { minVersion := v }) h.increasing h.inRange le_rfl hm
  have hser : g.serialize = some ⟨serializeWords g.bytecode,
      if g.v54Overlay = [] then [] else serializeWords g.v54Overlay⟩ := by
    refine if_pos ⟨hend (.inl h.ended), ?_⟩
    rw [hmax, hnum, Nat.zero_add]
    exact h.nestedIndex_lt
  have hparse : parseOverlay none (overlayWords v 0 cs) = some (overlayEntries v 0 cs) :=
    parseOverlay_calls v h.increasing h.inRange (by simp)
  refine ⟨g, _, hg, hser, ?_⟩
  rw [hbytes, hoverlay, List.nil_append, List.nil_append]
  exact FilterBytecodeParser.load_serialized (words_lt h.inRange) (overlayWords_lt h.inRange hm) hparse

/-- A field of a message has the answer of the call that covers it. -/
theorem answer_tables (h : Legal cs) (hty : v ≠ .kV1 → ∀ c ∈ cs, c.TypeFits)
    (hsize : (FilterBytecodeParser.ofTables (tables v {} cs)).words.length < 2 ^ 32) (m f : ℕ) :
    ((FilterBytecodeParser.ofTables (tables v {} cs)).query m f).answer = addedFor v cs m f := by
  rw [FilterBytecodeParser.query_ofTables hsize]
  by_cases hm : m < cs.count .endMessage
  · have hcalls : ∀ c ∈ messageCalls m cs, c ≠ .endMessage ∧ c.InRange := fun c hc =>
      ⟨(mem_messageCalls hc).2, h.inRange c (mem_messageCalls hc).1⟩
    rw [tables_getElem? {} hm, ite_self]
    simp only [addedFor]
    rw [state_foldl_table hcalls (increasing_messageCalls h.increasing m) (MessageTable.fits_empty 1) fun _ _ => rfl]
    cases hfind : (messageCalls m cs).find? (·.covers f) with
    | none => exact congrArg QueryResult.answer resultOf_zero
    | some c =>
      have hmem := (mem_messageCalls (List.mem_of_find?_eq_some hfind)).1
      exact Call.answer_fieldState (h.inRange c hmem) fun hv => hty hv c hmem
  · have hnone : (tables v {} cs)[m]? = none := by
      rw [List.getElem?_eq_none_iff, tables_length]
      omega
    rw [hnone, addedFor, messageCalls_eq_nil (.inl h.ended : Ended True cs) (by omega)]
    rfl

/-- What is generated is loaded and answers what was added. -/
theorem roundTrips {v : BytecodeVersion} {cs : List Call} (h : Legal cs) (hty : v ≠ .kV1 → ∀ c ∈ cs, c.TypeFits)
    (hslip : NoRangeAfterOverlay v cs) : RoundTrips v (addedFor v cs) cs := by
  obtain ⟨g, r, hg, hr, hload⟩ := load_calls (v := v) h
  rw [FilterBytecodeParser.loadInternal_calls h hslip] at hload
  exact ⟨g, r, _, hg, hr, hload, fun hsize => answer_tables h hty hsize⟩

/-- Overlay entries on both sides of the limit, one of them before a range, and a nested message. -/
theorem roundTrips_kV2 : RoundTrips .kV2
    (addedFor .kV2 [.addFilterStringField 1 42 false false, .addSimpleFieldRange 100 100, .addNestedField 300 1,
      .endMessage, .addFilterStringField 200 7 false true, .addFilterStringField 201 8 true false, .endMessage])
    [.addFilterStringField 1 42 false false, .addSimpleFieldRange 100 100, .addNestedField 300 1,
      .endMessage, .addFilterStringField 200 7 false true, .addFilterStringField 201 8 true false, .endMessage] := by
  refine roundTrips ⟨?_, ?_, ?_, rfl, by decide⟩ ?_ ?_
  · simp [Increasing, Call.firstId, Call.lastId]
  · simp [Call.InRange, kFilterStringFieldWithType]
  · simp
  · simp [Call.TypeFits]
  · simp [NoRangeAfterOverlay, Call.isRange, Call.firstId, kDirectlyIndexLimit]

theorem RoundTrips.loadInternal {answers : ℕ → ℕ → Answer} (hr : RoundTrips v answers cs) (h : Legal cs) :
    ∃ p, FilterBytecodeParser.loadInternal
      (cs.flatMap (Call.words v)) (overlayEntries v 0 cs) = some p ∧
        (p.words.length < 2 ^ 32 → ∀ m f, (p.query m f).answer = answers m f) := by
  obtain ⟨g, r, hg, hs, hload⟩ := load_calls (v := v) h
  obtain ⟨g', r', p, hg', hs', hp, hq⟩ := hr
  rw [hg, Option.some.injEq] at hg'
  subst hg'
  rw [hs, Option.some.injEq] at hs'
  subst hs'
  exact ⟨p, hload.symm.trans hp, hq⟩

theorem legal_string {s : ℕ} (hf : 0 < f) (hf' : f < 2 ^ 29) (hs : s < 2 ^ 32) (allowInV1 allowInV2 : Bool) :
    Legal [.addFilterStringField f s allowInV1 allowInV2, .endMessage] := by
  refine ⟨⟨hf, trivial⟩, fun c hc => ?_, by simp, rfl, by simp⟩
  rcases List.mem_pair.mp hc with rfl | rfl
  · exact ⟨hf', hs⟩
  · trivial

/-- Parsers before string filtering take a string field for a simple one, and a semantic type of all ones reads back as
a simple field. -/
theorem not_roundTrips_added :
    (Legal [.addFilterStringField 1 0 true true, .endMessage] ∧
      ¬ RoundTrips .kV1 (added [.addFilterStringField 1 0 true true, .endMessage])
        [.addFilterStringField 1 0 true true, .endMessage]) ∧
    (Legal [.addFilterStringField 1 0xffff true true, .endMessage] ∧
      ¬ RoundTrips .kV54 (added [.addFilterStringField 1 0xffff true true, .endMessage])
        [.addFilterStringField 1 0xffff true true, .endMessage]) := by
  have h₁ := legal_string (f := 1) (s := 0) (by norm_num) (by norm_num) (by norm_num) true true
  have h₂ := legal_string (f := 1) (s := 0xffff) (by norm_num) (by norm_num) (by norm_num) true true
  refine ⟨⟨h₁, fun hr => ?_⟩, h₂, fun hr => ?_⟩
  · obtain ⟨p, hp, hq⟩ := hr.loadInternal h₁
    have hload : FilterBytecodeParser.loadInternal [9, 0] [] = some ⟨[2, 0, 0xffffffff], [0, 3]⟩ := by decide
    obtain rfl := Option.some.inj (hload.symm.trans hp)
    have hans := hq (by decide) 0 1
    revert hans
    decide
  · obtain ⟨p, hp, hq⟩ := hr.loadInternal h₂
    have hload : FilterBytecodeParser.loadInternal [13, 0xffff, 0] [] = some ⟨[2, 0, 0xffffffff], [0, 3]⟩ := by decide
    obtain rfl := Option.some.inj (hload.symm.trans hp)
    have hans := hq (by decide) 0 1
    revert hans
    decide

end LynxTrace.Filtering
