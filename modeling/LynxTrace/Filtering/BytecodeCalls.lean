import LynxTrace.Filtering.MessageTable

/-!
# Filtering.BytecodeCalls — what the calls of a client add, and the words they come to
-/

namespace LynxTrace.Filtering

/-! ### What is added -/

inductive Answer
  | notAllowed
  | simple
  | filterString (semanticType : ℕ)
  | nested (messageIndex : ℕ)
  deriving DecidableEq, Repr

/-- What a client sees of a result. -/
def QueryResult.answer (r : QueryResult) : Answer :=
  if !r.allowed then .notAllowed
  else if r.simpleField then .simple
  else if r.filterStringField then .filterString r.semanticType
  else .nested r.nestedMsgIndex

namespace Call

/-- The first field a call adds. -/
def firstId : Call → ℕ
  | endMessage => 0
  | addSimpleField fieldId => fieldId
  | addFilterStringField fieldId _ _ _ => fieldId
  | addSimpleFieldRange rangeStart _ => rangeStart
  | addNestedField fieldId _ => fieldId

/-- The last field a call adds. -/
def lastId : Call → ℕ
  | addSimpleFieldRange rangeStart rangeLen => rangeStart + rangeLen - 1
  | c => c.firstId

def covers (c : Call) (fieldId : ℕ) : Bool := c.firstId ≤ fieldId ∧ fieldId ≤ c.lastId

def answer : Call → Answer
  | endMessage => .notAllowed
  | addSimpleField _ => .simple
  | addFilterStringField _ semanticType _ _ => .filterString semanticType
  | addSimpleFieldRange _ _ => .simple
  | addNestedField _ messageIndex => .nested messageIndex

/-- What the call adds for parsers from a version on. -/
def answerFor (v : BytecodeVersion) : Call → Answer
  | addFilterStringField _ semanticType allowInV1 _ =>
    if v = .kV1 then if allowInV1 then .simple else .notAllowed else .filterString semanticType
  | c => c.answer

/-- Arguments in the ranges of their types: field ids of 29 bits, ranges that do not overflow, and message indexes
below the states of string fields. -/
def InRange : Call → Prop
  | endMessage => True
  | addSimpleField fieldId => fieldId < 2 ^ 29
  | addFilterStringField fieldId semanticType _ _ => fieldId < 2 ^ 29 ∧ semanticType < 2 ^ 32
  | addSimpleFieldRange rangeStart rangeLen => rangeStart < 2 ^ 29 ∧ 0 < rangeLen ∧ rangeStart + rangeLen < 2 ^ 32
  | addNestedField fieldId messageIndex => fieldId < 2 ^ 29 ∧ messageIndex < kFilterStringFieldWithType

end Call

/-- The calls that add to a message. -/
def messageCalls : ℕ → List Call → List Call
  | _, [] => []
  | 0, .endMessage :: _ => []
  | m + 1, .endMessage :: cs => messageCalls m cs
  | 0, c :: cs => c :: messageCalls 0 cs
  | m + 1, _ :: cs => messageCalls (m + 1) cs

/-- What the calls say about a field of a message. -/
def added (cs : List Call) (m f : ℕ) : Answer :=
  match (messageCalls m cs).find? (·.covers f) with
  | none => .notAllowed
  | some c => c.answer

/-- What they say for parsers from a version on. -/
def addedFor (v : BytecodeVersion) (cs : List Call) (m f : ℕ) : Answer :=
  match (messageCalls m cs).find? (·.covers f) with
  | none => .notAllowed
  | some c => c.answerFor v

/-- The field ids of each message ascend strictly. -/
def Increasing : ℕ → List Call → Prop
  | _, [] => True
  | _, .endMessage :: cs => Increasing 0 cs
  | last, c :: cs => last < c.firstId ∧ Increasing c.lastId cs

structure Legal (cs : List Call) : Prop where
  increasing : Increasing 0 cs
  inRange : ∀ c ∈ cs, c.InRange
  nested : ∀ f i, .addNestedField f i ∈ cs → i < cs.count .endMessage
  ended : cs.getLast? = some .endMessage
  messages : cs.count .endMessage < 2 ^ 32

/-! ### Words of a call -/

namespace Call

/-- The words of a call in the bytecode. -/
def words (v : BytecodeVersion) : Call → List ℕ
  | endMessage => [FilterOpcode.endOfMessage.toNat]
  | addSimpleField fieldId => [fieldWord fieldId .simpleField]
  | addFilterStringField fieldId semanticType allowInV1 allowInV2 =>
    if v = .kV1 then if allowInV1 then [fieldWord fieldId .simpleField] else []
    else if semanticType = 0 then [fieldWord fieldId .filterString]
    else if v = .kV54 then [fieldWord fieldId .filterStringWithType, semanticType]
    else if allowInV2 then [fieldWord fieldId .filterString] else []
  | addSimpleFieldRange rangeStart rangeLen => [fieldWord rangeStart .simpleFieldRange, rangeLen]
  | addNestedField fieldId messageIndex => [fieldWord fieldId .nestedField, messageIndex]

/-- The semantic type a call leaves to the overlay. -/
def overlayType (v : BytecodeVersion) : Call → Option ℕ
  | addFilterStringField _ semanticType _ _ => if v = .kV2 ∧ semanticType ≠ 0 then some semanticType else none
  | _ => none

/-- The words of a call in the overlay. -/
def overlayWords (v : BytecodeVersion) (m : ℕ) (c : Call) : List ℕ :=
  match c.overlayType v with
  | none => []
  | some semanticType => [m, fieldWord c.firstId .filterStringWithType, semanticType]

/-- The overlay entry of a call. -/
def overlayEntries (v : BytecodeVersion) (m : ℕ) (c : Call) : List OverlayEntry :=
  match c.overlayType v with
  | none => []
  | some semanticType => [⟨m, c.firstId, typedMessageId semanticType⟩]

/-- The message id a call gives its fields; `none` if it adds nothing. -/
def messageId (v : BytecodeVersion) : Call → Option ℕ
  | endMessage => none
  | addSimpleField _ => some kSimpleField
  | addFilterStringField _ semanticType allowInV1 _ =>
    if v = .kV1 then if allowInV1 then some kSimpleField else none
    else some (if semanticType = 0 then kFilterStringField else typedMessageId semanticType)
  | addSimpleFieldRange _ _ => some kSimpleField
  | addNestedField _ messageIndex => some messageIndex

/-- The table with what the call adds. -/
def table (v : BytecodeVersion) (c : Call) (t : MessageTable) : MessageTable :=
  match c with
  | addSimpleFieldRange rangeStart rangeLen => t.addSimpleFields rangeStart (rangeStart + rangeLen)
  | c =>
    match c.messageId v with
    | none => t
    | some msgId => t.addField c.firstId msgId

def nestedIndex : Call → ℕ
  | addNestedField _ messageIndex => messageIndex
  | _ => 0

theorem firstId_le_lastId {c : Call} (h : c.InRange) : c.firstId ≤ c.lastId := by
  cases c with
  | addSimpleFieldRange a n =>
    obtain ⟨-, hn, -⟩ := h
    simp only [firstId, lastId]
    omega
  | _ => exact le_rfl

theorem firstId_lt {c : Call} (h : c.InRange) : c.firstId < 2 ^ 29 := by
  cases c with
  | endMessage => exact Nat.two_pow_pos 29
  | addSimpleField f => exact h
  | addFilterStringField f s a b => exact h.1
  | addSimpleFieldRange a n => exact h.1
  | addNestedField f i => exact h.1

end Call

/-- The words of the calls in the overlay, from a message on. -/
def overlayWords (v : BytecodeVersion) : ℕ → List Call → List ℕ
  | _, [] => []
  | m, .endMessage :: cs => overlayWords v (m + 1) cs
  | m, c :: cs => c.overlayWords v m ++ overlayWords v m cs

def overlayEntries (v : BytecodeVersion) : ℕ → List Call → List OverlayEntry
  | _, [] => []
  | m, .endMessage :: cs => overlayEntries v (m + 1) cs
  | m, c :: cs => c.overlayEntries v m ++ overlayEntries v m cs

/-- The tables of the messages, given the one of the message under way. -/
def tables (v : BytecodeVersion) : MessageTable → List Call → List MessageTable
  | _, [] => []
  | t, .endMessage :: cs => t :: tables v {} cs
  | t, c :: cs => tables v (c.table v t) cs

variable {c : Call}

theorem messageCalls_zero_cons (hc : c ≠ .endMessage) (cs : List Call) :
    messageCalls 0 (c :: cs) = c :: messageCalls 0 cs := by
  cases c <;> first | rfl | exact absurd rfl hc

theorem messageCalls_succ_cons (hc : c ≠ .endMessage) (m : ℕ) (cs : List Call) :
    messageCalls (m + 1) (c :: cs) = messageCalls (m + 1) cs := by
  cases c <;> first | rfl | exact absurd rfl hc

theorem overlayWords_cons (hc : c ≠ .endMessage) (v : BytecodeVersion) (m : ℕ) (cs : List Call) :
    overlayWords v m (c :: cs) = c.overlayWords v m ++ overlayWords v m cs := by
  cases c <;> first | rfl | exact absurd rfl hc

theorem overlayEntries_cons (hc : c ≠ .endMessage) (v : BytecodeVersion) (m : ℕ) (cs : List Call) :
    overlayEntries v m (c :: cs) = c.overlayEntries v m ++ overlayEntries v m cs := by
  cases c <;> first | rfl | exact absurd rfl hc

theorem tables_cons (hc : c ≠ .endMessage) (v : BytecodeVersion) (t : MessageTable) (cs : List Call) :
    tables v t (c :: cs) = tables v (c.table v t) cs := by
  cases c <;> first | rfl | exact absurd rfl hc

variable {last f : ℕ} {cs : List Call}

theorem increasing_cons (hc : c ≠ .endMessage) :
    Increasing last (c :: cs) ↔ last < c.firstId ∧ Increasing c.lastId cs := by
  cases c <;> first | rfl | exact absurd rfl hc

/-! ### The generator -/

theorem FilterBytecodeGenerator.call_eq {g : FilterBytecodeGenerator} (hc : c ≠ .endMessage) (hr : c.InRange)
    (hlt : g.lastFieldId < c.firstId) : ∃ last called, last ≤ c.lastId ∧
      g.call c = some { g with
        bytecode := g.bytecode ++ c.words g.minVersion
        v54Overlay := g.v54Overlay ++ c.overlayWords g.minVersion g.numMessages
        maxMsgIndex := max g.maxMsgIndex c.nestedIndex
        lastFieldId := last
        endmessageCalled := called } := by
  cases c with
  | endMessage => exact absurd rfl hc
  | addSimpleField f =>
    refine ⟨f, false, le_rfl, ?_⟩
    simp [call, addSimpleField, push, Call.words, Call.overlayWords, Call.overlayType, Call.nestedIndex,
      show g.lastFieldId < f from hlt]
  | addNestedField f i =>
    refine ⟨f, false, le_rfl, ?_⟩
    simp [call, addNestedField, push, Call.words, Call.overlayWords, Call.overlayType, Call.nestedIndex,
      show g.lastFieldId < f from hlt]
  | addSimpleFieldRange a n =>
    obtain ⟨-, hn, hlim⟩ := hr
    refine ⟨a + n - 1, false, le_rfl, ?_⟩
    simp [call, addSimpleFieldRange, push, Call.words, Call.overlayWords, Call.overlayType, Call.nestedIndex,
      show g.lastFieldId < a from hlt, hn]
    omega
  | addFilterStringField f s allowInV1 allowInV2 =>
    have hlast : g.lastFieldId < f := hlt
    simp only [call, addFilterStringField, Call.words, Call.overlayWords, Call.overlayType, Call.nestedIndex,
      Nat.max_zero]
    cases hv : g.minVersion with
    | kV1 =>
      cases allowInV1 with
      | true => exact ⟨f, false, le_rfl, by simp [addSimpleField, push, hlast, hv]⟩
      | false =>
        refine ⟨g.lastFieldId, g.endmessageCalled, hlast.le, ?_⟩
        simp
        rw [← hv]
    | kV2 =>
      refine ⟨f, false, le_rfl, ?_⟩
      by_cases hs : s = 0
      · simp [push, hlast, hs, hv]
      · simp [push, hlast, hs, hv, Call.firstId]
    | kV54 =>
      refine ⟨f, false, le_rfl, ?_⟩
      by_cases hs : s = 0
      · simp [push, hlast, hs, hv]
      · simp [push, hlast, hs, hv]

/-- The calls end with a message, or there are none and nothing is under way. -/
def Ended (idle : Prop) (cs : List Call) : Prop := cs.getLast? = some .endMessage ∨ (cs = [] ∧ idle)

theorem Ended.of_endMessage {idle : Prop} (h : Ended idle (.endMessage :: cs)) : Ended True cs := by
  cases cs with
  | nil => exact .inr ⟨rfl, trivial⟩
  | cons c cs =>
    rcases h with h | ⟨h, -⟩
    · exact .inl (by rwa [List.getLast?_cons_cons] at h)
    · cases h

theorem Ended.of_cons {idle : Prop} (hc : c ≠ .endMessage) (h : Ended idle (c :: cs)) :
    cs.getLast? = some .endMessage := by
  rcases h with h | ⟨h, -⟩
  · cases cs with
    | nil => exact absurd (Option.some.inj h) hc
    | cons c' cs => rwa [List.getLast?_cons_cons] at h
  · cases h

theorem count_endMessage_cons (hc : c ≠ .endMessage) (cs : List Call) :
    (c :: cs).count .endMessage = cs.count .endMessage := List.count_cons_of_ne hc

theorem FilterBytecodeGenerator.calls_eq {g : FilterBytecodeGenerator} (hinc : Increasing last cs)
    (hr : ∀ c ∈ cs, c.InRange) (hlast : g.lastFieldId ≤ last) (hm : g.numMessages + cs.count .endMessage < 2 ^ 32) :
    ∃ g', calls cs g = some g' ∧
      g'.bytecode = g.bytecode ++ cs.flatMap (Call.words g.minVersion) ∧
      g'.v54Overlay = g.v54Overlay ++ overlayWords g.minVersion g.numMessages cs ∧
      g'.numMessages = g.numMessages + cs.count .endMessage ∧
      g'.maxMsgIndex = (cs.map Call.nestedIndex).foldl max g.maxMsgIndex ∧
      (Ended (g.endmessageCalled = true) cs → g'.endmessageCalled = true) := by
  induction cs generalizing g last with
  | nil =>
    refine ⟨g, rfl, by simp, by simp [overlayWords], rfl, rfl, fun h => ?_⟩
    rcases h with h | h
    · cases h
    · exact h.2
  | cons c cs ih =>
    have hr' : ∀ c ∈ cs, c.InRange := fun c' hc' => hr c' (by simp [hc'])
    by_cases hc : c = .endMessage
    · subst hc
      rw [List.count_cons_self] at hm
      have hnum : g.endMessage.numMessages = g.numMessages + 1 := Nat.mod_eq_of_lt (by omega)
      have hlast' : g.endMessage.lastFieldId ≤ 0 := le_rfl
      obtain ⟨g', hg', hbytes, hoverlay, hcount, hmax, hend⟩ := ih hinc hr' hlast' (by omega)
      refine ⟨g', hg', ?_, ?_, ?_, ?_, fun h => hend (h.of_endMessage.imp_right fun hnil => ⟨hnil.1, rfl⟩)⟩
      · simp [hbytes, endMessage, Call.words]
      · rw [hoverlay, hnum]
        rfl
      · rw [hcount, hnum, List.count_cons_self]
        omega
      · exact hmax.trans (congrArg (fun n => List.foldl max n _) (Nat.max_zero _).symm)
    · obtain ⟨hlt, hinc⟩ := (increasing_cons hc).mp hinc
      obtain ⟨last', called, hle, hcall⟩ := call_eq hc (hr c (by simp)) (hlast.trans_lt hlt)
      rw [count_endMessage_cons hc] at hm
      obtain ⟨g', hg', hbytes, hoverlay, hcount, hmax, hend⟩ :=
        ih (g := { g with
          bytecode := g.bytecode ++ c.words g.minVersion
          v54Overlay := g.v54Overlay ++ c.overlayWords g.minVersion g.numMessages
          maxMsgIndex := max g.maxMsgIndex c.nestedIndex
          lastFieldId := last'
          endmessageCalled := called }) hinc hr' hle hm
      refine ⟨g', ?_, ?_, ?_, ?_, hmax, fun h => hend (.inl (h.of_cons hc))⟩
      · rw [calls, hcall]
        exact hg'
      · simp [hbytes]
      · rw [hoverlay, overlayWords_cons hc, List.append_assoc]
      · rw [hcount, count_endMessage_cons hc]

/-! ### The words read back -/

theorem fieldWord_eq (h : f < 2 ^ 29) (op : FilterOpcode) : fieldWord f op = f * 8 + op.toNat := by
  have hop : op.toNat < 2 ^ 3 := by cases op <;> decide
  have hor := Nat.two_pow_add_eq_or_of_lt hop f
  rw [fieldWord, kOpcodeShift, Nat.shiftLeft_eq, Nat.mod_eq_of_lt (by omega), Nat.mul_comm f, ← hor]

theorem fieldWord_lt (h : f < 2 ^ 29) (op : FilterOpcode) : fieldWord f op < 2 ^ 32 := by
  have hop : op.toNat < 8 := by cases op <;> decide
  rw [fieldWord_eq h]
  omega

theorem fieldWord_opcode (h : f < 2 ^ 29) (op : FilterOpcode) : fieldWord f op &&& kOpcodeMask = op.toNat := by
  have hop : op.toNat < 8 := by cases op <;> decide
  rw [fieldWord_eq h, show kOpcodeMask = 2 ^ 3 - 1 from rfl, Nat.and_two_pow_sub_one_eq_mod]
  omega

theorem fieldWord_fieldId (h : f < 2 ^ 29) (op : FilterOpcode) : fieldWord f op >>> kOpcodeShift = f := by
  have hop : op.toNat < 8 := by cases op <;> decide
  rw [fieldWord_eq h, kOpcodeShift, Nat.shiftRight_eq_div_pow]
  omega

theorem ofNat?_toNat (op : FilterOpcode) : FilterOpcode.ofNat? op.toNat = some op := by cases op <;> rfl

theorem typedMessageId_ne_zero (s : ℕ) : typedMessageId s ≠ 0 := by
  rw [typedMessageId_eq]
  omega

/-- The next overlay entry is behind a field that ends before the calls start. -/
theorem overlayEntries_behind (v : BytecodeVersion) {m : ℕ} (h : Increasing last cs) (hr : ∀ c ∈ cs, c.InRange) :
    Behind m last (overlayEntries v m cs) := by
  induction cs generalizing m last with
  | nil => trivial
  | cons c cs ih =>
    have hr' : ∀ c ∈ cs, c.InRange := fun c' hc' => hr c' (by simp [hc'])
    by_cases hc : c = .endMessage
    · subst hc
      have hnext : Behind (m + 1) 0 (overlayEntries v (m + 1) cs) := ih h hr'
      rw [show overlayEntries v m (.endMessage :: cs) = overlayEntries v (m + 1) cs from rfl]
      cases hes : overlayEntries v (m + 1) cs with
      | nil => trivial
      | cons e es =>
        rw [hes] at hnext
        exact .inl (by rcases hnext with hnext | hnext <;> omega)
    · obtain ⟨hlt, hinc⟩ := (increasing_cons hc).mp h
      have hle := Call.firstId_le_lastId (hr c (by simp))
      have hnext : Behind m c.lastId (overlayEntries v m cs) := ih hinc hr'
      rw [overlayEntries_cons hc, Call.overlayEntries]
      cases c.overlayType v with
      | some s => exact .inr ⟨rfl, hlt⟩
      | none =>
        cases hes : overlayEntries v m cs with
        | nil => trivial
        | cons e es =>
          rw [hes] at hnext
          rcases hnext with hnext | hnext
          · exact .inl hnext
          · exact .inr ⟨hnext.1, by omega⟩

/-- The overlay parses to the entries of the calls. -/
theorem parseOverlay_calls (v : BytecodeVersion) {m : ℕ} (h : Increasing last cs) (hr : ∀ c ∈ cs, c.InRange)
    {prev : Option OverlayEntry} (hprev : ∀ p, prev = some p → Behind p.msgIndex p.fieldId (overlayEntries v m cs)) :
    parseOverlay prev (overlayWords v m cs) = some (overlayEntries v m cs) := by
  induction cs generalizing m last prev with
  | nil => cases prev <;> rfl
  | cons c cs ih =>
    have hr' : ∀ c ∈ cs, c.InRange := fun c' hc' => hr c' (by simp [hc'])
    by_cases hc : c = .endMessage
    · subst hc
      exact ih (m := m + 1) h hr' hprev
    · obtain ⟨hlt, hinc⟩ := (increasing_cons hc).mp h
      have hf := Call.firstId_lt (hr c (by simp))
      rw [overlayEntries_cons hc, Call.overlayEntries] at hprev ⊢
      rw [overlayWords_cons hc, Call.overlayWords]
      cases hty : c.overlayType v with
      | none =>
        rw [hty] at hprev
        exact ih hinc hr' hprev
      | some s =>
        rw [hty] at hprev
        have hlast : c.lastId = c.firstId := by
          cases c <;> first | rfl | cases hty
        have hid : getMessageIdForOverlay FilterOpcode.filterStringWithType.toNat s = typedMessageId s := rfl
        have hrest : parseOverlay (some ⟨m, c.firstId, typedMessageId s⟩) (overlayWords v m cs) =
            some (overlayEntries v m cs) := by
          refine ih hinc hr' ?_
          rintro p ⟨rfl⟩
          rw [← hlast]
          exact overlayEntries_behind v hinc hr'
        simp only [List.cons_append, List.nil_append, parseOverlay, fieldWord_opcode hf, fieldWord_fieldId hf, hid,
          if_neg (typedMessageId_ne_zero s), hrest, Option.map_some]
        cases prev with
        | none => rfl
        | some p =>
          have hb : m > p.msgIndex ∨ (m = p.msgIndex ∧ c.firstId > p.fieldId) := hprev p rfl
          have hsorted : ¬ (m < p.msgIndex ∨ m = p.msgIndex ∧ c.firstId ≤ p.fieldId) := by omega
          simp only [hsorted, decide_false, Bool.false_eq_true, if_false]

end LynxTrace.Filtering
