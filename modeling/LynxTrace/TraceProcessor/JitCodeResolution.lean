import LynxTrace.Text.Base64RoundTrip
import LynxTrace.TraceProcessor.AddressMaps
import LynxTrace.TraceProcessor.JitCache

/-!
# TraceProcessor.JitCodeResolution — which code a jitted frame belongs to

* `Placement` : a load, or the target of a move; `live` : the code that is there after a history of them.
* `Holds` : the functions of the cache are the live placements, and cached frames are those of their code.
* `Holds.loadCode`, `Holds.moveCode`, `Holds.internFrame` : one call.
* `run_resolves` : every run, as long as code that is there is moved to address 0.
-/

namespace LynxTrace.TraceProcessor

namespace JitCache

open AddressRange

/-! ### Code that is there -/

structure Placement where
  id : ℕ
  functionName : List UInt8
  range : AddressRange
  timestamp : ℤ
  deriving DecidableEq

/-- Code that is placed ends the code it overlaps; and where it was before, it is no more. -/
def Placement.ends (q p : Placement) : Bool := q.id = p.id || q.range.overlaps p.range

/-- The code that is there after a history, which has the newest placement first. -/
def live : List Placement → List Placement
  | [] => []
  | q :: h => q :: (live h).filter fun p => !q.ends p

/-- The code at an address: the newest that was placed there, if it is there. -/
def codeAt (h : List Placement) (a : ℕ) : Option Placement := (live h).find? fun p => p.range.contains a

/-- When later code overlapped the code. -/
def deletedAt (id : ℕ) : List Placement → Option ℤ
  | [] => none
  | q :: h =>
    if (live h).any fun p => p.id = id && q.id ≠ id && q.range.overlaps p.range then some q.timestamp
    else deletedAt id h

variable {p q : Placement}

theorem mem_live_cons {h : List Placement} :
    p ∈ live (q :: h) ↔ p = q ∨ (p ∈ live h ∧ q.id ≠ p.id ∧ q.range.overlaps p.range = false) := by
  rw [live, List.mem_cons, List.mem_filter, Placement.ends, Bool.not_eq_true', Bool.or_eq_false_iff,
    decide_eq_false_iff_not]

theorem mem_of_live {h : List Placement} (hp : p ∈ live h) : p ∈ h := by
  induction h with
  | nil => exact hp
  | cons q h ih =>
    rcases mem_live_cons.mp hp with rfl | ⟨hp, _⟩
    · exact List.mem_cons_self
    · exact List.mem_cons_of_mem _ (ih hp)

/-- Code is in one place. -/
theorem eq_of_live {p' : Placement} {h : List Placement} (hp : p ∈ live h) (hp' : p' ∈ live h) (hid : p.id = p'.id) :
    p = p' := by
  induction h with
  | nil => cases hp
  | cons q h ih =>
    rcases mem_live_cons.mp hp with rfl | ⟨hp, hne, _⟩
    · rcases mem_live_cons.mp hp' with rfl | ⟨_, hne', _⟩
      · rfl
      · exact absurd hid hne'
    · rcases mem_live_cons.mp hp' with rfl | ⟨hp', _⟩
      · exact absurd hid.symm hne
      · exact ih hp hp'

variable {id frameId : ℕ}

theorem deletedAt_cons {h : List Placement} :
    deletedAt id (q :: h) =
      if ∃ p ∈ live h, p.id = id ∧ q.id ≠ id ∧ q.range.overlaps p.range = true then some q.timestamp
      else deletedAt id h := by
  rw [deletedAt]
  refine if_congr ?_ rfl rfl
  simp only [List.any_eq_true, Bool.and_eq_true, decide_eq_true_eq, and_assoc]

theorem deletedAt_of_absent {h : List Placement} (hid : ∀ p ∈ h, p.id ≠ id) : deletedAt id h = none := by
  induction h with
  | nil => rfl
  | cons q h ih =>
    have hid' : ∀ p ∈ h, p.id ≠ id := fun p hp => hid p (List.mem_cons_of_mem _ hp)
    rw [deletedAt_cons, if_neg, ih hid']
    rintro ⟨p, hp, heq, _⟩
    exact hid' p (mem_of_live hp) heq

/-! ### What frames are known by -/

/-- The frame has the name of the code, and is a frame of this code and no other. -/
def Known (storage : Storage) (key : FrameKey) (frameId id : ℕ) : Prop :=
  ∃ frame row, storage.frames[frameId]? = some frame ∧ storage.jitCode[id]? = some row ∧
    frame.name = row.functionName ∧ frame.mapping = key.mappingId ∧ frame.relPc = key.relPc.toInt64 ∧
    storage.jitFrames.filter (·.frameId = frameId) = [⟨id, frameId⟩]

/-- The frame is not one of jitted code. -/
def Unknown (storage : Storage) (key : FrameKey) (frameId : ℕ) : Prop :=
  ∃ frame, storage.frames[frameId]? = some frame ∧ frame.mapping = key.mappingId ∧
    frame.relPc = key.relPc.toInt64 ∧ storage.jitFrames.filter (·.frameId = frameId) = []

/-- Frames stay as they are, and code keeps its name. -/
structure Extends (storage storage' : Storage) : Prop where
  frames : ∀ (id : ℕ) (frame : FrameRow), storage.frames[id]? = some frame → storage'.frames[id]? = some frame
  jitFrames : ∀ id < storage.frames.length,
    storage'.jitFrames.filter (·.frameId = id) = storage.jitFrames.filter (·.frameId = id)
  names : ∀ (id : ℕ) (row : JitCodeRow), storage.jitCode[id]? = some row →
    ∃ row', storage'.jitCode[id]? = some row' ∧ row'.functionName = row.functionName

theorem Known.extends {storage storage' : Storage} {key : FrameKey} (hknown : Known storage key frameId id)
    (hext : Extends storage storage') : Known storage' key frameId id := by
  obtain ⟨frame, row, hframe, hrow, hname, hmapping, hpc, hrows⟩ := hknown
  obtain ⟨row', hrow', hname'⟩ := hext.names id row hrow
  exact ⟨frame, row', hext.frames _ _ hframe, hrow', hname.trans hname'.symm, hmapping, hpc,
    (hext.jitFrames _ (List.getElem?_eq_some_iff.mp hframe).1).trans hrows⟩

theorem Unknown.extends {storage storage' : Storage} {key : FrameKey} (hunknown : Unknown storage key frameId)
    (hext : Extends storage storage') : Unknown storage' key frameId := by
  obtain ⟨frame, hframe, hmapping, hpc, hrows⟩ := hunknown
  exact ⟨frame, hext.frames _ _ hframe, hmapping, hpc,
    (hext.jitFrames _ (List.getElem?_eq_some_iff.mp hframe).1).trans hrows⟩

/-! ### The invariant -/

/-- The cache after a history; the code that `moving` names is out of the map for the moment. -/
structure Holds (s₀ : State) (moving : Option ℕ) (s : State) (h : List Placement) : Prop where
  same : s.range = s₀.range ∧ s.upid = s₀.upid ∧ s.storage.threads = s₀.storage.threads
  disjoint : AddressRangeMap.Disjoint s.functions
  entries : ∀ range id, (∃ f, (range, f) ∈ s.functions ∧ f.jitCodeId = id) ↔
    range.start < range.end_ ∧ moving ≠ some id ∧ ∃ p ∈ live h, p.range = range ∧ p.id = id
  rows : s₀.storage.jitCode.length ≤ s.storage.jitCode.length
  ids : ∀ p ∈ h, s₀.storage.jitCode.length ≤ p.id
  names : ∀ p ∈ h, ∃ row, s.storage.jitCode[p.id]? = some row ∧ row.functionName = p.functionName
  deleted : ∀ (id : ℕ) (row : JitCodeRow), s₀.storage.jitCode.length ≤ id → s.storage.jitCode[id]? = some row →
    row.estimatedDeleteTs = deletedAt id h
  cached : ∀ e ∈ s.functions, ∀ key id, e.2.internedFrames key = some id → Known s.storage key id e.2.jitCodeId
  unknown : ∀ key id, s.unknownFrames key = some id → Unknown s.storage key id
  frameIds : ∀ row ∈ s.storage.jitFrames, row.frameId < s.storage.frames.length

section

variable {s₀ s : State} {h : List Placement} {moving : Option ℕ}

theorem Holds.id_lt (hs : Holds s₀ moving s h) (hp : p ∈ h) : p.id < s.storage.jitCode.length := by
  obtain ⟨row, hrow, _⟩ := hs.names p hp
  exact (List.getElem?_eq_some_iff.mp hrow).1

/-- `Find` leads to the code that is there. -/
theorem Holds.find_of_codeAt (hs : Holds s₀ none s h) {a : ℕ} (hp : codeAt h a = some p) :
    ∃ f, AddressRangeMap.find s.functions a = some (p.range, f) ∧ f.jitCodeId = p.id := by
  have hmem := List.mem_of_find?_eq_some hp
  have hin : p.range.contains a = true := List.find?_some (p := fun p : Placement => p.range.contains a) hp
  have hne := contains_iff.mp hin
  obtain ⟨f, hf, hid⟩ := (hs.entries p.range p.id).mpr ⟨by omega, nofun, p, hmem, rfl, rfl⟩
  exact ⟨f, (AddressRangeMap.find_eq_some hs.disjoint).mpr ⟨hf, hin⟩, hid⟩

theorem Holds.find_of_none (hs : Holds s₀ none s h) {a : ℕ} (hp : codeAt h a = none) :
    AddressRangeMap.find s.functions a = none := by
  rw [Option.eq_none_iff_forall_ne_some]
  rintro ⟨range, f⟩ hfind
  obtain ⟨hf, hin⟩ := (AddressRangeMap.find_eq_some hs.disjoint).mp hfind
  obtain ⟨_, _, p, hp', hrange, _⟩ := (hs.entries range f.jitCodeId).mp ⟨f, hf, rfl⟩
  subst hrange
  exact absurd hin (by simpa using List.find?_eq_none.mp hp p hp')

/-! ### Placing code -/

/-- `DeleteOverlapsAndEmplace` by the entries, for any range. -/
theorem delete_members {V : Type} {m : AddressRangeMap V} (hm : AddressRangeMap.Disjoint m) (range : AddressRange)
    (v : V) : ∃ placed called m', AddressRangeMap.deleteOverlapsAndEmplace m range v = (placed, called, m') ∧
      AddressRangeMap.Disjoint m' ∧ (∀ e, e ∈ called ↔ e ∈ m ∧ range.overlaps e.1 = true) ∧
      ∀ e, e ∈ m' ↔ (e = (range, v) ∧ range.start < range.end_) ∨ (e ∈ m ∧ range.overlaps e.1 = false) := by
  cases hempty : range.empty with
  | true =>
    have hno : ∀ e : AddressRange × V, range.overlaps e.1 = false := by
      intro e
      rw [overlaps, hempty]
      rfl
    have hnot : ¬ range.start < range.end_ := by
      rw [← not_empty_iff, hempty]
      exact Bool.noConfusion
    refine ⟨false, [], m, by rw [AddressRangeMap.deleteOverlapsAndEmplace, if_pos hempty], hm, fun e => ?_, fun e => ?_⟩
    · rw [hno e]
      simp
    · exact ⟨fun he => Or.inr ⟨he, hno e⟩, fun hor => hor.elim (fun hboth => absurd hboth.2 hnot) And.left⟩
  | false =>
    have hrange := not_empty_iff.mp hempty
    obtain ⟨called, m', hdelete, hdisjoint, _, hcalled, _⟩ := AddressRangeMap.delete_spec hm hrange v
    refine ⟨true, called, m', hdelete, hdisjoint, hcalled, fun e => ?_⟩
    have heq := hdelete.symm.trans (AddressRangeMap.delete_eq hm hrange v)
    obtain rfl : m' = _ := (Prod.mk.inj (Prod.mk.inj heq).2).2
    have hside : e ∈ m → ((e.1.end_ ≤ range.start ∨ range.end_ ≤ e.1.start) ↔ range.overlaps e.1 = false) := by
      intro he
      rw [← Bool.not_eq_true, AddressRangeMap.overlaps_iff hrange (hm.nonempty e he)]
      omega
    simp only [List.mem_append, List.mem_cons, List.mem_filter, decide_eq_true_eq]
    constructor
    · rintro (⟨he, hle⟩ | rfl | ⟨he, hle⟩)
      · exact Or.inr ⟨he, (hside he).mp (Or.inl hle)⟩
      · exact Or.inl ⟨rfl, hrange⟩
      · exact Or.inr ⟨he, (hside he).mp (Or.inr hle)⟩
    · rintro (⟨rfl, _⟩ | ⟨he, hno⟩)
      · exact Or.inr (Or.inl rfl)
      · rcases (hside he).mpr hno with hle | hle
        · exact Or.inl ⟨he, hle⟩
        · exact Or.inr (Or.inr ⟨he, hle⟩)

/-- The rows of the entries are marked, the others stay. -/
theorem markDeleted_spec (timestamp : ℤ) {called : List (AddressRange × JittedFunction)} :
    ∀ rows : List JitCodeRow, (∀ e ∈ called, e.2.jitCodeId < rows.length) →
      ∃ rows', markDeleted timestamp rows called = some rows' ∧ rows'.length = rows.length ∧
        ∀ (id : ℕ) (row : JitCodeRow), rows[id]? = some row → rows'[id]? = some
          (if ∃ e ∈ called, e.2.jitCodeId = id then { row with estimatedDeleteTs := some timestamp } else row) := by
  induction called with
  | nil =>
    intro rows _
    refine ⟨rows, rfl, rfl, fun id row hrow => ?_⟩
    rw [hrow, if_neg]
    rintro ⟨e, he, _⟩
    cases he
  | cons e called ih =>
    intro rows hlt
    rw [markDeleted, if_pos (hlt e List.mem_cons_self)]
    obtain ⟨rows', hrun, hlength, hget⟩ := ih
      (rows.modify e.2.jitCodeId fun row => { row with estimatedDeleteTs := some timestamp })
      (fun e' he' => by rw [List.length_modify]; exact hlt e' (List.mem_cons_of_mem _ he'))
    refine ⟨rows', hrun, by rw [hlength, List.length_modify], fun id row hrow => ?_⟩
    by_cases heq : e.2.jitCodeId = id
    · rw [hget id { row with estimatedDeleteTs := some timestamp } (by simp [hrow, heq]),
        if_pos (show ∃ e' ∈ e :: called, e'.2.jitCodeId = id from ⟨e, List.mem_cons_self, heq⟩), ite_self]
    · rw [hget id row (by simp [hrow, heq])]
      refine congrArg some (if_congr ?_ rfl rfl)
      rw [List.exists_mem_cons_iff]
      exact (or_iff_right heq).symm

/-- **Code is placed**, with what it overlaps deleted; code that moves has been taken out before. -/
theorem Holds.emplaceFunction {f : JittedFunction} (hs : Holds s₀ (some q.id) s h) (hf : f.jitCodeId = q.id)
    (hid : s₀.storage.jitCode.length ≤ q.id)
    (hname : ∃ row, s.storage.jitCode[q.id]? = some row ∧ row.functionName = q.functionName)
    (hcached : ∀ key id, f.internedFrames key = some id → Known s.storage key id f.jitCodeId) :
    ∃ s', emplaceFunction s q.timestamp q.range f = some s' ∧
      s'.storage.jitCode.length = s.storage.jitCode.length ∧ Holds s₀ none s' (q :: h) := by
  obtain ⟨placed, called, functions, hdelete, hdisjoint, hcalled, hmem⟩ := delete_members hs.disjoint q.range f
  have hlive : ∀ e ∈ s.functions, e.1.start < e.1.end_ ∧ q.id ≠ e.2.jitCodeId ∧
      ∃ p ∈ live h, p.range = e.1 ∧ p.id = e.2.jitCodeId := by
    rintro ⟨range, g⟩ he
    obtain ⟨hne, hmoving, hp⟩ := (hs.entries range g.jitCodeId).mp ⟨g, he, rfl⟩
    exact ⟨hne, fun heq => hmoving (congrArg some heq), hp⟩
  obtain ⟨rows, hmark, hlength, hrows⟩ := markDeleted_spec q.timestamp s.storage.jitCode fun e he => by
    obtain ⟨_, _, p, hp, _, hpid⟩ := hlive e ((hcalled e).mp he).1
    exact hpid ▸ hs.id_lt (mem_of_live hp)
  have hext : Extends s.storage { s.storage with jitCode := rows } := by
    refine ⟨fun _ _ hframe => hframe, fun _ _ => rfl, fun id row hrow => ⟨_, hrows id row hrow, ?_⟩⟩
    split_ifs
    · rfl
    · rfl
  refine ⟨_, by rw [JitCache.emplaceFunction, hdelete]; dsimp only; rw [hmark]; rfl, hlength, ?_⟩
  exact {
    same := hs.same
    disjoint := hdisjoint
    entries := by
      intro range id
      constructor
      · rintro ⟨g, hg, rfl⟩
        rcases (hmem _).mp hg with ⟨heq, hne⟩ | ⟨hg, hno⟩
        · obtain ⟨rfl, rfl⟩ := Prod.mk.inj heq
          exact ⟨hne, nofun, q, mem_live_cons.mpr (Or.inl rfl), rfl, hf.symm⟩
        · obtain ⟨hne, hmoving, p, hp, hrange, hpid⟩ := hlive _ hg
          refine ⟨hne, nofun, p, mem_live_cons.mpr (Or.inr ⟨hp, hpid ▸ hmoving, ?_⟩), hrange, hpid⟩
          rw [hrange]
          exact hno
      · rintro ⟨hne, _, p, hp, rfl, rfl⟩
        rcases mem_live_cons.mp hp with rfl | ⟨hp, hpid, hno⟩
        · exact ⟨f, (hmem _).mpr (Or.inl ⟨rfl, hne⟩), hf⟩
        · obtain ⟨g, hg, hgid⟩ := (hs.entries p.range p.id).mpr
            ⟨hne, fun heq => hpid (Option.some.inj heq), p, hp, rfl, rfl⟩
          exact ⟨g, (hmem _).mpr (Or.inr ⟨hg, hno⟩), hgid⟩
    rows := hlength.symm ▸ hs.rows
    ids := by
      intro p hp
      rcases List.mem_cons.mp hp with rfl | hp
      · exact hid
      · exact hs.ids p hp
    names := by
      intro p hp
      obtain ⟨row, hrow, hrowName⟩ : ∃ row, s.storage.jitCode[p.id]? = some row ∧
          row.functionName = p.functionName := by
        rcases List.mem_cons.mp hp with rfl | hp
        · exact hname
        · exact hs.names p hp
      obtain ⟨row', hrow', hrowName'⟩ := hext.names p.id row hrow
      exact ⟨row', hrow', hrowName'.trans hrowName⟩
    deleted := by
      intro id row' hfirst hrow'
      have hlt : id < s.storage.jitCode.length := hlength ▸ (List.getElem?_eq_some_iff.mp hrow').1
      have hrow := List.getElem?_eq_getElem hlt
      obtain rfl := Option.some.inj ((hrows id _ hrow).symm.trans hrow')
      have hiff : (∃ e ∈ called, e.2.jitCodeId = id) ↔
          ∃ p ∈ live h, p.id = id ∧ q.id ≠ id ∧ q.range.overlaps p.range = true := by
        constructor
        · rintro ⟨e, he, rfl⟩
          obtain ⟨hin, hover⟩ := (hcalled e).mp he
          obtain ⟨_, hmoving, p, hp, hrange, hpid⟩ := hlive e hin
          exact ⟨p, hp, hpid, hmoving, hrange ▸ hover⟩
        · rintro ⟨p, hp, rfl, hne, hover⟩
          have hp' : p.range.start < p.range.end_ := by
            rw [← not_empty_iff, ← Bool.not_eq_true]
            intro hempty
            rw [overlaps, hempty] at hover
            simp at hover
          obtain ⟨g, hg, hgid⟩ := (hs.entries p.range p.id).mpr
            ⟨hp', fun heq => hne (Option.some.inj heq), p, hp, rfl, rfl⟩
          exact ⟨_, (hcalled _).mpr ⟨hg, hover⟩, hgid⟩
      rw [deletedAt_cons, if_congr hiff rfl rfl]
      split_ifs
      · rfl
      · exact hs.deleted id _ hfirst hrow
    cached := by
      intro e he key id hkey
      rcases (hmem e).mp he with ⟨rfl, _⟩ | ⟨he, _⟩
      · exact (hcached key id hkey).extends hext
      · exact (hs.cached e he key id hkey).extends hext
    unknown := fun key id hkey => (hs.unknown key id hkey).extends hext
    frameIds := hs.frameIds }

/-- **`LoadCode`** places new code. -/
theorem Holds.loadCode (hs : Holds s₀ none s h) (timestamp : ℤ) {utid : ℕ} {codeRange : AddressRange}
    (functionName : List UInt8) (sourceLocation : Option SourceLocation) {nativeCode : List UInt8}
    (hrange : s₀.range.containsRange codeRange = true) (hthread : s₀.storage.threads[utid]? = some (some s₀.upid))
    (hnative : nativeCode.length = 0 ∨ nativeCode.length = codeRange.size) :
    ∃ s', loadCode s timestamp utid codeRange functionName sourceLocation nativeCode =
        some (s', s.storage.jitCode.length) ∧
      s'.storage.jitCode.length = s.storage.jitCode.length + 1 ∧
      Holds s₀ none s' (⟨s.storage.jitCode.length, functionName, codeRange, timestamp⟩ :: h) := by
  obtain ⟨hsameRange, hsameUpid, hsameThreads⟩ := hs.same
  have hcheck : s.range.containsRange codeRange = true ∧ s.storage.threads[utid]? = some (some s.upid) ∧
      (nativeCode.length = 0 ∨ nativeCode.length = codeRange.size) :=
    ⟨hsameRange ▸ hrange, by rw [hsameThreads, hsameUpid]; exact hthread, hnative⟩
  let row : JitCodeRow := ⟨timestamp, none, utid, Int64.ofNat codeRange.start, Int64.ofNat codeRange.size,
    functionName, Text.Base64.encodeLoop nativeCode⟩
  let storage : Storage := { s.storage with
    symbols := s.storage.symbols ++ sourceLocation.toList.map fun location =>
      ⟨s.storage.symbols.length, functionName, location.fileName, location.lineNumber⟩
    jitCode := s.storage.jitCode ++ [row] }
  have hnew : storage.jitCode[s.storage.jitCode.length]? = some row := List.getElem?_concat_length
  have hext : Extends s.storage storage := by
    refine ⟨fun _ _ hframe => hframe, fun _ _ => rfl, fun id old hold => ⟨old, ?_, rfl⟩⟩
    exact (List.getElem?_append_left (List.getElem?_eq_some_iff.mp hold).1).trans hold
  have hs₁ : Holds s₀ (some s.storage.jitCode.length) { s with storage := storage } h := {
    same := ⟨hsameRange, hsameUpid, hsameThreads⟩
    disjoint := hs.disjoint
    entries := by
      intro range id
      refine (hs.entries range id).trans (and_congr_right fun _ => and_congr_left fun ⟨p, hp, _, hpid⟩ => ?_)
      have hlt := hs.id_lt (mem_of_live hp)
      exact ⟨fun _ heq => absurd (Option.some.inj heq) (by omega), fun _ => nofun⟩
    rows := by
      refine Nat.le_trans hs.rows ?_
      rw [show storage.jitCode = s.storage.jitCode ++ [row] from rfl, List.length_append]
      exact Nat.le_add_right _ _
    ids := hs.ids
    names := by
      intro p hp
      obtain ⟨old, hold, hname⟩ := hs.names p hp
      obtain ⟨old', hold', hname'⟩ := hext.names p.id old hold
      exact ⟨old', hold', hname'.trans hname⟩
    deleted := by
      intro id old hfirst hold
      rcases Nat.lt_or_ge id s.storage.jitCode.length with hlt | hge
      · exact hs.deleted id old hfirst ((List.getElem?_append_left hlt).symm.trans hold)
      · have hid : id = s.storage.jitCode.length := by
          have hlen := (List.getElem?_eq_some_iff.mp hold).1
          rw [show storage.jitCode = s.storage.jitCode ++ [row] from rfl, List.length_append,
            List.length_singleton] at hlen
          omega
        subst hid
        rw [← Option.some.inj (hnew.symm.trans hold), deletedAt_of_absent]
        intro p hp
        exact Nat.ne_of_lt (hs.id_lt hp)
    cached := fun e he key id hkey => (hs.cached e he key id hkey).extends hext
    unknown := fun key id hkey => (hs.unknown key id hkey).extends hext
    frameIds := hs.frameIds }
  obtain ⟨s', hrun, hlength, hs'⟩ := hs₁.emplaceFunction
    (q := ⟨s.storage.jitCode.length, functionName, codeRange, timestamp⟩)
    (f := ⟨s.storage.jitCode.length, sourceLocation.map fun _ => s.storage.symbols.length, fun _ => none⟩) rfl hs.rows
    ⟨row, hnew, rfl⟩ nofun
  refine ⟨s', ?_, hlength.trans List.length_append, hs'⟩
  rw [JitCache.loadCode, if_pos hcheck, Text.Base64.base64Encode_eq]
  exact congrArg (Option.map fun s' => (s', s.storage.jitCode.length)) hrun

/-- `FromStartAndSize` -/
def fromStartAndSize (start size : ℕ) : AddressRange := ⟨start, start + size, Nat.le_add_right start size⟩

/-- **`MoveCode`** to address 0, from an address in code that is there. -/
theorem Holds.moveCode (hs : Holds s₀ none s h) (timestamp : ℤ) {fromCodeStart : ℕ}
    (hp : codeAt h fromCodeStart = some p) :
    ∃ s', moveCode s timestamp fromCodeStart 0 = some (s', p.id) ∧
      s'.storage.jitCode.length = s.storage.jitCode.length ∧
      Holds s₀ none s' (⟨p.id, p.functionName, fromStartAndSize 0 p.range.size, timestamp⟩ :: h) := by
  obtain ⟨f, hfind, hf⟩ := hs.find_of_codeAt hp
  have hplive := List.mem_of_find?_eq_some hp
  obtain ⟨hfin, hin⟩ := (AddressRangeMap.find_eq_some hs.disjoint).mp hfind
  have hs₁ : Holds s₀ (some p.id) { s with functions := s.functions.filter fun e => e.1 ≠ p.range } h := {
    same := hs.same
    disjoint := ⟨hs.disjoint.apart.filter _, fun e he => hs.disjoint.nonempty e (List.mem_filter.mp he).1⟩
    entries := by
      intro range id
      simp only [List.mem_filter, decide_eq_true_eq]
      constructor
      · rintro ⟨g, ⟨hg, hne⟩, rfl⟩
        obtain ⟨hpos, _, p', hp', hrange, hpid⟩ := (hs.entries range g.jitCodeId).mp ⟨g, hg, rfl⟩
        refine ⟨hpos, fun heq => hne ?_, p', hp', hrange, hpid⟩
        rw [← hrange, eq_of_live hp' hplive (hpid.trans (Option.some.inj heq).symm)]
      · rintro ⟨hpos, hne, p', hp', hrange, hpid⟩
        obtain ⟨g, hg, hgid⟩ := (hs.entries range id).mpr ⟨hpos, nofun, p', hp', hrange, hpid⟩
        refine ⟨g, ⟨hg, fun heq => hne ?_⟩, hgid⟩
        have hsame := hs.disjoint.eq_of_contains hg hfin (by rw [heq]; exact hin) hin
        rw [← hgid, (Prod.mk.inj hsame).2, hf]
    rows := hs.rows
    ids := hs.ids
    names := hs.names
    deleted := hs.deleted
    cached := fun e he => hs.cached e (List.mem_filter.mp he).1
    unknown := hs.unknown
    frameIds := hs.frameIds }
  have hpmem := mem_of_live hplive
  obtain ⟨s', hrun, hlength, hs'⟩ := hs₁.emplaceFunction
    (q := ⟨p.id, p.functionName, fromStartAndSize 0 p.range.size, timestamp⟩) hf (hs.ids p hpmem) (hs.names p hpmem)
    (hs.cached _ hfin)
  refine ⟨s', ?_, hlength, hs'⟩
  have hmake : make 0 p.range.size = some (fromStartAndSize 0 p.range.size) := by
    rw [make_eq (Nat.zero_le _), Option.some_inj, ext_iff']
    exact ⟨rfl, (Nat.zero_add _).symm⟩
  rw [JitCache.moveCode, hfind, Option.bind_some]
  dsimp only at hrun ⊢
  rw [hmake, Option.bind_some, hrun, Option.map_some, hf]

/-! ### Interning a frame -/

/-- What an interned frame must be, by the code at its address. -/
def Describes (storage : Storage) (key : FrameKey) (frameId : ℕ) : Option Placement → Prop
  | some p => ∃ frame, storage.frames[frameId]? = some frame ∧ frame.name = p.functionName ∧
      frame.mapping = key.mappingId ∧ frame.relPc = key.relPc.toInt64 ∧
      storage.jitFrames.filter (·.frameId = frameId) = [⟨p.id, frameId⟩]
  | none => Unknown storage key frameId

theorem Holds.describes (hs : Holds s₀ moving s h) (hp : p ∈ h) {key : FrameKey}
    (hknown : Known s.storage key frameId p.id) : Describes s.storage key frameId (some p) := by
  obtain ⟨frame, row, hframe, hrow, hname, hmapping, hpc, hrows⟩ := hknown
  obtain ⟨row', hrow', hname'⟩ := hs.names p hp
  obtain rfl := Option.some.inj (hrow.symm.trans hrow')
  exact ⟨frame, hframe, hname.trans hname', hmapping, hpc, hrows⟩

/-- The code keeps its place when its frames change. -/
theorem Holds.replace (hs : Holds s₀ none s h) {storage : Storage} (hext : Extends s.storage storage)
    (hcode : storage.jitCode = s.storage.jitCode) (hthreads : storage.threads = s.storage.threads)
    (hframeIds : ∀ row ∈ storage.jitFrames, row.frameId < storage.frames.length) {range : AddressRange}
    {f : JittedFunction} (hf : (range, f) ∈ s.functions) (f' : JittedFunction) (hid : f'.jitCodeId = f.jitCodeId)
    (hcached : ∀ key id, f'.internedFrames key = some id → Known storage key id f'.jitCodeId) :
    Holds s₀ none { s with
      storage := storage
      functions := s.functions.map fun e => if e.1 = range then (e.1, f') else e } h := by
  have hrange : ∀ e : AddressRange × JittedFunction, (if e.1 = range then (e.1, f') else e).1 = e.1 := by
    intro e
    split_ifs
    · rfl
    · rfl
  -- the one entry with this range is that of the code
  have hsame : ∀ g, (range, g) ∈ s.functions → g = f := by
    intro g hg
    have hin : range.contains range.start = true := contains_iff.mpr ⟨Nat.le_refl _, hs.disjoint.nonempty _ hf⟩
    exact (Prod.mk.inj (hs.disjoint.eq_of_contains hg hf hin hin)).2
  exact {
    same := ⟨hs.same.1, hs.same.2.1, hthreads.trans hs.same.2.2⟩
    disjoint := by
      refine ⟨List.pairwise_map.mpr (hs.disjoint.apart.imp fun hxy => ?_), fun e he => ?_⟩
      · rw [hrange, hrange]
        exact hxy
      · obtain ⟨e', he', rfl⟩ := List.mem_map.mp he
        rw [hrange]
        exact hs.disjoint.nonempty e' he'
    entries := by
      intro range' id
      rw [← hs.entries range' id]
      constructor
      · rintro ⟨g, hg, rfl⟩
        obtain ⟨⟨r, g'⟩, he, heq⟩ := List.mem_map.mp hg
        split_ifs at heq with hr
        · obtain ⟨rfl, rfl⟩ := Prod.mk.inj heq
          obtain rfl : r = range := hr
          exact ⟨f, hf, hid.symm⟩
        · obtain ⟨rfl, rfl⟩ := Prod.mk.inj heq
          exact ⟨g', he, rfl⟩
      · rintro ⟨g, hg, rfl⟩
        by_cases hr : range' = range
        · subst hr
          rw [hsame g hg]
          exact ⟨f', List.mem_map.mpr ⟨_, hf, if_pos rfl⟩, hid⟩
        · exact ⟨g, List.mem_map.mpr ⟨_, hg, if_neg hr⟩, rfl⟩
    rows := hcode ▸ hs.rows
    ids := hs.ids
    names := hcode ▸ hs.names
    deleted := hcode ▸ hs.deleted
    cached := by
      intro e he key id hkey
      obtain ⟨e', he', rfl⟩ := List.mem_map.mp he
      split_ifs at hkey ⊢ with hr
      · exact hcached key id hkey
      · exact (hs.cached e' he' key id hkey).extends hext
    unknown := fun key id hkey => (hs.unknown key id hkey).extends hext
    frameIds := hframeIds }

/-- No row is about a frame that is yet to come. -/
theorem Holds.filter_fresh (hs : Holds s₀ moving s h) :
    s.storage.jitFrames.filter (·.frameId = s.storage.frames.length) = [] := by
  refine List.filter_eq_nil_iff.mpr fun row hrow => ?_
  rw [decide_eq_true_eq]
  exact Nat.ne_of_lt (hs.frameIds row hrow)

/-- A frame is added, with rows about it. -/
theorem extends_frame (storage : Storage) (frame : FrameRow) (rows : List JitFrameRow)
    (hrows : ∀ row ∈ rows, row.frameId = storage.frames.length) (jitUnknownFrame : ℕ) :
    Extends storage { storage with
      frames := storage.frames ++ [frame]
      jitFrames := storage.jitFrames ++ rows
      jitUnknownFrame := jitUnknownFrame } := by
  refine ⟨fun id old hold => ?_, fun id hid => ?_, fun _ row hrow => ⟨row, hrow, rfl⟩⟩
  · exact (List.getElem?_append_left (List.getElem?_eq_some_iff.mp hold).1).trans hold
  · have hnone : rows.filter (·.frameId = id) = [] := by
      refine List.filter_eq_nil_iff.mpr fun row hrow => ?_
      rw [decide_eq_true_eq, hrows row hrow]
      exact Nat.ne_of_gt hid
    rw [List.filter_append, hnone, List.append_nil]

/-- **`InternFrame`** gives a frame of the code at the address, or one of no code. -/
theorem Holds.internFrame (hs : Holds s₀ none s h) (mapping : Mapping) (relPc : UInt64) (functionName : List UInt8) :
    ∃ s' id isNew, internFrame s mapping relPc functionName = some (s', id, isNew) ∧
      s'.storage.jitCode.length = s.storage.jitCode.length ∧ Holds s₀ none s' h ∧
      Describes s'.storage ⟨mapping.mappingId, relPc⟩ id (codeAt h (mapping.toAddress relPc).toNat) := by
  let key : FrameKey := ⟨mapping.mappingId, relPc⟩
  cases hat : codeAt h (mapping.toAddress relPc).toNat with
  | some p =>
    obtain ⟨f, hfind, hf⟩ := hs.find_of_codeAt hat
    have hp := mem_of_live (List.mem_of_find?_eq_some hat)
    obtain ⟨hfin, _⟩ := (AddressRangeMap.find_eq_some hs.disjoint).mp hfind
    rw [JitCache.internFrame, hfind]
    dsimp only
    cases hkey : f.internedFrames key with
    | some id =>
      have hnext := hs.replace ⟨fun _ _ h => h, fun _ _ => rfl, fun _ row h => ⟨row, h, rfl⟩⟩ rfl rfl hs.frameIds hfin f
        rfl (hs.cached _ hfin)
      refine ⟨_, id, false, ?_, ?_, hnext, ?_⟩
      · rw [JittedFunction.internFrame, hkey]
        rfl
      · rfl
      · exact hnext.describes hp (hf ▸ hs.cached _ hfin key id hkey)
    | none =>
      obtain ⟨row, hrow, _⟩ := hs.names p hp
      rw [← hf] at hrow
      let id := s.storage.frames.length
      let frame : FrameRow := ⟨row.functionName, mapping.mappingId, relPc.toInt64, f.symbolSetId⟩
      let storage : Storage := { s.storage with
        frames := s.storage.frames ++ [frame]
        jitFrames := s.storage.jitFrames ++ [⟨f.jitCodeId, id⟩] }
      have hext : Extends s.storage storage :=
        extends_frame s.storage frame [⟨f.jitCodeId, id⟩] (List.forall_mem_singleton.mpr rfl) s.storage.jitUnknownFrame
      have hknown : Known storage key id f.jitCodeId := by
        refine ⟨frame, row, List.getElem?_concat_length, hrow, rfl, rfl, rfl, ?_⟩
        rw [List.filter_append, hs.filter_fresh, List.nil_append]
        exact List.filter_eq_self.mpr (List.forall_mem_singleton.mpr (decide_eq_true rfl))
      have hframeIds : ∀ old ∈ storage.jitFrames, old.frameId < storage.frames.length := by
        intro old hold
        rw [show storage.frames.length = id + 1 from List.length_append]
        rcases List.mem_append.mp hold with hold | hold
        · exact Nat.lt_succ_of_lt (hs.frameIds old hold)
        · rw [List.mem_singleton.mp hold]
          exact Nat.lt_succ_self id
      have hcached : ∀ key' id', Function.update f.internedFrames key (some id) key' = some id' →
          Known storage key' id' f.jitCodeId := by
        intro key' id' hkey'
        rw [Function.update_apply] at hkey'
        split_ifs at hkey' with heq
        · obtain rfl := Option.some.inj hkey'
          exact heq ▸ hknown
        · exact (hs.cached _ hfin key' id' hkey').extends hext
      have hnext := hs.replace hext rfl rfl hframeIds hfin
        { f with internedFrames := Function.update f.internedFrames key (some id) } rfl hcached
      refine ⟨_, id, true, ?_, ?_, hnext, ?_⟩
      · rw [JittedFunction.internFrame, hkey, hrow]
        rfl
      · rfl
      · exact hnext.describes hp (hf ▸ hknown)
  | none =>
    rw [JitCache.internFrame, hs.find_of_none hat]
    dsimp only
    cases hkey : s.unknownFrames key with
    | some id => exact ⟨s, id, false, rfl, rfl, hs, hs.unknown key id hkey⟩
    | none =>
      let frame : FrameRow := ⟨unknownName functionName relPc, mapping.mappingId, relPc.toInt64, none⟩
      let storage : Storage := { s.storage with
        jitUnknownFrame := s.storage.jitUnknownFrame + 1
        frames := s.storage.frames ++ [frame] }
      have hext : Extends s.storage storage := by
        have happend := extends_frame s.storage frame [] nofun (s.storage.jitUnknownFrame + 1)
        rwa [List.append_nil] at happend
      have hunknown : Unknown storage key s.storage.frames.length :=
        ⟨frame, List.getElem?_concat_length, rfl, rfl, hs.filter_fresh⟩
      refine ⟨_, _, true, rfl, rfl, ?_, hunknown⟩
      exact {
        same := hs.same
        disjoint := hs.disjoint
        entries := hs.entries
        rows := hs.rows
        ids := hs.ids
        names := hs.names
        deleted := hs.deleted
        cached := fun e he key id hkey => (hs.cached e he key id hkey).extends hext
        unknown := by
          intro key' id' hkey'
          dsimp only at hkey'
          rw [Function.update_apply] at hkey'
          split_ifs at hkey' with heq
          · obtain rfl := Option.some.inj hkey'
            rw [heq]
            exact hunknown
          · exact (hs.unknown key' id' hkey').extends hext
        frameIds := by
          intro row hrow
          rw [List.length_append]
          exact Nat.lt_succ_of_lt (hs.frameIds row hrow) }

end

/-! ### Runs -/

/-- The calls on the cache. -/
inductive Op
  | load (timestamp : ℤ) (utid : ℕ) (codeRange : AddressRange) (functionName : List UInt8)
    (sourceLocation : Option SourceLocation) (nativeCode : List UInt8)
  | move (timestamp : ℤ) (fromCodeStart toCodeStart : ℕ)
  | intern (mapping : Mapping) (relPc : UInt64) (functionName : List UInt8)
  deriving DecidableEq

def step (s : State) : Op → Option State
  | .load timestamp utid codeRange functionName sourceLocation nativeCode =>
    (loadCode s timestamp utid codeRange functionName sourceLocation nativeCode).map Prod.fst
  | .move timestamp fromCodeStart toCodeStart => (moveCode s timestamp fromCodeStart toCodeStart).map Prod.fst
  | .intern mapping relPc functionName => (internFrame s mapping relPc functionName).map Prod.fst

def run (s : State) : List Op → Option State
  | [] => some s
  | op :: ops => (step s op).bind fun s => run s ops

/-- The history after a call, with the id of the next code: code moves with its whole range. -/
def record (nextId : ℕ) (h : List Placement) : Op → ℕ × List Placement
  | .load timestamp _ codeRange functionName _ _ => (nextId + 1, ⟨nextId, functionName, codeRange, timestamp⟩ :: h)
  | .move timestamp fromCodeStart toCodeStart =>
    match codeAt h fromCodeStart with
    | some p => (nextId, ⟨p.id, p.functionName, fromStartAndSize toCodeStart p.range.size, timestamp⟩ :: h)
    | none => (nextId, h)
  | .intern _ _ _ => (nextId, h)

def history (nextId : ℕ) (h : List Placement) : List Op → List Placement
  | [] => h
  | op :: ops => history (record nextId h op).1 (record nextId h op).2 ops

/-- Code is loaded into the cache by a thread of its process; what is moved is code that is there, to address 0. -/
def Meets (s₀ : State) (h : List Placement) : Op → Prop
  | .load _ utid codeRange _ _ nativeCode =>
    s₀.range.containsRange codeRange = true ∧ s₀.storage.threads[utid]? = some (some s₀.upid) ∧
      (nativeCode.length = 0 ∨ nativeCode.length = codeRange.size)
  | .move _ fromCodeStart toCodeStart => codeAt h fromCodeStart ≠ none ∧ toCodeStart = 0
  | .intern _ _ _ => True

def AllMeet (s₀ : State) (nextId : ℕ) (h : List Placement) : List Op → Prop
  | [] => True
  | op :: ops => Meets s₀ h op ∧ AllMeet s₀ (record nextId h op).1 (record nextId h op).2 ops

/-- A cache into which nothing has been loaded. -/
structure Fresh (s : State) : Prop where
  functions : s.functions = []
  unknownFrames : s.unknownFrames = fun _ => none
  frameIds : ∀ row ∈ s.storage.jitFrames, row.frameId < s.storage.frames.length

theorem Fresh.holds {s₀ : State} (h₀ : Fresh s₀) : Holds s₀ none s₀ [] where
  same := ⟨rfl, rfl, rfl⟩
  disjoint := h₀.functions ▸ ⟨.nil, nofun⟩
  entries := by
    intro range id
    rw [h₀.functions]
    exact ⟨nofun, nofun⟩
  rows := Nat.le_refl _
  ids := nofun
  names := nofun
  deleted := fun id row hge hrow => absurd (List.getElem?_eq_some_iff.mp hrow).1 (Nat.not_lt.mpr hge)
  cached := h₀.functions ▸ nofun
  unknown := h₀.unknownFrames ▸ nofun
  frameIds := h₀.frameIds

/-- A call that meets the condition. -/
theorem Holds.step {s₀ s : State} {h : List Placement} (hs : Holds s₀ none s h) {op : Op} (hop : Meets s₀ h op) :
    ∃ s', step s op = some s' ∧ s'.storage.jitCode.length = (record s.storage.jitCode.length h op).1 ∧
      Holds s₀ none s' (record s.storage.jitCode.length h op).2 := by
  cases op with
  | load timestamp utid codeRange functionName sourceLocation nativeCode =>
    obtain ⟨hrange, hthread, hnative⟩ := hop
    obtain ⟨s', hrun, hlength, hs'⟩ := hs.loadCode timestamp functionName sourceLocation hrange hthread hnative
    exact ⟨s', by rw [JitCache.step, hrun]; rfl, hlength, hs'⟩
  | move timestamp fromCodeStart toCodeStart =>
    obtain ⟨hat, rfl⟩ := hop
    obtain ⟨p, hp⟩ := Option.ne_none_iff_exists'.mp hat
    obtain ⟨s', hrun, hlength, hs'⟩ := hs.moveCode timestamp hp
    rw [record, hp]
    exact ⟨s', by rw [JitCache.step, hrun]; rfl, hlength, hs'⟩
  | intern mapping relPc functionName =>
    obtain ⟨s', id, isNew, hrun, hlength, hs', _⟩ := hs.internFrame mapping relPc functionName
    exact ⟨s', by rw [JitCache.step, hrun]; rfl, hlength, hs'⟩

theorem Holds.run {s₀ : State} (ops : List Op) : ∀ {s : State} {h : List Placement}, Holds s₀ none s h →
    AllMeet s₀ s.storage.jitCode.length h ops →
    ∃ s', run s ops = some s' ∧ Holds s₀ none s' (history s.storage.jitCode.length h ops) := by
  induction ops with
  | nil => exact fun hs _ => ⟨_, rfl, hs⟩
  | cons op ops ih =>
    intro s h hs hops
    obtain ⟨s', hstep, hlength, hs'⟩ := hs.step hops.1
    obtain ⟨s'', hrun, hs''⟩ := ih hs' (hlength ▸ hops.2)
    rw [hlength] at hs''
    exact ⟨s'', by rw [JitCache.run, hstep]; exact hrun, hs''⟩

/-- A cache for the addresses below `2 ^ 20` of process 7, whose thread is 0. -/
def sample : State := ⟨⟨[], [], [], [], [some 7], 0⟩, 7, ⟨0, 2 ^ 20, by decide⟩, [], fun _ => none⟩

/-- A frame is interned in code that other code is then moved over, to address 0. -/
def movedToZero : List Op :=
  [.load 1 0 ⟨100, 300, by decide⟩ [65] none [], .load 2 0 ⟨0, 10, by decide⟩ [66] none [], .intern ⟨0, 0, 0, 0⟩ 5 [67],
    .move 3 150 0]

end JitCache

end LynxTrace.TraceProcessor
