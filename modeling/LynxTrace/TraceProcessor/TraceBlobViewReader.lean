import LynxTrace.Base.Overwrite
import Mathlib.Tactic

/-!
# TraceProcessor.TraceBlobViewReader — `TraceBlobViewReader` (src/trace_processor/util/trace_blob_view_reader.{h,cc})

A queue of blob views with their offsets in the file.  A view is the list of its bytes; offsets are naturals, all of
them at most the number of bytes pushed.
-/

namespace LynxTrace.TraceProcessor

/-- `TraceBlobView::slice_off`; `none` where the slice is not inside the view (a DCHECK). -/
def viewSliceOff (view : List UInt8) (off length : ℕ) : Option (List UInt8) :=
  if off + length ≤ view.length then some (slice view off length) else none

structure Entry where
  /-- File offset of the first byte in `data`. -/
  startOffset : ℕ
  data : List UInt8
  deriving DecidableEq, Repr

def Entry.endOffset (e : Entry) : ℕ := e.startOffset + e.data.length

structure TraceBlobViewReader where
  data : List Entry := []
  endOffset : ℕ := 0
  deriving DecidableEq, Repr

namespace TraceBlobViewReader

def startOffset (r : TraceBlobViewReader) : ℕ :=
  match r.data with
  | [] => r.endOffset
  | e :: _ => e.startOffset

def avail (r : TraceBlobViewReader) : ℕ := r.endOffset - r.startOffset

def pushBack (r : TraceBlobViewReader) (view : List UInt8) : TraceBlobViewReader :=
  if view.length = 0 then r
  else { data := r.data ++ [⟨r.endOffset, view⟩], endOffset := r.endOffset + view.length }

/-- The loop of `PopFrontUntil`. -/
def popFrontLoop (targetOffset endOffset : ℕ) : List Entry → Bool × List Entry
  | [] => (targetOffset = endOffset, [])
  | e :: es =>
    if targetOffset = e.startOffset then (true, e :: es)
    else
      let bytesToPop := targetOffset - e.startOffset
      if e.data.length > bytesToPop then (true, ⟨e.startOffset + bytesToPop, e.data.drop bytesToPop⟩ :: es)
      else popFrontLoop targetOffset endOffset es

/-- `PopFrontUntil`; `none` is its failing CHECK. -/
def popFrontUntil (r : TraceBlobViewReader) (targetOffset : ℕ) : Option (Bool × TraceBlobViewReader) :=
  if r.startOffset ≤ targetOffset then
    let p := popFrontLoop targetOffset r.endOffset r.data
    some (p.1, { r with data := p.2 })
  else none

/-- `PopFrontBytes`. -/
def popFrontBytes (r : TraceBlobViewReader) (bytes : ℕ) : Option (Bool × TraceBlobViewReader) :=
  r.popFrontUntil (r.startOffset + bytes)

/-- The rest of a slice that spans views; `none` where the views end before it. -/
def stitch : List Entry → ℕ → Option (List UInt8)
  | _, 0 => some []
  | [], _ + 1 => none
  | e :: es, left =>
    let size := min left e.data.length
    (viewSliceOff e.data 0 size).bind fun first => (stitch es (left - size)).map (first ++ ·)

/-- `SliceOff`: `some none` is no data, `none` a failing CHECK or a slice that is not inside its view. -/
def sliceOff (r : TraceBlobViewReader) (offset length : ℕ) : Option (Option (List UInt8)) :=
  if length = 0 then some (some [])
  else
    match r.data with
    | [] => some none
    | front :: _ =>
      -- The slice fits entirely inside the first view.
      if offset + length ≤ front.endOffset then (viewSliceOff front.data (offset - front.startOffset) length).map some
      else if offset + length > r.endOffset then some none
      else
        match r.data.dropWhile fun e => ¬ offset < e.endOffset with
        | [] => none
        | it :: rest =>
          let relOff := offset - it.startOffset
          if relOff + length ≤ it.data.length then (viewSliceOff it.data relOff length).map some
          else
            let size := it.data.length - relOff
            (viewSliceOff it.data relOff size).bind fun first =>
              (stitch rest (length - size)).map fun tail => some (first ++ tail)

/-! ### The buffered bytes -/

/-- The bytes of some views. -/
def bytesOf (es : List Entry) : List UInt8 := es.flatMap (·.data)

/-- The buffered bytes. -/
def bytes (r : TraceBlobViewReader) : List UInt8 := bytesOf r.data

/-- Views that follow each other from one offset to another, none of them empty. -/
def Contiguous : ℕ → List Entry → ℕ → Prop
  | a, [], b => a = b
  | a, e :: es, b => e.startOffset = a ∧ e.data ≠ [] ∧ Contiguous e.endOffset es b

variable {a b n : ℕ} {es : List Entry}

theorem Contiguous.length (h : Contiguous a es b) : b = a + (bytesOf es).length := by
  induction es generalizing a with
  | nil => exact h.symm
  | cons e es ih =>
    obtain ⟨rfl, -, h⟩ := h
    rw [ih h]
    simp only [bytesOf, List.flatMap_cons, List.length_append, Entry.endOffset, Nat.add_assoc]

theorem Contiguous.append {c : ℕ} {fs : List Entry} (h : Contiguous a es b) (h' : Contiguous b fs c) :
    Contiguous a (es ++ fs) c := by
  induction es generalizing a with
  | nil =>
    obtain rfl : a = b := h
    exact h'
  | cons e es ih =>
    obtain ⟨hstart, hne, h⟩ := h
    exact ⟨hstart, hne, ih h⟩

/-- A reader whose views follow each other. -/
def WellFormed (r : TraceBlobViewReader) : Prop := Contiguous r.startOffset r.data r.endOffset

theorem wellFormed_init : WellFormed {} := rfl

variable {r : TraceBlobViewReader}

theorem WellFormed.avail_eq (h : r.WellFormed) : r.avail = r.bytes.length := by
  have hlen := Contiguous.length h
  unfold avail bytes
  omega

theorem WellFormed.pushBack (h : r.WellFormed) (view : List UInt8) :
    (r.pushBack view).WellFormed ∧ (r.pushBack view).bytes = r.bytes ++ view := by
  unfold TraceBlobViewReader.pushBack
  split_ifs with hempty
  · refine ⟨h, ?_⟩
    rw [List.eq_nil_of_length_eq_zero hempty, List.append_nil]
  · have hne : view ≠ [] := fun hnil => hempty (by rw [hnil]; rfl)
    have hnew : Contiguous r.endOffset [⟨r.endOffset, view⟩] (r.endOffset + view.length) := ⟨rfl, hne, rfl⟩
    refine ⟨?_, ?_⟩
    · have hstart : startOffset { data := r.data ++ [⟨r.endOffset, view⟩], endOffset := r.endOffset + view.length } =
          r.startOffset := by
        unfold startOffset
        cases r.data <;> rfl
      unfold WellFormed
      rw [hstart]
      exact Contiguous.append h hnew
    · show bytesOf (r.data ++ [⟨r.endOffset, view⟩]) = bytesOf r.data ++ view
      simp [bytesOf]

theorem bytesOf_cons (e : Entry) (es : List Entry) : bytesOf (e :: es) = e.data ++ bytesOf es := rfl

/-- The offset of the first view, or the end where there is none. -/
def headOffset (es : List Entry) (b : ℕ) : ℕ :=
  match es with
  | [] => b
  | e :: _ => e.startOffset

theorem Contiguous.headOffset (h : Contiguous a es b) : TraceBlobViewReader.headOffset es b = a := by
  cases es with
  | nil => exact Eq.symm h
  | cons e es => exact h.1

/-- Where the loop of `PopFrontUntil` stops. -/
theorem Contiguous.popFrontLoop (h : Contiguous a es b) (hn : n ≤ (bytesOf es).length) :
    (TraceBlobViewReader.popFrontLoop (a + n) b es).1 = true ∧
      bytesOf (TraceBlobViewReader.popFrontLoop (a + n) b es).2 = (bytesOf es).drop n ∧
      Contiguous (a + n) (TraceBlobViewReader.popFrontLoop (a + n) b es).2 b := by
  induction es generalizing a n with
  | nil =>
    obtain rfl : a = b := h
    obtain rfl : n = 0 := Nat.le_zero.mp hn
    exact ⟨by simp [TraceBlobViewReader.popFrontLoop], rfl, rfl⟩
  | cons e es ih =>
    obtain ⟨rfl, hne, h⟩ := h
    rw [bytesOf_cons, List.length_append] at hn
    unfold TraceBlobViewReader.popFrontLoop
    by_cases h0 : n = 0
    · subst h0
      rw [if_pos (Nat.add_zero _)]
      exact ⟨rfl, rfl, rfl, hne, h⟩
    · rw [if_neg (by omega), Nat.add_sub_cancel_left]
      by_cases hlt : e.data.length > n
      · rw [if_pos hlt]
        refine ⟨rfl, ?_, rfl, ?_, ?_⟩
        · rw [bytesOf_cons, bytesOf_cons, List.drop_append_of_le_length (Nat.le_of_lt hlt)]
        · intro hnil
          have hlen := congrArg List.length hnil
          rw [List.length_drop, List.length_nil] at hlen
          omega
        · have hend : Entry.endOffset ⟨e.startOffset + n, e.data.drop n⟩ = e.endOffset := by
            show e.startOffset + n + (e.data.drop n).length = e.startOffset + e.data.length
            rw [List.length_drop]
            omega
          rw [hend]
          exact h
      · rw [if_neg hlt]
        have hsplit : e.startOffset + n = e.endOffset + (n - e.data.length) := by
          unfold Entry.endOffset
          omega
        obtain ⟨htrue, hbytes, hcont⟩ := ih h (n := n - e.data.length) (by omega)
        rw [hsplit]
        refine ⟨htrue, ?_, hcont⟩
        have hnil : e.data.drop n = [] := List.drop_eq_nil_of_le (by omega)
        rw [hbytes, bytesOf_cons, List.drop_append, hnil, List.nil_append]

/-- Popping bytes that are there. -/
theorem WellFormed.popFrontBytes (h : r.WellFormed) (hn : n ≤ r.bytes.length) :
    ∃ r', r.popFrontBytes n = some (true, r') ∧ r'.WellFormed ∧ r'.bytes = r.bytes.drop n := by
  obtain ⟨htrue, hbytes, hcont⟩ := Contiguous.popFrontLoop h hn
  refine ⟨{ r with data := (popFrontLoop (r.startOffset + n) r.endOffset r.data).2 }, ?_, ?_, hbytes⟩
  · unfold TraceBlobViewReader.popFrontBytes popFrontUntil
    rw [if_pos (Nat.le_add_right _ _)]
    dsimp only
    rw [htrue]
  · have hstart := hcont.headOffset
    unfold WellFormed
    show Contiguous (headOffset (popFrontLoop (r.startOffset + n) r.endOffset r.data).2 r.endOffset) _ _
    rw [hstart]
    exact hcont

/-! ### Slices -/

theorem viewSliceOff_eq {view : List UInt8} {off length : ℕ} (h : off + length ≤ view.length) :
    viewSliceOff view off length = some (slice view off length) := if_pos h

theorem slice_append_left {xs ys : List UInt8} {i : ℕ} (h : i + n ≤ xs.length) :
    slice (xs ++ ys) i n = slice xs i n := by
  unfold slice
  rw [List.drop_append_of_le_length (by omega), List.take_append_of_le_length (by rw [List.length_drop]; omega)]

theorem slice_append_right (xs ys : List UInt8) (i n : ℕ) : slice (xs ++ ys) (xs.length + i) n = slice ys i n := by
  unfold slice
  rw [List.drop_append, List.drop_eq_nil_of_le (by omega), List.nil_append]
  congr 2
  omega

/-- Views hold the bytes a slice still needs. -/
theorem stitch_eq {left : ℕ} (h : left ≤ (bytesOf es).length) : stitch es left = some ((bytesOf es).take left) := by
  induction es generalizing left with
  | nil =>
    obtain rfl : left = 0 := Nat.le_zero.mp h
    rfl
  | cons e es ih =>
    rw [bytesOf_cons, List.length_append] at h
    cases left with
    | zero => rfl
    | succ left =>
      have hsize : 0 + min (left + 1) e.data.length ≤ e.data.length := by omega
      unfold stitch
      dsimp only
      rw [viewSliceOff_eq hsize, Option.bind_some, ih (by omega), Option.map_some, bytesOf_cons, List.take_append]
      have hfirst : slice e.data 0 (min (left + 1) e.data.length) = e.data.take (left + 1) := by
        unfold slice
        rw [List.drop_zero]
        rcases Nat.le_total (left + 1) e.data.length with hle | hle
        · rw [Nat.min_eq_left hle]
        · rw [Nat.min_eq_right hle, List.take_of_length_le (le_refl _), List.take_of_length_le hle]
      have hleft : left + 1 - min (left + 1) e.data.length = left + 1 - e.data.length := by omega
      rw [hfirst, hleft]

/-- The slice from the first view that ends after its offset. -/
def sliceFrom (offset length : ℕ) (es : List Entry) : Option (Option (List UInt8)) :=
  match es.dropWhile fun e => ¬ offset < e.endOffset with
  | [] => none
  | it :: rest =>
    let relOff := offset - it.startOffset
    if relOff + length ≤ it.data.length then (viewSliceOff it.data relOff length).map some
    else
      let size := it.data.length - relOff
      (viewSliceOff it.data relOff size).bind fun first => (stitch rest (length - size)).map fun tail => some (first ++ tail)

theorem Contiguous.sliceFrom {k : ℕ} (h : Contiguous a es b) (hn : n ≠ 0) (hk : k + n ≤ (bytesOf es).length) :
    TraceBlobViewReader.sliceFrom (a + k) n es = some (some (slice (bytesOf es) k n)) := by
  induction es generalizing a k with
  | nil =>
    have hzero : k + n ≤ 0 := hk
    omega
  | cons e es ih =>
    obtain ⟨rfl, -, h⟩ := h
    rw [bytesOf_cons, List.length_append] at hk
    unfold TraceBlobViewReader.sliceFrom
    by_cases hin : e.startOffset + k < e.endOffset
    · have hlt : k < e.data.length := by
        unfold Entry.endOffset at hin
        omega
      rw [List.dropWhile_cons_of_neg (by simp [hin])]
      dsimp only
      rw [Nat.add_sub_cancel_left, bytesOf_cons]
      split_ifs with hfit
      · rw [viewSliceOff_eq hfit, Option.map_some, slice_append_left hfit]
      · rw [viewSliceOff_eq (by omega), Option.bind_some, stitch_eq (by omega), Option.map_some]
        have hfirst : slice e.data k (e.data.length - k) = e.data.drop k := by
          unfold slice
          rw [List.take_of_length_le (by rw [List.length_drop])]
        have hrest : (e.data.drop k).take n = e.data.drop k := List.take_of_length_le (by rw [List.length_drop]; omega)
        rw [hfirst]
        unfold slice
        rw [List.drop_append_of_le_length (Nat.le_of_lt hlt), List.take_append, List.length_drop, hrest]
    · have hge : e.data.length ≤ k := by
        unfold Entry.endOffset at hin
        omega
      rw [List.dropWhile_cons_of_pos (by simpa using hin)]
      have hstep := ih h (k := k - e.data.length) (by omega)
      have hoff : e.endOffset + (k - e.data.length) = e.startOffset + k := by
        unfold Entry.endOffset
        omega
      rw [hoff] at hstep
      refine hstep.trans ?_
      rw [bytesOf_cons]
      have hright := slice_append_right e.data (bytesOf es) (k - e.data.length) n
      rw [Nat.add_sub_cancel' hge] at hright
      rw [hright]

/-- A slice of bytes that are there is the slice of the buffered bytes, inside every view it is cut from. -/
theorem WellFormed.sliceOff (h : r.WellFormed) {k : ℕ} (hk : k + n ≤ r.bytes.length) :
    r.sliceOff (r.startOffset + k) n = some (some (slice r.bytes k n)) := by
  unfold TraceBlobViewReader.sliceOff
  by_cases hn : n = 0
  · subst hn
    rw [if_pos rfl]
    unfold slice
    rw [List.take_zero]
  · rw [if_neg hn]
    have hlen := Contiguous.length h
    unfold bytes at hk
    rcases hdata : r.data with _ | ⟨front, es⟩
    · rw [hdata] at hk
      have hzero : k + n ≤ 0 := hk
      omega
    · have hfrom := Contiguous.sliceFrom h hn hk
      have hstart : r.startOffset = front.startOffset := by
        unfold startOffset
        rw [hdata]
      dsimp only
      split_ifs with hfast hend
      · unfold Entry.endOffset at hfast
        rw [hstart, Nat.add_sub_cancel_left, viewSliceOff_eq (by omega), Option.map_some]
        unfold bytes
        rw [hdata, bytesOf_cons, slice_append_left (by omega)]
      · omega
      · rw [← hdata]
        exact hfrom

/-- There is no slice of bytes that are not there. -/
theorem WellFormed.sliceOff_none (h : r.WellFormed) (hn : r.bytes.length < n) :
    r.sliceOff r.startOffset n = some none := by
  unfold TraceBlobViewReader.sliceOff
  rw [if_neg (by omega)]
  have hlen := Contiguous.length h
  unfold bytes at hn
  rcases hdata : r.data with _ | ⟨front, es⟩
  · rfl
  · have hstart : r.startOffset = front.startOffset := by
      unfold startOffset
      rw [hdata]
    rw [hdata, bytesOf_cons, List.length_append] at hn hlen
    dsimp only
    rw [if_neg, if_pos]
    · omega
    · unfold Entry.endOffset
      omega

end TraceBlobViewReader

end LynxTrace.TraceProcessor
