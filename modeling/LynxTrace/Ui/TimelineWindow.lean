import LynxTrace.Ui.HighPrecisionTime

/-!
# Ui.TimelineWindow — the visible window of `TimelineImpl` (ui/src/core/timeline.ts)

The calls that change the visible window without animation.  A call that throws leaves the window as it is.
-/

namespace LynxTrace.Ui

open HighPrecisionTime HighPrecisionTimeSpan

structure TraceInfo where
  start : ℤ
  stop : ℤ
  deriving DecidableEq, Repr

structure TimelineImpl where
  traceInfo : TraceInfo
  visibleWindow : HighPrecisionTimeSpan

/-- `MIN_DURATION` -/
def minDuration : ℚ := 10

/-- `align` of `panIntoView` and `panSpanIntoView`. -/
inductive Align
  | nearest
  | center
  | zoom
  deriving DecidableEq, Repr

namespace TimelineImpl

def init (traceInfo : TraceInfo) : TimelineImpl := ⟨traceInfo, .fromTime traceInfo.start traceInfo.stop⟩

def setVisibleWindow (t : TimelineImpl) (ts : HighPrecisionTimeSpan) : TimelineImpl :=
  { t with visibleWindow := (ts.clampDuration minDuration).fitWithin t.traceInfo.start t.traceInfo.stop }

/-- The window that `pan` sets. -/
def panWindow (t : TimelineImpl) (delta : ℚ) : HighPrecisionTimeSpan :=
  (t.visibleWindow.translate delta).fitWithin t.traceInfo.start t.traceInfo.stop

/-- The window that `zoom` sets. -/
def zoomWindow (t : TimelineImpl) (ratio : ℚ) (centerPoint : ℚ := 1 / 2) : HighPrecisionTimeSpan :=
  (t.visibleWindow.scale ratio centerPoint minDuration).fitWithin t.traceInfo.start t.traceInfo.stop

/-- The window that `panIntoView` sets; `none` where the time is in view already. -/
def panIntoViewWindow (t : TimelineImpl) (timePoint : ℤ) (align : Align := .nearest) (margin : ℚ := 1 / 10)
    (zoomWidth : Option ℚ := none) : Option HighPrecisionTimeSpan :=
  let viewportDuration := t.visibleWindow.duration
  let marginNanos := viewportDuration * margin
  let viewWithMargin := t.visibleWindow.pad (-marginNanos)
  if align = .nearest ∧ viewWithMargin.contains timePoint then none
  else
    match align with
    | .center => some ⟨(HighPrecisionTime.new timePoint).subNumber (viewportDuration / 2), viewportDuration⟩
    | .nearest =>
      if timePoint < t.visibleWindow.start.integral then
        some ⟨(HighPrecisionTime.new timePoint).subNumber marginNanos, viewportDuration⟩
      else some ⟨(HighPrecisionTime.new timePoint).subNumber (viewportDuration - marginNanos), viewportDuration⟩
    | .zoom =>
      let newDuration := (zoomWidth.map (max minDuration)).getD viewportDuration
      some ⟨(HighPrecisionTime.new timePoint).subNumber (newDuration / 2), newDuration⟩

def panSpanIntoViewNearest (t : TimelineImpl) (start stop : ℤ) (marginNanos : ℚ) : HighPrecisionTime :=
  let viewWithMargin := t.visibleWindow.pad (-marginNanos)
  let duration := t.visibleWindow.duration
  let spanDuration : ℚ := ((stop - start : ℤ) : ℚ)
  if viewWithMargin.containsSpan start stop then t.visibleWindow.start
  else if viewWithMargin.containedBy start stop then t.visibleWindow.start
  else if spanDuration < viewWithMargin.duration then
    if viewWithMargin.start.gte start then (HighPrecisionTime.new start).subNumber marginNanos
    else (HighPrecisionTime.new stop).subNumber (duration - marginNanos)
  else
    let distToAlignStart := |(viewWithMargin.start.subTime start).value|
    let distToAlignEnd := |(viewWithMargin.stop.subTime stop).value|
    if distToAlignEnd < distToAlignStart then (HighPrecisionTime.new stop).subNumber (duration - marginNanos)
    else (HighPrecisionTime.new start).subNumber marginNanos

/-- The duration that `panSpanIntoView` zooms to.  With a margin of one half the factor is infinite: the duration is
then infinite or not a number, which no time can be made of, unless the span is negative. -/
def zoomDuration (spanDuration margin : ℚ) : Option ℚ :=
  if 1 - margin * 2 = 0 then if spanDuration < 0 then some minDuration else none
  else some (max minDuration (spanDuration * (1 / (1 - margin * 2))))

/-- The window that `panSpanIntoView` sets; `none` where it throws. -/
def panSpanIntoViewWindow (t : TimelineImpl) (start stop : ℤ) (align : Align := .nearest) (margin : ℚ := 1 / 10) :
    Option HighPrecisionTimeSpan :=
  let duration := t.visibleWindow.duration
  let marginNanos := duration * margin
  let spanDuration : ℚ := ((stop - start : ℤ) : ℚ)
  let spanMidpoint := (HighPrecisionTime.new start).addNumber (spanDuration / 2)
  match align with
  | .center => some ⟨spanMidpoint.subNumber (duration / 2), duration⟩
  | .nearest => some ⟨t.panSpanIntoViewNearest start stop marginNanos, duration⟩
  | .zoom => (zoomDuration spanDuration margin).map fun newDuration =>
      ⟨spanMidpoint.subNumber (newDuration / 2), newDuration⟩

def moveStart (t : TimelineImpl) (start : HighPrecisionTime) : TimelineImpl :=
  let newDur := (t.visibleWindow.stop.sub start).value
  { t with visibleWindow := ⟨start, newDur⟩ }

def moveEnd (t : TimelineImpl) (stop : HighPrecisionTime) : TimelineImpl :=
  let startTime := t.visibleWindow.start
  let newDuration := (stop.sub startTime).value
  { t with visibleWindow := ⟨startTime, newDuration⟩ }

/-- A call; `panIntoView` and `panSpanIntoView` with the animation `step`. -/
inductive Call
  | pan (delta : ℚ)
  | zoom (ratio centerPoint : ℚ)
  | panIntoView (timePoint : ℤ) (align : Align) (margin : ℚ) (zoomWidth : Option ℚ)
  | panSpanIntoView (start stop : ℤ) (align : Align) (margin : ℚ)
  | setVisibleWindow (ts : HighPrecisionTimeSpan)
  | moveStart (start : HighPrecisionTime)
  | moveEnd (stop : HighPrecisionTime)

/-- The window that a call other than `moveStart` and `moveEnd` gives to `setVisibleWindow`. -/
def window (t : TimelineImpl) : Call → Option HighPrecisionTimeSpan
  | .pan delta => some (t.panWindow delta)
  | .zoom ratio centerPoint => some (t.zoomWindow ratio centerPoint)
  | .panIntoView timePoint align margin zoomWidth => t.panIntoViewWindow timePoint align margin zoomWidth
  | .panSpanIntoView start stop align margin => t.panSpanIntoViewWindow start stop align margin
  | .setVisibleWindow ts => some ts
  | .moveStart _ => none
  | .moveEnd _ => none

def step (t : TimelineImpl) : Call → TimelineImpl
  | .moveStart start => t.moveStart start
  | .moveEnd stop => t.moveEnd stop
  | call =>
    match t.window call with
    | none => t
    | some ts => t.setVisibleWindow ts

/-- The state after some calls. -/
def run (t : TimelineImpl) (calls : List Call) : TimelineImpl := calls.foldl step t

/-! ### The window stays in the trace -/

/-- The shortest window of the trace. -/
def shortest (info : TraceInfo) : ℚ := min minDuration ((info.stop - info.start : ℤ) : ℚ)

/-- The visible window lies within the trace and is long enough. -/
structure WindowInTrace (t : TimelineImpl) : Prop where
  inside : t.visibleWindow.Inside t.traceInfo.start t.traceInfo.stop
  nonneg : 0 ≤ t.visibleWindow.duration
  long : shortest t.traceInfo ≤ t.visibleWindow.duration

/-- A call that keeps the window in the trace: `moveStart` and `moveEnd` are given times that leave a window there, and no
other call asks for a window whose end is after the trace by no more than the tolerance of the comparison. -/
def Call.Keeps (t : TimelineImpl) : Call → Prop
  | .moveStart start =>
    t.traceInfo.start ≤ start.value ∧ start.value + shortest t.traceInfo ≤ t.visibleWindow.stop.value
  | .moveEnd stop =>
    stop.value ≤ t.traceInfo.stop ∧ t.visibleWindow.start.value + shortest t.traceInfo ≤ stop.value
  | call => ∀ ts ∈ t.window call, ¬(ts.clampDuration minDuration).Grazes t.traceInfo.start t.traceInfo.stop

theorem shortest_nonneg {info : TraceInfo} (h : info.start ≤ info.stop) : 0 ≤ shortest info := by
  refine le_min (by norm_num [minDuration]) ?_
  exact_mod_cast sub_nonneg.mpr h

theorem windowInTrace_init {info : TraceInfo} (h : info.start ≤ info.stop) : (init info).WindowInTrace := by
  have hdur : (0 : ℚ) ≤ ((info.stop - info.start : ℤ) : ℚ) := by exact_mod_cast sub_nonneg.mpr h
  refine ⟨?_, hdur, min_le_right _ _⟩
  unfold Inside init fromTime
  rw [value_stop, value_new]
  push_cast
  constructor <;> linarith

theorem setVisibleWindow_inTrace_iff {t : TimelineImpl} (h : t.traceInfo.start ≤ t.traceInfo.stop)
    (ts : HighPrecisionTimeSpan) :
    (t.setVisibleWindow ts).WindowInTrace ↔
      ¬(ts.clampDuration minDuration).Grazes t.traceInfo.start t.traceInfo.stop := by
  rw [← fitWithin_inside_iff]
  have hdur : (t.setVisibleWindow ts).visibleWindow.duration =
      min (max ts.duration minDuration) ((t.traceInfo.stop - t.traceInfo.start : ℤ) : ℚ) := by
    unfold setVisibleWindow
    rw [duration_fitWithin, duration_clampDuration]
  have hlong : shortest t.traceInfo ≤ (t.setVisibleWindow ts).visibleWindow.duration := by
    rw [hdur]
    exact min_le_min_right _ (le_max_right _ _)
  exact ⟨fun h' => h'.inside, fun hin => ⟨hin, (shortest_nonneg h).trans hlong, hlong⟩⟩

/-- Which calls keep the window in the trace. -/
theorem step_inTrace_iff {t : TimelineImpl} (h : t.traceInfo.start ≤ t.traceInfo.stop) (ht : t.WindowInTrace)
    (call : Call) : (t.step call).WindowInTrace ↔ call.Keeps t := by
  have hset : ∀ found : Option HighPrecisionTimeSpan,
      (match found with
        | none => t
        | some ts => t.setVisibleWindow ts).WindowInTrace ↔
        ∀ ts ∈ found, ¬(ts.clampDuration minDuration).Grazes t.traceInfo.start t.traceInfo.stop := by
    rintro (_ | ts)
    · exact iff_of_true ht (by rintro _ ⟨⟩)
    · exact (setVisibleWindow_inTrace_iff h ts).trans ⟨by rintro h' _ ⟨⟩; exact h', fun h' => h' ts rfl⟩
  have hshort := shortest_nonneg h
  obtain ⟨⟨hstart, hstop⟩, -, -⟩ := ht
  rw [value_stop] at hstop
  cases call with
  | moveStart start =>
    constructor
    · rintro ⟨⟨hin, -⟩, -, hlong⟩
      unfold step moveStart at hin hlong
      dsimp only at hin hlong
      rw [value_sub] at hlong
      exact ⟨hin, by linarith⟩
    · rintro ⟨hin, hlong⟩
      unfold step moveStart
      refine ⟨⟨hin, ?_⟩, ?_, ?_⟩ <;> dsimp only
      · rw [value_stop, value_sub, value_stop]
        linarith
      · rw [value_sub]
        linarith
      · rw [value_sub]
        linarith
  | moveEnd stop =>
    constructor
    · rintro ⟨⟨-, hin⟩, -, hlong⟩
      unfold step moveEnd at hin hlong
      dsimp only at hin hlong
      rw [value_stop, value_sub] at hin
      rw [value_sub] at hlong
      exact ⟨by linarith, by linarith⟩
    · rintro ⟨hin, hlong⟩
      unfold step moveEnd
      refine ⟨⟨hstart, ?_⟩, ?_, ?_⟩ <;> dsimp only
      · rw [value_stop, value_sub]
        linarith
      · rw [value_sub]
        linarith
      · rw [value_sub]
        linarith
  | pan delta => exact hset (some (t.panWindow delta))
  | zoom ratio centerPoint => exact hset (some (t.zoomWindow ratio centerPoint))
  | panIntoView timePoint align margin zoomWidth => exact hset (t.panIntoViewWindow timePoint align margin zoomWidth)
  | panSpanIntoView start stop align margin => exact hset (t.panSpanIntoViewWindow start stop align margin)
  | setVisibleWindow ts => exact hset (some ts)

@[simp] theorem traceInfo_step (t : TimelineImpl) (call : Call) : (t.step call).traceInfo = t.traceInfo := by
  cases call <;> simp only [step]
  case moveStart => rfl
  case moveEnd => rfl
  all_goals split <;> rfl

/-- Every call of a run keeps the window in the trace. -/
def AllKeep (t : TimelineImpl) : List Call → Prop
  | [] => True
  | call :: calls => call.Keeps t ∧ AllKeep (t.step call) calls

theorem inTrace_run_iff {t : TimelineImpl} (h : t.traceInfo.start ≤ t.traceInfo.stop) (ht : t.WindowInTrace)
    (calls : List Call) : (∀ before, before <+: calls → (t.run before).WindowInTrace) ↔ t.AllKeep calls := by
  induction calls generalizing t with
  | nil =>
    refine iff_of_true (fun before hbefore => ?_) trivial
    rw [List.prefix_nil.mp hbefore]
    exact ht
  | cons call calls ih =>
    have hstep := step_inTrace_iff h ht call
    have hinfo : (t.step call).traceInfo.start ≤ (t.step call).traceInfo.stop := by rwa [traceInfo_step]
    constructor
    · intro hall
      have hfirst : (t.step call).WindowInTrace := hall [call] (List.prefix_append [call] calls)
      refine ⟨hstep.mp hfirst, (ih hinfo hfirst).mp fun before hbefore => ?_⟩
      exact hall (call :: before) (List.cons_prefix_cons.mpr ⟨rfl, hbefore⟩)
    · rintro ⟨hkeeps, hrest⟩ before hbefore
      have hfirst := hstep.mpr hkeeps
      cases before with
      | nil => exact ht
      | cons call' before =>
        obtain ⟨hcall, hrestBefore⟩ := List.cons_prefix_cons.mp hbefore
        subst hcall
        exact (ih hinfo hfirst).mpr hrest before hrestBefore

/-- The window is in the trace in all states of a run exactly if all its calls keep it there. -/
theorem run_inTrace_iff {info : TraceInfo} (h : info.start ≤ info.stop) (calls : List Call) :
    (∀ before, before <+: calls → ((init info).run before).WindowInTrace) ↔ (init info).AllKeep calls :=
  inTrace_run_iff h (windowInTrace_init h) calls

/-- Moving the start of a trace of 100 ns to 40 ns, and the end to 1 ns behind it. -/
theorem run_inTrace_iff_hundred :
    (∀ before, before <+: [Call.moveStart (.new 40)] → ((init ⟨0, 100⟩).run before).WindowInTrace) ∧
      ¬((init ⟨0, 100⟩).run [.moveStart (.new 40), .moveEnd (.new 41)]).WindowInTrace := by
  have hkeep : (init ⟨0, 100⟩).AllKeep [Call.moveStart (.new 40)] := by
    refine ⟨⟨?_, ?_⟩, trivial⟩
    · rw [value_new]
      norm_num [init]
    · rw [value_new, value_stop]
      norm_num [init, fromTime, shortest, minDuration]
  refine ⟨(run_inTrace_iff (by decide) _).mpr hkeep, fun hbad => ?_⟩
  have hlong := hbad.long
  simp only [run, List.foldl_cons, List.foldl_nil, step, moveEnd, moveStart, value_sub, value_new, init, shortest,
    minDuration] at hlong
  norm_num at hlong

/-- A start that is moved to 1 ns before the end leaves a window that is too short. -/
theorem not_inTrace_moveStart :
    ¬∀ (info : TraceInfo), info.start ≤ info.stop → ∀ calls : List Call,
      ((init info).run calls).WindowInTrace := by
  intro hall
  have hlong := (hall ⟨0, 100⟩ (by decide) [.moveStart (.new 99)]).long
  simp only [run, List.foldl_cons, List.foldl_nil, step, moveStart, value_sub, value_new, value_stop, init, fromTime,
    shortest, minDuration] at hlong
  norm_num at hlong

end TimelineImpl

end LynxTrace.Ui
