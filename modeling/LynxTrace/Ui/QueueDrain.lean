import LynxTrace.Ui.QuerySlotMoves
import Mathlib.Algebra.GroupWithZero.Nat

/-!
# Ui.QueueDrain — the queue comes to rest

`System.work` counts the steps that are left to the queue if no slot is used or disposed of meanwhile; `Awake` is why it
does not stop before.
-/

namespace LynxTrace.Ui

variable {I K F V X : Type*}

/-- The steps left to a task, at most. -/
def Phase.rounds : Phase X → ℕ
  | disposing _ => 4
  | cacheDisposed => 3
  | disposeThrew _ | querying => 2
  | done => 1

def System.work (s : System I K F V X) : ℕ :=
  4 * s.pending.length + (s.active.map fun a => a.phase.rounds).sum

/-- No call of `use` or `dispose`. -/
def Step.Internal : Step I K F V X → Prop
  | use .. | dispose _ => False
  | _ => True

/-- Tasks wait only for one that runs, and only a query for its `queryFn`. -/
structure Awake (s : System I K F V X) : Prop where
  pending : s.active = [] → s.pending = []
  querying : ∀ i, ⟨.dispose i, .querying⟩ ∉ s.active

variable {ops : KeyOps K} {trace : List (Event I K F V X)} {s s' : System I K F V X} {l : Step I K F V X}

theorem Awake.single {a : ActiveTask I K F X} (h : s.active = [a]) (ha : ∀ i, a ≠ ⟨.dispose i, .querying⟩) :
    Awake s :=
  ⟨by simp [h], fun i hi => ha i (List.mem_singleton.mp (h ▸ hi)).symm⟩

theorem Awake.runNext (hserial : s.active = [] ∧ s.running = false ∨ ∃ a, s.active = [a] ∧ s.running = true)
    (hquerying : ∀ i, ⟨.dispose i, .querying⟩ ∉ s.active) : Awake s.runNext.1 := by
  rcases s.runNext_cases with ⟨hstop, heq⟩ | ⟨i, task, pending, hrun, -, heq⟩
  · rw [heq]
    exact ⟨by grind, hquerying⟩
  · rw [heq]
    refine Awake.single (a := ⟨task, (s.slots task.slot).disposeCache⟩) (by grind [System.started]) fun i h => ?_
    obtain ⟨-, hphase⟩ := ActiveTask.mk.inj h
    unfold QuerySlot.disposeCache at hphase
    split at hphase <;> cases hphase

theorem System.work_runNext_le (s : System I K F V X) : s.runNext.1.work ≤ s.work := by
  rcases s.runNext_cases with ⟨-, heq⟩ | ⟨i, task, pending, -, hp, heq⟩
  · exact Nat.le_of_eq (congrArg (fun r => r.1.work) heq)
  · have hrounds : (s.slots task.slot).disposeCache.rounds ≤ 4 := by
      cases (s.slots task.slot).disposeCache <;> simp [Phase.rounds]
    simp only [heq, work, started, hp, List.map_append, List.sum_append, List.map_singleton, List.sum_singleton,
      List.length_cons]
    omega

variable [DecidableEq I] {calls : List (I × K × F)} {events : List (Event I K F V X)}

theorem Awake.move (h : Awake s) (hq : QueueInv ops trace s) (hmove : Move ops s l s' calls) : Awake s' := by
  cases hmove with
  | stays => exact h
  | @schedules i key queryFn =>
    obtain ⟨s1, signal, hs, heq⟩ := System.startQuery_eq s i key queryFn
    rw [heq]
    exact Awake.runNext (by simpa [hs.active, hs.running] using hq.serial) (by simpa [hs.active] using h.querying)
  | disposes => exact Awake.runNext hq.serial h.querying
  | disposed _ hactive | rejected _ hactive | lastTask _ hactive | called _ hactive =>
    exact Awake.single hactive (by simp)
  | ends _ _ _ _ hactive => exact Awake.single hactive (by simp)
  | taskOver => exact Awake.runNext (Or.inl ⟨rfl, rfl⟩) (by simp)

/-- A step of the queue does some of its work. -/
theorem System.work_step (hq : QueueInv ops trace s) (hl : l.Internal) (hstep : s.step ops l = some (s', events)) :
    s'.work < s.work := by
  cases l with
  | use | dispose => exact hl.elim
  | disposeSettles n thrown =>
    obtain ⟨task, resource, ha, rfl, rfl⟩ := step_disposeSettles hstep
    obtain ⟨rfl, hactive, -⟩ := hq.active_eq ha
    cases thrown <;> simp [disposeSettled, setPhase, setSlot, work, hactive, Phase.rounds]
  | goesOn n =>
    rcases step_goesOn hstep with ⟨task, ha, rfl, rfl⟩ | ⟨task, thrown, ha, rfl, rfl⟩
    · obtain ⟨rfl, hactive, -⟩ := hq.active_eq ha
      cases task <;> simp [cacheDisposed, setPhase, work, hactive, Phase.rounds]
    · obtain ⟨rfl, hactive, -⟩ := hq.active_eq ha
      cases task <;> simp [disposeThrew, setPhase, setSlot, work, hactive, Phase.rounds]
  | querySettles n outcome =>
    obtain ⟨i, key, queryFn, signal, ha, h1⟩ := step_querySettles hstep
    obtain ⟨rfl, hactive, -⟩ := hq.active_eq ha
    obtain rfl : _ = s' := congrArg Prod.fst h1
    cases outcome <;> simp [querySettled, setPhase, setSlot, work, hactive, Phase.rounds]
  | ends n =>
    obtain ⟨task, ha, h1⟩ := step_ends hstep
    obtain ⟨rfl, hactive, -⟩ := hq.active_eq ha
    obtain rfl : _ = s' := congrArg Prod.fst h1
    exact Nat.lt_of_le_of_lt (work_runNext_le _) (by simp [work, hactive, Phase.rounds])

/-- The task that runs can go on. -/
theorem Awake.goesOn (h : Awake s) : s.pending = [] ∧ s.active = [] ∨
    ∃ l : Step I K F V X, l.Internal ∧ (s.step ops l).isSome := by
  cases hactive : s.active with
  | nil => exact Or.inl ⟨h.pending hactive, rfl⟩
  | cons a rest =>
    obtain ⟨task, phase⟩ := a
    right
    cases phase with
    | disposing => exact ⟨.disposeSettles 0 none, trivial, by simp [System.step, hactive]⟩
    | cacheDisposed | disposeThrew => exact ⟨.goesOn 0, trivial, by simp [System.step, hactive]⟩
    | querying =>
      cases task with
      | query => exact ⟨.querySettles 0 .queryCancelled, trivial, by simp [System.step, hactive]⟩
      | dispose i => exact absurd (by simp [hactive]) (h.querying i)
    | done => exact ⟨.ends 0, trivial, by simp [System.step, hactive]⟩

/-- **The queue drains**: after every run there are at most four steps for each task that is queued or running until a
slot is used or disposed of again, whether promises resolve or not, and while there is such a task one of them can go
on. -/
theorem run_drains (ops : KeyOps K) {ok : List (Event I K F V X) → System I K F V X → Step I K F V X → Prop}
    (h : (System.machine ops).Run ok trace s) {ls : List (Step I K F V X)} (hls : ∀ l ∈ ls, l.Internal)
    {r : List (Event I K F V X) × System I K F V X} (hsteps : (System.machine ops).steps trace s ls = some r) :
    ls.length ≤ 4 * (s.pending.length + s.active.length) ∧
      (r.2.pending = [] ∧ r.2.active = [] ∨ ∃ l : Step I K F V X, l.Internal ∧ (r.2.step ops l).isSome) := by
  have hinv : ∀ {trace} {s : System I K F V X}, (System.machine ops).Run (fun _ _ _ => True) trace s →
      (QueueInv ops trace s ∧ AtEach (FreshReturn ops) trace) ∧ Awake s := by
    intro trace s h
    refine EventMachine.Run.invariant
      (I := fun trace s => (QueueInv ops trace s ∧ AtEach (FreshReturn ops) trace) ∧ Awake s)
      ⟨⟨QueueInv.init, AtEach.nil⟩, fun _ => rfl, by simp [System.machine, System.init]⟩ ?_ h
    intro trace s l s' events hinv _ hstep
    have hmove := System.step_moves hinv.1.1 hstep
    exact ⟨hinv.1.1.step hinv.1.2 hstep, hinv.2.move hinv.1.1 hmove⟩
  replace h : (System.machine ops).Run (fun _ _ _ => True) trace s := h.mono fun _ _ _ _ => trivial
  refine ⟨?_, (hinv (h.steps (fun _ _ _ => trivial) hsteps)).2.goesOn⟩
  have hwork : ls.length + r.2.work ≤ s.work := by
    induction ls generalizing trace s with
    | nil =>
      obtain rfl := Option.some.inj hsteps
      simp
    | cons l ls ih =>
      rw [EventMachine.steps] at hsteps
      split at hsteps
      · cases hsteps
      · rename_i s' events hstep
        have hl := List.forall_mem_cons.mp hls
        have hlt := System.work_step (hinv h).1.1 hl.1 hstep
        have hle := ih hl.2 hsteps (h.step trivial hstep)
        rw [List.length_cons]
        omega
  have hbound : s.work ≤ 4 * (s.pending.length + s.active.length) := by
    rcases (hinv h).1.1.serial with ⟨hnil, -⟩ | ⟨⟨task, phase⟩, hone, -⟩
    · simp [System.work, hnil]
    · cases phase <;> simp [System.work, hone, Phase.rounds] <;> omega
  omega

/-- A slot is used, and its query cancelled. -/
theorem run_drains_cancelled : ∃ s : System Unit (ℕ × ℕ) ℕ Unit Unit, s.active.length = 1 ∧
    3 ≤ 4 * (s.pending.length + s.active.length) := by
  have h := (EventMachine.Run.init : (System.machine pageOps).Run (fun _ _ _ => True) []
    (System.init : System Unit (ℕ × ℕ) ℕ Unit Unit)).step (l := .use () (1, 1) 0 none []) trivial rfl
  have hls : ∀ l ∈ ([.goesOn 0, .querySettles 0 .queryCancelled, .ends 0] : List (Step Unit (ℕ × ℕ) ℕ Unit Unit)),
      l.Internal := by simp [Step.Internal]
  exact ⟨_, by rfl, (run_drains pageOps h hls rfl).1⟩

end LynxTrace.Ui
