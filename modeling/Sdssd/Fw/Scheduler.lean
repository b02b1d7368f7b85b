import Sdssd.Framework.Refinement
import Mathlib.Logic.Function.Basic

/-!
# Task scheduler

One core's `lsb_prefer_scheduler`: in each round the hardware and then the firmware event register is
read, and for every set bit, lowest first, the task found at that place of the task array is run if
its state byte says it is ready. Tasks put each other to sleep and wake each other while they run.
-/

namespace Sdssd.Fw

open Framework

/-- `TASK_STATE_*`. -/
inductive TaskState
  | sleep
  | ready
  | running
  deriving DecidableEq, Repr

/-- One core: the state bytes of the tasks registered in `task_array[cpu]` by priority, the scheduler's
`loop_cnt`, and the tasks run so far. -/
structure Sched where
  task : Nat → Option TaskState
  loopCnt : Nat
  history : List Nat

/-- What a task function does to the scheduler. -/
inductive TaskOp
  | yieldTask (prio : Nat)
  | resumeTask (prio : Nat)
  deriving DecidableEq, Repr

/-- The calls made by the function of a task when it runs, given the tasks run before. -/
abbrev TaskFns := List Nat → Nat → List TaskOp

namespace Sched

/-- `set_task_state` behind `assert(task != NULL)`. -/
def setTaskState (s : Sched) (prio : Nat) (state : TaskState) : Option Sched :=
  (s.task prio).map fun _ => { s with task := Function.update s.task prio (some state) }

def taskOp (s : Sched) : TaskOp → Option Sched
  | .yieldTask prio => s.setTaskState prio .sleep
  | .resumeTask prio => s.setTaskState prio .ready

/-- `__run_task`: the state byte becomes `RUNNING` before the call and is left alone after it. -/
def runTask (fns : TaskFns) (s : Sched) (prio : Nat) : Option Sched :=
  if s.task prio = some .ready then
    (fns s.history prio).foldlM taskOp
      { s with task := Function.update s.task prio (some .running), history := s.history ++ [prio] }
  else none

/-- The loop body of `handle_hw_event` and of `handle_fw_event`, with the task it runs. -/
def handleBit (fns : TaskFns) (s : Sched) (bit : Nat) : Option (Sched × Option Nat) :=
  if s.task bit = some .ready then (s.runTask fns bit).map fun t => (t,some bit) else some (s,none)

def handleHwEvent (fns : TaskFns) (s : Sched) (bit : Nat) : Option (Sched × Option Nat) :=
  s.handleBit fns bit

/-- Like `handle_hw_event` it takes the task from `tasks[bit]`. -/
def handleFwEvent (fns : TaskFns) (s : Sched) (bit : Nat) : Option (Sched × Option Nat) :=
  s.handleBit fns bit

end Sched

/-- One step of a round: a set bit of either register, or its end. -/
inductive Dispatch
  | hw (bit : Nat)
  | fw (bit : Nat)
  | endRound
  deriving DecidableEq, Repr

/-- `for_each_set_bit`. -/
def setBits (reg : BitVec 32) : List Nat := (List.range 32).filter fun bit => reg.getLsbD bit

/-- The steps of a round in which the two registers had these values. -/
def roundSteps (events : BitVec 32 × BitVec 32) : List Dispatch :=
  (setBits events.1).map .hw ++ (setBits events.2).map .fw ++ [.endRound]

/-- `completionPrio` is declared nowhere; `loop_cnt` is never counted up. -/
def Sched.step (completionPrio : Nat) (fns : TaskFns) (s : Sched) : Dispatch → Option (Sched × Option Nat)
  | .hw bit => s.handleHwEvent fns bit
  | .fw bit => s.handleFwEvent fns bit
  | .endRound =>
    if s.loopCnt % 16 ≠ 0 then (s.setTaskState completionPrio .ready).map fun t => (t,none)
    else some (s,none)

/-- A core whose tasks were created with these `ready` flags. -/
def Sched.start (created : Nat → Option Bool) : Sched :=
  ⟨fun prio => (created prio).map fun ready => if ready then .ready else .sleep,0,[]⟩

/-- What the scheduler is for: which tasks are registered and awake, that is created ready or resumed,
and not put to sleep since. -/
structure Awake where
  awake : Nat → Option Bool
  history : List Nat

namespace Awake

def set (a : Awake) (prio : Nat) (b : Bool) : Option Awake :=
  (a.awake prio).map fun _ => { a with awake := Function.update a.awake prio (some b) }

def taskOp (a : Awake) : TaskOp → Option Awake
  | .yieldTask prio => a.set prio false
  | .resumeTask prio => a.set prio true

/-- An awake task runs once for its event, and stays awake unless it is put to sleep. -/
def serve (fns : TaskFns) (a : Awake) (prio : Nat) : Option (Awake × Option Nat) :=
  if a.awake prio = some true then
    ((fns a.history prio).foldlM taskOp { a with history := a.history ++ [prio] }).map
      fun b => (b,some prio)
  else some (a,none)

/-- Bit `b` of the hardware register is for priority `b`, of the firmware register for `32+b`. -/
def step (fns : TaskFns) (a : Awake) : Dispatch → Option (Awake × Option Nat)
  | .hw bit => a.serve fns bit
  | .fw bit => a.serve fns (32 + bit)
  | .endRound => some (a,none)

end Awake

/-- The state bytes tell who is awake. -/
structure Tracks (s : Sched) (a : Awake) : Prop where
  awake : ∀ prio, a.awake prio = (s.task prio).map fun st => decide (st ≠ .sleep)
  history : a.history = s.history
  loopCnt : s.loopCnt = 0

section Steps

variable {s : Sched} {a : Awake} {fns : TaskFns} {prio : Nat}

/-- Writing a state byte sets or clears the flag. -/
theorem Tracks.update (h : Tracks s a) (prio : Nat) (st : TaskState) (hist : List Nat) :
    Tracks { s with task := Function.update s.task prio (some st), history := hist }
      ⟨Function.update a.awake prio (some (decide (st ≠ .sleep))),hist⟩ := by
  constructor
  case awake =>
    intro p
    by_cases hp : p = prio
    · rw [hp]
      simp
    · simp only [Function.update_of_ne hp]
      exact h.awake p
  case history => rfl
  case loopCnt => exact h.loopCnt

theorem Tracks.taskOp (h : Tracks s a) (op : TaskOp) : Option.Rel Tracks (s.taskOp op) (a.taskOp op) := by
  have hset (prio : Nat) (st : TaskState) :
      Option.Rel Tracks (s.setTaskState prio st) (a.set prio (decide (st ≠ .sleep))) := by
    rw [Sched.setTaskState,Awake.set,h.awake prio]
    cases s.task prio with
    | none => exact Option.Rel.none
    | some _ =>
      have hupd := h.update prio st s.history
      exact Option.Rel.some (h.history ▸ hupd)
  cases op with
  | yieldTask prio => exact hset prio .sleep
  | resumeTask prio => exact hset prio .ready

/-- The calls of a task function keep both sides in step. -/
theorem Tracks.taskOps (h : Tracks s a) (ops : List TaskOp) :
    Option.Rel Tracks (ops.foldlM Sched.taskOp s) (ops.foldlM Awake.taskOp a) := by
  induction ops generalizing s a with
  | nil => exact Option.Rel.some h
  | cons op ops ih =>
    rw [List.foldlM_cons,List.foldlM_cons]
    apply relBind (h.taskOp op)
    intro t b _ htb
    exact ih htb

/-- A ready task is awake, and its run is the run that serves the event. -/
theorem Tracks.run (h : Tracks s a) (hready : s.task prio = some .ready) :
    SameResult Tracks (s.handleBit fns prio) (a.serve fns prio) := by
  have hawake : a.awake prio = some true := by
    rw [h.awake,hready]
    rfl
  rw [Sched.handleBit,if_pos hready,Sched.runTask,if_pos hready,Awake.serve,if_pos hawake,h.history]
  have hrunning := h.update prio .running (s.history ++ [prio])
  -- a task that runs stays awake: the flag is written with the value it has
  have hsame : Function.update a.awake prio (some (decide (TaskState.running ≠ .sleep))) = a.awake := by
    rw [← Function.update_eq_self prio a.awake,hawake]
    simp
  rw [hsame] at hrunning
  apply relMap (hrunning.taskOps _)
  intro t b htb
  exact ⟨htb,rfl⟩

/-- A task that is missing, asleep or marked as running is not run. -/
theorem Sched.handleBit_of_not_ready (h : s.task prio ≠ some .ready) :
    s.handleBit fns prio = some (s,none) := if_neg h

/-- A task that is missing or asleep needs no run. -/
theorem Tracks.serve_asleep (h : Tracks s a) (hs : s.task prio = none ∨ s.task prio = some .sleep) :
    a.serve fns prio = some (a,none) := by
  apply if_neg
  rw [h.awake]
  rcases hs with hs | hs
  · simp [hs]
  · simp [hs]

end Steps

/-- The state bytes that an event meets when its bit is handled: the task of a hardware bit is not marked
as running from an earlier run; the task at the place of a firmware bit is not ready, and the one
the bit is for is missing or asleep. -/
def eventServed (s : Sched) : Dispatch → Prop
  | .hw bit => s.task bit ≠ some .running
  | .fw bit => s.task bit ≠ some .ready ∧ (s.task (32 + bit) = none ∨ s.task (32 + bit) = some .sleep)
  | .endRound => True

theorem Tracks.step {s : Sched} {a : Awake} {d : Dispatch} {fns : TaskFns} {completionPrio : Nat}
    (h : Tracks s a) (hok : eventServed s d) :
    SameResult Tracks (s.step completionPrio fns d) (a.step fns d) := by
  cases d with
  | hw bit =>
    by_cases hready : s.task bit = some .ready
    · exact h.run hready
    · have hasleep : s.task bit = none ∨ s.task bit = some .sleep := by
        cases hst : s.task bit with
        | none => exact Or.inl rfl
        | some st =>
          cases st with
          | sleep => exact Or.inr rfl
          | ready => exact absurd hst hready
          | running => exact absurd hst hok
      have hserve : a.serve fns bit = some (a,none) := h.serve_asleep hasleep
      rw [Sched.step,Sched.handleHwEvent,Sched.handleBit_of_not_ready hready,Awake.step,hserve]
      exact Option.Rel.some ⟨h,rfl⟩
  | fw bit =>
    have hserve : a.serve fns (32 + bit) = some (a,none) := h.serve_asleep hok.2
    rw [Sched.step,Sched.handleFwEvent,Sched.handleBit_of_not_ready hok.1,Awake.step,hserve]
    exact Option.Rel.some ⟨h,rfl⟩
  | endRound =>
    rw [Sched.step,h.loopCnt]
    exact Option.Rel.some ⟨h,rfl⟩

theorem tracks_start (created : Nat → Option Bool) : Tracks (Sched.start created) ⟨created,[]⟩ := by
  constructor
  case awake =>
    intro prio
    show created prio = ((created prio).map _).map _
    cases created prio with
    | none => rfl
    | some ready => cases ready <;> rfl
  case history => rfl
  case loopCnt => rfl

/-- Over any rounds, event values and task functions: as long as the events meet tasks in such states,
each one runs exactly the task it is for if that is awake, lowest bit first, and no other. -/
theorem scheduler_serves_events (completionPrio : Nat) (fns : TaskFns) (created : Nat → Option Bool)
    (rounds : List (BitVec 32 × BitVec 32))
    (hrun : Admits (Sched.step completionPrio fns) eventServed (Sched.start created)
      (rounds.flatMap roundSteps)) :
    (runOps (Sched.step completionPrio fns) (Sched.start created) (rounds.flatMap roundSteps)).map
        Prod.snd =
      (runOps (Awake.step fns) ⟨created,[]⟩ (rounds.flatMap roundSteps)).map Prod.snd := by
  have hstep (s : Sched) (a : Awake) (d : Dispatch) (h : Tracks s a) (hok : eventServed s d) :
      SameResult Tracks (s.step completionPrio fns d) (a.step fns d) := h.step hok
  exact (runOps_sameResult Tracks hstep (tracks_start created) hrun).results

/-- Tasks 0 and 3 are created ready and resume themselves; bit 0, then bits 0 and 3. -/
theorem scheduler_serves_events_twice :
    (runOps (Sched.step 0 fun _ prio => [.resumeTask prio])
        (Sched.start fun prio => if prio = 0 ∨ prio = 3 then some true else none)
        ([(1,0),(9,0)].flatMap roundSteps)).map Prod.snd =
      some [some 0,none,some 0,some 3,none] := by
  have hsteps : [(1,0),(9,0)].flatMap roundSteps =
      [.hw 0,.endRound,.hw 0,.hw 3,.endRound] := by decide
  have hserved := scheduler_serves_events 0 (fun _ prio => [.resumeTask prio])
    (fun prio => if prio = 0 ∨ prio = 3 then some true else none) [(1,0),(9,0)] (by
      rw [hsteps]
      apply Admits.cons (by simp [eventServed,Sched.start]) rfl
      apply Admits.cons trivial rfl
      apply Admits.cons (by simp [eventServed]) rfl
      apply Admits.cons (by simp [eventServed,Sched.start]) rfl
      apply Admits.cons trivial rfl
      trivial)
  rw [hserved,hsteps]
  decide

/-- Two rounds with hardware bit 0 set run its task once only, since nothing makes it ready again; and
firmware bit 0 runs the task at priority 0 instead of the one at 32. -/
theorem scheduler_loses_events :
    ((runOps (Sched.step 0 fun _ _ => []) (Sched.start fun prio => if prio = 0 then some true else none)
        ([(1,0),(1,0)].flatMap roundSteps)).map Prod.snd = some [some 0,none,none,none] ∧
      (runOps (Awake.step fun _ _ => []) ⟨fun prio => if prio = 0 then some true else none,[]⟩
        ([(1,0),(1,0)].flatMap roundSteps)).map Prod.snd = some [some 0,none,some 0,none]) ∧
    (runOps (Sched.step 0 fun _ _ => []) (Sched.start fun _ => some true)
        (roundSteps (0,1))).map Prod.snd = some [some 0,none] ∧
      (runOps (Awake.step fun _ _ => []) ⟨fun _ => some true,[]⟩
        (roundSteps (0,1))).map Prod.snd = some [some 32,none] := by
  decide

end Sdssd.Fw
