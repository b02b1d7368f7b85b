import Sdssd.Host.Schedules

/-!
# The writer thread's sleep

`fscftl_write_kthread` tests `full_lun` and, when the test has failed, sets its task state and calls
`io_schedule`. A producer pushes a full entity and wakes the thread in two steps. Waking a thread that
is still running does nothing.
-/

namespace Sdssd.Host

open Framework

variable {α : Type}

inductive TaskState
  | running
  | interruptible
  deriving DecidableEq, Repr

/-- The next statement of `fscftl_write_kthread`; `asleep` is inside `io_schedule`. -/
inductive WriterPc
  | backend
  | setState
  | schedule
  | asleep
  deriving DecidableEq, Repr

/-- The write path with its writer thread. The calls in `unwoken` have pushed an entity to `full_lun`
and not yet called `wake_up_process`. -/
structure WriterSystem (α : Type) where
  path : WritePath α
  pc : WriterPc
  state : TaskState
  unwoken : List Nat

def WriterSystem.init (f : Ftl α) : WriterSystem α := ⟨WritePath.init f,.backend,.running,[]⟩

inductive WriterLabel (α : Type)
  | path (l : Label α)
  | wakeUpProcess (i : Nat)
  | submitWriteBackend
  | setCurrentState
  | ioSchedule

/-- The next copy of call `i` is the one after which it pushes the entity to `full_lun`. -/
def WritePath.fills (s : WritePath α) (i : Nat) : Bool :=
  match s.calls[i]?.map BioCall.pc with
  | some (.flush (slot :: _) _) => (s.ftl.ent slot.1).fillCnt + 1 == raidLunSecNum
  | _ => false

/-- The call that has to wake the writer after a step. -/
def WritePath.pusher (s : WritePath α) : Label α → List Nat
  | .copySlot i => if s.fills i then [i] else []
  | _ => []

def WriterSystem.step (s : WriterSystem α) : WriterLabel α → Option (WriterSystem α)
  | .path .submit => none
  | .path l =>
      -- a call that has pushed goes on only after its `wake_up_process`
      if l.caller.any (· ∈ s.unwoken) then none
      else (s.path.step l).map fun p => { s with path := p, unwoken := s.path.pusher l ++ s.unwoken }
  | .wakeUpProcess i =>
      if i ∈ s.unwoken then
        some { s with
          pc := if s.pc = .asleep then .backend else s.pc
          state := .running
          unwoken := s.unwoken.erase i }
      else none
  | .submitWriteBackend =>
      if s.pc = .backend then
        match s.path.step .submit with
        | some p => some { s with path := p }
        | none => some { s with pc := .setState }
      else none
  | .setCurrentState =>
      if s.pc = .setState then some { s with pc := .schedule, state := .interruptible } else none
  | .ioSchedule =>
      if s.pc = .schedule then
        some { s with pc := if s.state = .interruptible then .asleep else .backend }
      else none

/-- Everything a step can do, with the conditions under which it does it. -/
inductive WriterEffect (s : WriterSystem α) : WriterLabel α → WriterSystem α → Prop
  | path {l : Label α} {p : WritePath α} (hl : l ≠ .submit) (hw : ∀ i ∈ l.caller, i ∉ s.unwoken)
      (hp : Effect s.path l p) :
      WriterEffect s (.path l) { s with path := p, unwoken := s.path.pusher l ++ s.unwoken }
  | wake {i : Nat} (hi : i ∈ s.unwoken) : WriterEffect s (.wakeUpProcess i) { s with
      pc := if s.pc = .asleep then .backend else s.pc
      state := .running
      unwoken := s.unwoken.erase i }
  | submitted {p : WritePath α} (hpc : s.pc = .backend) (hp : Effect s.path .submit p) :
      WriterEffect s .submitWriteBackend { s with path := p }
  | idle (hpc : s.pc = .backend) (hp : s.path.step .submit = none) :
      WriterEffect s .submitWriteBackend { s with pc := .setState }
  | setState (hpc : s.pc = .setState) :
      WriterEffect s .setCurrentState { s with pc := .schedule, state := .interruptible }
  | schedule (hpc : s.pc = .schedule) : WriterEffect s .ioSchedule { s with
      pc := if s.state = .interruptible then .asleep else .backend }

theorem writerStep_effect {s s' : WriterSystem α} {l : WriterLabel α} (h : s.step l = some s') :
    WriterEffect s l s' := by
  have hpath {l : Label α} (hl : l ≠ .submit) (h : s.step (.path l) = some s') :
      WriterEffect s (.path l) s' := by
    have hunfold : s.step (.path l) = if l.caller.any (· ∈ s.unwoken) then none
        else (s.path.step l).map fun p => { s with path := p, unwoken := s.path.pusher l ++ s.unwoken } := by
      cases l with
      | submit => exact absurd rfl hl
      | _ => rfl
    rw [hunfold] at h
    split at h
    · cases h
    · rename_i hcaller
      obtain ⟨p,hp,rfl⟩ := Option.map_eq_some_iff.mp h
      refine .path hl (fun i hi hm => hcaller ?_) (step_effect hp)
      rw [Option.mem_def.mp hi]
      simpa using hm
  cases l with
  | path l =>
    by_cases hl : l = .submit
    · subst hl
      cases h
    · exact hpath hl h
  | wakeUpProcess i =>
    simp only [WriterSystem.step,Option.ite_none_right_eq_some,Option.some.injEq] at h
    exact h.2 ▸ .wake h.1
  | submitWriteBackend =>
    simp only [WriterSystem.step,Option.ite_none_right_eq_some] at h
    obtain ⟨hpc,h⟩ := h
    cases hp : s.path.step .submit with
    | some p =>
      rw [hp] at h
      exact Option.some.inj h ▸ .submitted hpc (step_effect hp)
    | none =>
      rw [hp] at h
      exact Option.some.inj h ▸ .idle hpc hp
  | setCurrentState =>
    simp only [WriterSystem.step,Option.ite_none_right_eq_some,Option.some.injEq] at h
    exact h.2 ▸ .setState h.1
  | ioSchedule =>
    simp only [WriterSystem.step,Option.ite_none_right_eq_some,Option.some.injEq] at h
    exact h.2 ▸ .schedule h.1

/-- Without a submission, `full_lun` changes only by the push of a call that then wakes the writer. -/
theorem Effect.fulls_of_pusher {s s' : WritePath α} {l : Label α} (h : Effect s l s') (hs : s.Sane)
    (hl : l ≠ .submit) : s'.fulls = s.fulls ∨ s.pusher l ≠ [] := by
  obtain ⟨-,hshift⟩ := h.sane hs
  cases hshift with
  | same _ _ _ _ hfulls => exact Or.inl hfulls
  | alloc _ _ hfulls => exact Or.inl hfulls
  | filled i e _ _ _ _ _ hlast =>
    obtain ⟨c,p,todo,adv,hc,hpc,hfull⟩ := hlast
    right
    have hfills : s.fills i = true := by
      rw [WritePath.fills,hc,Option.map_some,hpc]
      exact beq_iff_eq.mpr hfull
    simp [WritePath.pusher,hfills]
  | submitted => exact absurd rfl hl
  | emptied _ _ _ _ _ hfulls => exact Or.inl hfulls

theorem WritePath.Sane.submit_eq_none_iff {s : WritePath α} (hs : s.Sane) :
    s.step .submit = none ↔ s.fulls = [] := by
  rw [WritePath.step,Option.map_eq_none_iff,submitWriteBackend,Option.map_eq_none_iff]
  exact Fifo.pull_eq_none_iff hs.fulls

/-- A full entity that the writer has not seen in its last test, or will not look for before it
sleeps, has a producer that is still to wake it. -/
structure Attended (s : WriterSystem α) : Prop where
  sane : s.path.Sane
  asleep : s.pc = .asleep → s.state = .interruptible
  work : s.pc = .setState ∨ s.state = .interruptible → s.path.fulls ≠ [] → s.unwoken ≠ []

/-- No wake-up is executed between the writer's failed test and its `set_current_state` while an
entity is in `full_lun`, unless another one is still to come. -/
def wokenInTime (s : WriterSystem α) : WriterLabel α → Prop
  | .wakeUpProcess i => s.pc = .setState → s.path.fulls ≠ [] → s.unwoken.erase i ≠ []
  | _ => True

/-- The block layer sends writable bios only. -/
def writableProducers (s : WriterSystem α) : WriterLabel α → Prop
  | .path l => writableBios s.path l
  | _ => True

theorem WriterEffect.attended {s s' : WriterSystem α} {l : WriterLabel α} (h : WriterEffect s l s')
    (hs : Attended s) (hok : wokenInTime s l) : Attended s' := by
  cases h with
  | @path l p hl hw hp =>
    refine ⟨(hp.sane hs.sane).1,hs.asleep,fun hpc hfulls hnil => ?_⟩
    obtain ⟨hpush,hold⟩ := List.append_eq_nil_iff.mp hnil
    have hsame := (hp.fulls_of_pusher hs.sane hl).resolve_right (not_not.mpr hpush)
    exact hs.work hpc (hsame ▸ hfulls) hold
  | @wake i hi =>
    refine ⟨hs.sane,fun hpc => ?_,fun hpc hfulls => ?_⟩
    · dsimp only at hpc
      split at hpc
      · cases hpc
      · contradiction
    · have hset : s.pc = .setState := by
        rcases hpc with hpc | hpc
        · dsimp only at hpc
          split at hpc
          · cases hpc
          · exact hpc
        · cases hpc
      exact hok hset hfulls
  | @submitted p hpc hp =>
    obtain ⟨hs',hshift⟩ := hp.sane hs.sane
    refine ⟨hs',hs.asleep,fun hpc' hfulls => hs.work hpc' ?_⟩
    cases hshift with
    | same _ hl => exact absurd rfl hl
    | submitted e hfulls' =>
      rw [hfulls']
      exact List.cons_ne_nil _ _
  | idle hpc hp =>
    exact ⟨hs.sane,nofun,fun _ hfulls => absurd (hs.sane.submit_eq_none_iff.mp hp) hfulls⟩
  | setState hpc => exact ⟨hs.sane,nofun,fun _ hfulls => hs.work (Or.inl hpc) hfulls⟩
  | schedule hpc =>
    refine ⟨hs.sane,fun hpc' => ?_,fun hpc' hfulls => hs.work (hpc'.imp_left fun h' => ?_) hfulls⟩
    · dsimp only at hpc'
      split at hpc'
      · assumption
      · cases hpc'
    · dsimp only at h'
      split at h' <;> cases h'

/-- Producers run while the writer does: each of their wake-ups is without effect. -/
private theorem producers_run {ok : WriterSystem α → WriterLabel α → Prop} {pc : WriterPc}
    (hpc : pc ≠ .asleep) (hok : ∀ p l, byCallers p l → ok ⟨p,pc,.running,[]⟩ (.path l))
    (hwake : ∀ p i, ok ⟨p,pc,.running,[i]⟩ (.wakeUpProcess i)) {t t' : WritePath α}
    (h : Reaches WritePath.step byCallers t t') :
    Reaches WriterSystem.step ok ⟨t,pc,.running,[]⟩ ⟨t',pc,.running,[]⟩ := by
  refine h.project (fun p => (⟨p,pc,.running,[]⟩ : WriterSystem α)) fun p l u hl hu => ?_
  have hstep : WriterSystem.step ⟨p,pc,.running,[]⟩ (.path l) = some ⟨u,pc,.running,p.pusher l⟩ := by
    cases l with
    | submit => exact absurd hl id
    | _ => simp [WriterSystem.step,hu]
  have hrun := Reaches.single (hok p l hl) hstep
  cases l with
  | copySlot i =>
    by_cases hfills : p.fills i = true
    · rw [WritePath.pusher,if_pos hfills] at hrun
      refine hrun.tail (hwake u i) ?_
      simp [WriterSystem.step,hpc]
    · rwa [WritePath.pusher,if_neg hfills] at hrun
  | _ => exact hrun

/-- With nobody to wake it, the writer sets its task state and sleeps. -/
private theorem fall_asleep {ok : WriterSystem α → WriterLabel α → Prop} {s : WriterSystem α}
    {t : WritePath α} (h : Reaches WriterSystem.step ok s ⟨t,.setState,.running,[]⟩)
    (hset : ∀ t, ok t .setCurrentState) (hsched : ∀ t, ok t .ioSchedule) :
    Reaches WriterSystem.step ok s ⟨t,.asleep,.interruptible,[]⟩ :=
  (h.tail (hset _) rfl).tail (hsched _) rfl

/-- In every run in which no wake-up is executed too early: when the writer is asleep and no producer
is between its push and its wake-up, `full_lun` is empty. -/
theorem writer_sleeps_without_work {mcp : Bool} {d : Discovery} {b : BootPages} {dma : Nat → EntityDma}
    {f₀ : Ftl α} {s : WriterSystem α} (hinit : fscftlModuleInit mcp d b dma = .ok (some f₀))
    (hrun : Reaches WriterSystem.step wokenInTime (WriterSystem.init f₀) s) (hasleep : s.pc = .asleep)
    (hwoken : s.unwoken = []) : s.path.fulls = [] := by
  obtain ⟨free,hboot,-,-⟩ := fscftlModuleInit_booted hinit
  have h₀ : Attended (WriterSystem.init f₀) := by
    refine ⟨sane_init hboot,nofun,fun _ hfulls => absurd ?_ hfulls⟩
    exact (conserved_init hboot).eq_place.2.2.1
  have hs := hrun.invariant Attended h₀ fun t l u ht hok hl => (writerStep_effect hl).attended ht hok
  by_contra hfulls
  exact hs.work (Or.inr (hs.asleep hasleep)) hfulls hwoken

/-- An entity is filled and submitted, and the writer goes to sleep. -/
theorem writer_sleeps_without_work_submitted : ∃ (f₀ : Ftl Nat) (s : WriterSystem Nat),
    fscftlModuleInit true .clean ⟨true,true⟩ (fun _ => ⟨0,0,0⟩) = .ok (some f₀) ∧
    Reaches WriterSystem.step wokenInTime (WriterSystem.init f₀) s ∧ s.pc = .asleep ∧
    s.unwoken = [] ∧ s.path.programmed.length = 1 ∧ s.path.fulls = [] := by
  obtain ⟨f₀,free,hinit,hboot,hscan⟩ := manufactory_booted (α := Nat) .clean ⟨true,true⟩
    (fun _ => ⟨0,0,0⟩)
  obtain ⟨t,hran,h₁⟩ := (stand_init hboot hscan).fill 7 (by decide) (by decide)
  obtain ⟨u,hsubmit,-,-,hprog,h₂⟩ := h₁.submit
  have hnone := h₂.sane.submit_eq_none_iff.mpr h₂.fulls
  have hrun₁ : Reaches WriterSystem.step wokenInTime (WriterSystem.init f₀) ⟨t,.backend,.running,[]⟩ :=
    producers_run (by decide) (fun _ _ _ => trivial) (fun _ _ h => nomatch h) hran.run
  have hrun₂ : Reaches WriterSystem.step wokenInTime (WriterSystem.init f₀) ⟨u,.backend,.running,[]⟩ :=
    hrun₁.tail (l := .submitWriteBackend) trivial (by simp only [WriterSystem.step,if_true,hsubmit])
  have hrun₃ : Reaches WriterSystem.step wokenInTime (WriterSystem.init f₀) ⟨u,.setState,.running,[]⟩ :=
    hrun₂.tail (l := .submitWriteBackend) trivial (by simp only [WriterSystem.step,if_true,hnone])
  have hrun := fall_asleep hrun₃ (fun _ => trivial) (fun _ => trivial)
  refine ⟨f₀,_,hinit,hrun,rfl,rfl,?_,writer_sleeps_without_work hinit hrun rfl rfl⟩
  rw [hprog,hran.kept.programmed]
  rfl

/-- The writer finds `full_lun` empty; before it has set its task state an entity becomes full, and
the wake-up for it is lost. -/
theorem writer_sleeps_on_work : ∃ (f₀ : Ftl Nat) (s : WriterSystem Nat),
    fscftlModuleInit true .clean ⟨true,true⟩ (fun _ => ⟨0,0,0⟩) = .ok (some f₀) ∧
    Reaches WriterSystem.step writableProducers (WriterSystem.init f₀) s ∧ s.pc = .asleep ∧ s.unwoken = [] ∧
    s.path.fulls = [0] := by
  obtain ⟨f₀,free,hinit,hboot,hscan⟩ := manufactory_booted (α := Nat) .clean ⟨true,true⟩
    (fun _ => ⟨0,0,0⟩)
  have h₀ := stand_init hboot hscan
  obtain ⟨t,hran,h₁⟩ := h₀.fill 7 (by decide) (by decide)
  have htest : WriterSystem.step (WriterSystem.init f₀) .submitWriteBackend =
      some ⟨WritePath.init f₀,.setState,.running,[]⟩ := by
    have hnone := h₀.sane.submit_eq_none_iff.mpr h₀.fulls
    simp only [WriterSystem.step,WriterSystem.init,if_true,hnone]
  have hrun : Reaches WriterSystem.step writableProducers (WriterSystem.init f₀) ⟨t,.setState,.running,[]⟩ :=
    (Reaches.single (l := .submitWriteBackend) trivial htest).trans
      (producers_run (by decide) writable_of_callers (fun _ _ => trivial) hran.run)
  exact ⟨f₀,_,hinit,fall_asleep hrun (fun _ => trivial) (fun _ => trivial),rfl,rfl,h₁.fulls⟩

end Sdssd.Host
