import Sdssd.Host.Schedules

/-!
# The line completions of one submitted entity

`wrppa_lun_completion` runs in interrupt context once for each line of an entity. It sets the line's
bit in `cqe_flag` and afterwards compares the whole flag with the full mask, and no lock covers the
two: here they are separate steps, and the handlers of the eight lines interleave.
-/

namespace Sdssd.Host

open Framework

variable {α : Type}

/-- First half of `wrppa_lun_completion`. -/
def cqeFlagSet (f : Ftl α) (e idx : Nat) : Ftl α :=
  f.setEnt e { f.ent e with cqeFlag := lineFlag (f.ent e).cqeFlag idx }

/-- The test that every handler makes after its update. -/
def lunComplete (f : Ftl α) (e : Nat) : Bool :=
  (f.ent e).cqeFlag == bit2Mask cfgDriveLineNum % 2^16

/-- Second half of `wrppa_lun_completion`: with the full mask the entity is freed. -/
def cqeFlagTest (f : Ftl α) (e : Nat) : Ftl α :=
  if lunComplete f e then
    let f := f.pushEmpty e
    { f with wcb := { f.wcb with outstandingLun := f.wcb.outstandingLun - 1 } }
  else f

theorem cqeFlagSet_cqeFlag (f : Ftl α) (e idx : Nat) :
    ((cqeFlagSet f e idx).ent e).cqeFlag = lineFlag (f.ent e).cqeFlag idx := by
  rw [cqeFlagSet,ent_setEnt_self]

/-- The two halves run back to back are the handler. -/
theorem wrppaLunCompletion_eq (f : Ftl α) (e idx : Nat) :
    wrppaLunCompletion f e idx = cqeFlagTest (cqeFlagSet f e idx) e := by
  unfold wrppaLunCompletion cqeFlagTest lunComplete
  simp only [cqeFlagSet_cqeFlag,beq_iff_eq]
  rfl

/-- A submitted entity: the lines whose handler has not yet updated `cqe_flag`, those whose handler is
between its update and its test, and how often the entity was pushed to `empty_lun`. -/
structure LunFlight (α : Type) where
  ftl : Ftl α
  entity : Nat
  issued : List Nat
  updated : List Nat
  pushes : Nat

inductive LineLabel
  | bitSet (line : Nat)
  | flagTest (line : Nat)

namespace LunFlight

/-- What `submit_write_backend` leaves. -/
def submitted (e : Nat) (f : Ftl α) (cmds : List PpaCommand) : LunFlight α :=
  ⟨f,e,cmds.map PpaCommand.idx,[],0⟩

def empties (s : LunFlight α) : List Nat := s.ftl.wcb.emptyLun.toList s.ftl.wcb.link

def outstanding (s : LunFlight α) : Int := s.ftl.wcb.outstandingLun

def bitSet (s : LunFlight α) (line : Nat) : LunFlight α :=
  { s with
    ftl := cqeFlagSet s.ftl s.entity line
    issued := s.issued.erase line
    updated := s.updated ++ [line] }

def flagTest (s : LunFlight α) (line : Nat) : LunFlight α :=
  { s with
    ftl := cqeFlagTest s.ftl s.entity
    updated := s.updated.erase line
    pushes := if lunComplete s.ftl s.entity then s.pushes + 1 else s.pushes }

def step (s : LunFlight α) : LineLabel → Option (LunFlight α)
  | .bitSet line => if line ∈ s.issued then some (s.bitSet line) else none
  | .flagTest line => if line ∈ s.updated then some (s.flagTest line) else none

theorem step_bitSet {s : LunFlight α} {line : Nat} (h : line ∈ s.issued) :
    s.step (.bitSet line) = some (s.bitSet line) :=
  if_pos h

theorem step_flagTest {s : LunFlight α} {line : Nat} (h : line ∈ s.updated) :
    s.step (.flagTest line) = some (s.flagTest line) :=
  if_pos h

end LunFlight

/-- No handler sets the last missing bit while another one is between its update and its test. -/
def lastBitAlone (s : LunFlight α) : LineLabel → Prop
  | .bitSet line => s.issued = [line] → s.updated = []
  | .flagTest _ => True

/-- `empty_lun` is `q` without the entity and `outstanding_lun` is `n` without it. The entity is freed
with the last test, and when all bits are set exactly one handler is left to make it. -/
structure Landing (q : List Nat) (n : Int) (s : LunFlight α) : Prop where
  nodup : s.issued.Nodup
  flag_lt : (s.ftl.ent s.entity).cqeFlag < 256
  mem : ∀ l, l ∈ s.issued ↔ l < cfgDriveLineNum ∧ (s.ftl.ent s.entity).cqeFlag.testBit l = false
  fresh : s.entity ∉ q ∧ s.entity ≠ noIndex
  flying : s.pushes = 0 → Fifo.Holds s.ftl.wcb.link s.ftl.wcb.emptyLun q ∧ s.outstanding = n + 1 ∧
    (s.issued = [] → ∃ line, s.updated = [line])
  landed : s.pushes ≠ 0 → s.pushes = 1 ∧ s.issued = [] ∧ s.updated = [] ∧
    Fifo.Holds s.ftl.wcb.link s.ftl.wcb.emptyLun (q ++ [s.entity]) ∧ s.outstanding = n

section Landing

variable {q : List Nat} {n : Int} {s s' : LunFlight α} {l : LineLabel}

theorem Landing.lunComplete_iff (h : Landing q n s) :
    lunComplete s.ftl s.entity = true ↔ s.issued = [] := by
  rw [lunComplete,beq_iff_eq,show bit2Mask cfgDriveLineNum % 2^16 = 255 from rfl]
  constructor
  · intro hflag
    apply List.eq_nil_iff_forall_not_mem.mpr
    intro j hj
    have hbit := (h.mem j).mp hj
    rw [hflag,show 255 = 2^8 - 1 from rfl,Nat.testBit_two_pow_sub_one] at hbit
    simp at hbit
    omega
  · intro hnil
    apply Conserved.flag_eq_of_bits h.flag_lt
    intro j hj
    have hbit := (h.mem j).not.mp (by simp [hnil])
    simpa [hj] using hbit

theorem Landing.bitSet (h : Landing q n s) {line : Nat} (hm : line ∈ s.issued)
    (hok : s.issued = [line] → s.updated = []) : Landing q n (s.bitSet line) := by
  have hclear := (h.mem line).mp hm
  have hspec := Conserved.lineFlag_spec h.flag_lt hclear.1 hclear.2
  have hflag : ((s.bitSet line).ftl.ent (s.bitSet line).entity).cqeFlag =
      lineFlag (s.ftl.ent s.entity).cqeFlag line :=
    cqeFlagSet_cqeFlag s.ftl s.entity line
  have hzero : s.pushes = 0 := by
    by_contra hne
    rw [(h.landed hne).2.1] at hm
    cases hm
  constructor
  case nodup => exact h.nodup.erase line
  case flag_lt =>
    rw [hflag]
    exact hspec.1
  case mem =>
    intro j
    rw [hflag,hspec.2,LunFlight.bitSet,h.nodup.mem_erase_iff,h.mem j]
    by_cases hj : line = j
    · simp [hj]
    · simp [hj,Ne.symm hj]
  case fresh => exact h.fresh
  case flying =>
    intro _
    have hfly := h.flying hzero
    refine ⟨hfly.1,hfly.2.1,fun hnil => ⟨line,?_⟩⟩
    -- the erased line was the last one, so by the guard nobody else is about to test
    have hlast : s.issued = [line] := by
      have hperm := List.perm_cons_erase hm
      rw [show s.issued.erase line = [] from hnil] at hperm
      exact List.perm_singleton.mp hperm
    simp [LunFlight.bitSet,hok hlast]
  case landed =>
    intro hne
    exact absurd hzero hne

theorem Landing.flagTest (h : Landing q n s) {line : Nat} (hm : line ∈ s.updated) :
    Landing q n (s.flagTest line) := by
  have hzero : s.pushes = 0 := by
    by_contra hne
    rw [(h.landed hne).2.2.1] at hm
    cases hm
  have hfly := h.flying hzero
  cases hc : lunComplete s.ftl s.entity with
  | true =>
    have hissued := h.lunComplete_iff.mp hc
    obtain ⟨last,hlast⟩ := hfly.2.2 hissued
    have hline : line = last := by simpa [hlast] using hm
    have hpush := hfly.1.push h.fresh.1 h.fresh.2
    have hout : s.ftl.wcb.outstandingLun - 1 = n := by
      have := hfly.2.1
      unfold LunFlight.outstanding at this
      omega
    simp only [LunFlight.flagTest,cqeFlagTest,hc,if_true]
    refine ⟨h.nodup,h.flag_lt,h.mem,h.fresh,by simp,fun _ => ⟨?_,hissued,?_,hpush,hout⟩⟩
    · rw [hzero]
    · simp [hlast,hline]
  | false =>
    have hissued : s.issued ≠ [] := by
      intro hnil
      rw [h.lunComplete_iff.mpr hnil] at hc
      cases hc
    simp only [LunFlight.flagTest,cqeFlagTest,hc,Bool.false_eq_true,if_false]
    refine ⟨h.nodup,h.flag_lt,h.mem,h.fresh,fun _ => ⟨hfly.1,hfly.2.1,?_⟩,?_⟩
    · intro hnil
      exact absurd hnil hissued
    · intro hne
      exact absurd hzero hne

theorem Landing.step (h : Landing q n s) (hok : lastBitAlone s l) (hl : s.step l = some s') :
    Landing q n s' := by
  cases l with
  | bitSet line =>
    simp only [LunFlight.step,Option.ite_none_right_eq_some,Option.some.injEq] at hl
    rw [← hl.2]
    exact h.bitSet hl.1 hok
  | flagTest line =>
    simp only [LunFlight.step,Option.ite_none_right_eq_some,Option.some.injEq] at hl
    rw [← hl.2]
    exact h.flagTest hl.1

end Landing

/-- `submit_write_backend` takes the oldest full entity, clears its flag and issues all its lines. -/
theorem submitWriteBackend_some {f f' : Ftl α} {fq : List Nat} {e : Nat} {cmds : List PpaCommand}
    (hfulls : Fifo.Holds f.wcb.link f.wcb.fullLun fq)
    (h : submitWriteBackend f = some (e,f',cmds)) :
    e ∈ fq ∧ cmds.map PpaCommand.idx = List.range cfgDriveLineNum ∧ (f'.ent e).cqeFlag = 0 ∧
      f'.wcb.emptyLun = f.wcb.emptyLun ∧ f'.wcb.outstandingLun = f.wcb.outstandingLun + 1 ∧
      ∀ j, j ∉ fq → f'.wcb.link j = f.wcb.link j := by
  cases fq with
  | nil =>
    have hnone := (Fifo.pull_eq_none_iff hfulls).mpr rfl
    simp [submitWriteBackend,pullLunEntityFromFifo,hnone] at h
  | cons x fq =>
    obtain ⟨q,ln,hpull,-,hlink⟩ := hfulls.pull
    simp only [submitWriteBackend,pullLunEntityFromFifo,hpull,Option.map_some,Option.some.injEq,
      Prod.mk.injEq] at h
    have hf : (nvmeWrppaLun (f.setFull q ln) x).1 = f' := by rw [h.2]
    have hcmds : (nvmeWrppaLun (f.setFull q ln) x).2 = cmds := by rw [h.2]
    rw [← h.1,← hf,← hcmds,nvmeWrppaLun_ent_self]
    exact ⟨List.mem_cons_self,rfl,rfl,rfl,rfl,hlink⟩

/-- A submission puts the entity in flight with all lines outstanding. -/
theorem landing_submitted {p : WritePath α} {e : Nat} {f : Ftl α} {cmds : List PpaCommand}
    (hp : p.Sane) (hsub : submitWriteBackend p.ftl = some (e,f,cmds)) :
    Landing p.empties p.ftl.wcb.outstandingLun (LunFlight.submitted e f cmds) := by
  obtain ⟨hmem,hissued,hflag,hempty,hout,hlink⟩ := submitWriteBackend_some hp.fulls hsub
  have hfull : p.place e = .full := (hp.full_iff e).mp hmem
  have hempties : Fifo.Holds f.wcb.link f.wcb.emptyLun p.empties := by
    rw [hempty]
    apply hp.empties.congr
    intro i hi
    apply hlink
    exact hp.notMem_fulls (by simp [(hp.empty_iff i).mp hi])
  constructor
  case nodup =>
    rw [LunFlight.submitted,hissued]
    exact List.nodup_range
  case flag_lt => simp [LunFlight.submitted,hflag]
  case mem =>
    intro j
    simp [LunFlight.submitted,hflag,hissued]
  case fresh =>
    have hlt := hp.lt_of_ne_outside (e := e) (by simp [hfull])
    exact ⟨hp.notMem_empties (e := e) (by simp [hfull]),Conserved.noIndex_of_lt hlt⟩
  case flying =>
    intro _
    refine ⟨hempties,hout,fun hnil => ?_⟩
    rw [LunFlight.submitted,hissued] at hnil
    cases hnil
  case landed =>
    intro hne
    exact absurd rfl hne

/-- In every order of the updates and tests of its lines in which the last bit is set while nobody
else is about to test: the entity is pushed to `empty_lun` and taken out of `outstanding_lun` once,
when all its lines are through, and not before. -/
theorem lun_freed_once {mcp : Bool} {d : Discovery} {b : BootPages} {dma : Nat → EntityDma} {f₀ : Ftl α}
    {p : WritePath α} {e : Nat} {f : Ftl α} {cmds : List PpaCommand} {s : LunFlight α}
    (hinit : fscftlModuleInit mcp d b dma = .ok (some f₀))
    (hpath : Reaches WritePath.step always (WritePath.init f₀) p)
    (hsub : submitWriteBackend p.ftl = some (e,f,cmds))
    (hrun : Reaches LunFlight.step lastBitAlone (LunFlight.submitted e f cmds) s) :
    (s.pushes = 0 ∧ s.empties = p.empties ∧ s.outstanding = p.ftl.wcb.outstandingLun + 1 ∨
      s.pushes = 1 ∧ s.issued = [] ∧ s.updated = [] ∧ s.empties = p.empties ++ [s.entity] ∧
        s.outstanding = p.ftl.wcb.outstandingLun) ∧
    (s.issued = [] → s.updated = [] → s.pushes = 1) := by
  obtain ⟨free,hboot,-,-⟩ := fscftlModuleInit_booted hinit
  have hp : p.Sane := sane_of_reaches (sane_init hboot) hpath
  have hs := hrun.invariant (Landing p.empties p.ftl.wcb.outstandingLun) (landing_submitted hp hsub)
    fun t l u ht hok hl => ht.step hok hl
  by_cases hzero : s.pushes = 0
  · have hfly := hs.flying hzero
    refine ⟨Or.inl ⟨hzero,hfly.1.toList_eq,hfly.2.1⟩,fun hissued hupdated => ?_⟩
    obtain ⟨line,hline⟩ := hfly.2.2 hissued
    rw [hupdated] at hline
    cases hline
  · have hland := hs.landed hzero
    exact ⟨Or.inr ⟨hland.1,hland.2.1,hland.2.2.1,hland.2.2.2.1.toList_eq,hland.2.2.2.2⟩,
      fun _ _ => hland.1⟩

section Schedules

variable {s : LunFlight α}

/-- Handlers that run one after another meet the guard. -/
private theorem one_by_one (lines : List Nat) (hissued : s.issued = lines) (hupdated : s.updated = []) :
    ∃ s', Reaches LunFlight.step lastBitAlone s s' ∧ s'.issued = [] ∧ s'.updated = [] := by
  induction lines generalizing s with
  | nil => exact ⟨s,Reaches.refl s,hissued,hupdated⟩
  | cons line lines ih =>
    have hset : Reaches LunFlight.step lastBitAlone s (s.bitSet line) := by
      apply Reaches.single (l := .bitSet line)
      · exact fun _ => hupdated
      · exact LunFlight.step_bitSet (by simp [hissued])
    have htest : Reaches LunFlight.step lastBitAlone s ((s.bitSet line).flagTest line) := by
      apply hset.tail (l := .flagTest line)
      · exact trivial
      · exact LunFlight.step_flagTest (by simp [LunFlight.bitSet])
    obtain ⟨s',hrest,hdone⟩ := ih (s := (s.bitSet line).flagTest line)
      (by simp [LunFlight.flagTest,LunFlight.bitSet,hissued])
      (by simp [LunFlight.flagTest,LunFlight.bitSet,hupdated])
    exact ⟨s',htest.trans hrest,hdone⟩

/-- All handlers update before any of them tests. -/
private theorem set_all (lines : List Nat) (hissued : s.issued = lines) :
    ∃ s', Reaches LunFlight.step always s s' ∧ s'.updated = s.updated ++ lines ∧
      s'.entity = s.entity ∧ s'.pushes = s.pushes ∧ s'.outstanding = s.outstanding ∧
      s'.ftl.wcb.emptyLun = s.ftl.wcb.emptyLun ∧
      (s'.ftl.ent s.entity).cqeFlag = lines.foldl lineFlag (s.ftl.ent s.entity).cqeFlag := by
  induction lines generalizing s with
  | nil => exact ⟨s,Reaches.refl s,by simp,rfl,rfl,rfl,rfl,rfl⟩
  | cons line lines ih =>
    have hset : Reaches LunFlight.step always s (s.bitSet line) := by
      apply Reaches.single (l := .bitSet line) trivial
      exact LunFlight.step_bitSet (by simp [hissued])
    obtain ⟨s',hrest,hu,he,hp,ho,hq,hflag⟩ := ih (s := s.bitSet line)
      (by simp [LunFlight.bitSet,hissued])
    refine ⟨s',hset.trans hrest,by simpa [LunFlight.bitSet] using hu,he,hp,ho,hq,?_⟩
    rw [List.foldl_cons,← cqeFlagSet_cqeFlag]
    exact hflag

/-- A test that finds the mask full pushes the entity, whether or not another one did so before. -/
private theorem flagTest_full (line : Nat) (hfull : (s.ftl.ent s.entity).cqeFlag = 255) :
    ((s.flagTest line).ftl.ent (s.flagTest line).entity).cqeFlag = 255 ∧
      (s.flagTest line).pushes = s.pushes + 1 ∧
      (s.flagTest line).outstanding = s.outstanding - 1 ∧
      (s.flagTest line).ftl.wcb.emptyLun.size = s.ftl.wcb.emptyLun.size + 1 := by
  have hc : lunComplete s.ftl s.entity = true := by
    rw [lunComplete,hfull]
    rfl
  have hsize : (s.ftl.wcb.emptyLun.push s.ftl.wcb.link s.entity).1.size =
      s.ftl.wcb.emptyLun.size + 1 := by
    unfold Fifo.push
    split <;> rfl
  simp only [LunFlight.flagTest,cqeFlagTest,hc,if_true]
  exact ⟨hfull,trivial,rfl,hsize⟩

private theorem test_all (lines : List Nat) (hupdated : s.updated = lines)
    (hfull : (s.ftl.ent s.entity).cqeFlag = 255) :
    ∃ s', Reaches LunFlight.step always s s' ∧ s'.pushes = s.pushes + lines.length ∧
      s'.outstanding = s.outstanding - lines.length ∧
      s'.ftl.wcb.emptyLun.size = s.ftl.wcb.emptyLun.size + lines.length := by
  induction lines generalizing s with
  | nil => exact ⟨s,Reaches.refl s,rfl,by simp,rfl⟩
  | cons line lines ih =>
    have htest : Reaches LunFlight.step always s (s.flagTest line) := by
      apply Reaches.single (l := .flagTest line) trivial
      exact LunFlight.step_flagTest (by simp [hupdated])
    obtain ⟨hflag,hpush,hout,hsize⟩ := flagTest_full line hfull
    obtain ⟨s',hrest,hp,ho,hq⟩ := ih (s := s.flagTest line)
      (by simp [LunFlight.flagTest,hupdated]) hflag
    rw [hpush] at hp
    rw [hout] at ho
    rw [hsize] at hq
    refine ⟨s',htest.trans hrest,?_,?_,?_⟩ <;> simp only [List.length_cons,Nat.cast_add] <;> omega

end Schedules

/-- The first entity is filled and about to be submitted. -/
private theorem first_submission : ∃ (f₀ f : Ftl Nat) (p : WritePath Nat) (cmds : List PpaCommand),
    fscftlModuleInit true .clean ⟨true,true⟩ (fun _ => ⟨0,0,0⟩) = .ok (some f₀) ∧
    Reaches WritePath.step always (WritePath.init f₀) p ∧ p.Sane ∧ p.empties = List.range' 2 14 ∧
    submitWriteBackend p.ftl = some (0,f,cmds) := by
  obtain ⟨f₀,free,hinit,hboot,hscan⟩ := manufactory_booted (α := Nat) .clean ⟨true,true⟩
    (fun _ => ⟨0,0,0⟩)
  obtain ⟨p,hran,h₁⟩ := (stand_init hboot hscan).fill 7 (by decide) (by decide)
  obtain ⟨q,ln,hpull,-,-⟩ := (h₁.fulls ▸ h₁.sane.fulls).pull
  have hsub : submitWriteBackend p.ftl = some (0,nvmeWrppaLun (p.ftl.setFull q ln) 0) := by
    simp only [submitWriteBackend,pullLunEntityFromFifo,hpull,Option.map_some]
  exact ⟨f₀,_,p,_,hinit,hran.run.mono fun _ _ _ => trivial,h₁.sane,h₁.empties,hsub⟩

/-- The handlers of the first entity run one after another. -/
theorem lun_freed_once_in_turn : ∃ (f₀ f : Ftl Nat) (p : WritePath Nat) (cmds : List PpaCommand)
    (s : LunFlight Nat), fscftlModuleInit true .clean ⟨true,true⟩ (fun _ => ⟨0,0,0⟩) = .ok (some f₀) ∧
    Reaches WritePath.step always (WritePath.init f₀) p ∧ submitWriteBackend p.ftl = some (0,f,cmds) ∧
    Reaches LunFlight.step lastBitAlone (LunFlight.submitted 0 f cmds) s ∧ s.pushes = 1 := by
  obtain ⟨f₀,f,p,cmds,hinit,hpath,-,-,hsub⟩ := first_submission
  obtain ⟨s,hrun,hissued,hupdated⟩ := one_by_one _ (s := LunFlight.submitted 0 f cmds) rfl rfl
  exact ⟨f₀,f,p,cmds,s,hinit,hpath,hsub,hrun,
    (lun_freed_once hinit hpath hsub hrun).2 hissued hupdated⟩

/-- All eight handlers set their bits before any of them tests: each finds the mask full, the entity
enters `empty_lun` eight times and the queue counts more members than there are entities. -/
theorem lun_freed_eight_times : ∃ (f₀ f : Ftl Nat) (p : WritePath Nat) (cmds : List PpaCommand)
    (s : LunFlight Nat), fscftlModuleInit true .clean ⟨true,true⟩ (fun _ => ⟨0,0,0⟩) = .ok (some f₀) ∧
    Reaches WritePath.step always (WritePath.init f₀) p ∧ submitWriteBackend p.ftl = some (0,f,cmds) ∧
    Reaches LunFlight.step always (LunFlight.submitted 0 f cmds) s ∧ s.pushes = 8 ∧
    s.outstanding = p.ftl.wcb.outstandingLun + 1 - 8 ∧ s.ftl.wcb.emptyLun.size = 22 := by
  obtain ⟨f₀,f,p,cmds,hinit,hpath,hp,hempties,hsub⟩ := first_submission
  obtain ⟨-,hissued,hflag,hempty,hout,-⟩ := submitWriteBackend_some hp.fulls hsub
  obtain ⟨t,hrun₁,hupd,hent,hpush,hout₁,hq₁,hflag₁⟩ :=
    set_all (List.range cfgDriveLineNum) (s := LunFlight.submitted 0 f cmds) hissued
  have hfull : (t.ftl.ent t.entity).cqeFlag = 255 := by
    rw [hent,hflag₁]
    exact (congrArg (List.foldl lineFlag · (List.range cfgDriveLineNum)) hflag).trans (by decide)
  obtain ⟨s,hrun₂,hpush₂,hout₂,hq₂⟩ := test_all (List.range cfgDriveLineNum) hupd hfull
  have hsize : p.ftl.wcb.emptyLun.size = 14 := by
    rw [hp.empties.size,hempties]
    rfl
  refine ⟨f₀,f,p,cmds,s,hinit,hpath,hsub,hrun₁.trans hrun₂,?_,?_,?_⟩
  · rw [hpush₂,hpush]
    rfl
  · rw [hout₂,hout₁]
    exact congrArg (· - (8 : Int)) hout
  · rw [hq₂,hq₁]
    show f.wcb.emptyLun.size + 8 = 22
    rw [hempty,hsize]

end Sdssd.Host
