import Mathlib.Data.List.Nodup
import Sdssd.Framework.Steps
import Sdssd.Fw.CommandFlow

/-!
# The dispatch of an I/O command

`handle_nvme_io_command` works on the entry that comes first in the queues, and chooses what to do by
the opcode of the new command. Both agree for reads and writes, whose datapath goes by the state byte of
the entry it gets.
-/

namespace Sdssd.Fw

open Framework

/-- The state byte fits a pending entry: a request to send, or a completion that is set up. -/
def Hdc.Ready (s : Hdc) (x : Nat) : Prop :=
  (s.entry x).state = .queued ∨
    (s.entry x).state = .phifCplReady ∧ s.cpl (s.entry x).cmdTag = setupPhifCmdCpl (s.entry x)

/-- No entry is pending twice, and all pending ones are ready. -/
def Hdc.Proper (s : Hdc) : Prop := s.pending.Nodup ∧ ∀ x ∈ s.pending, s.Ready x

/-- An entry is still pending, or what it was pending for has been sent. -/
def Served (env : HdcEnv) (s : Hdc) (waiting : List Nat) (new : List HdcEvent) (x : Nat) : Prop :=
  x ∈ waiting ∨ .cmdReq x (some (setupPhifCmdReq env (s.entry x))) ∈ new ∨
    .cmdCpl x (setupPhifCmdCpl (s.entry x)) ∈ new

/-- A call for entry `e` from `s` to `s'` with result `res` loses no pending command, stores a status in
no other entry, and leaves a command it calls invalid in no queue. -/
structure LosesNothing (env : HdcEnv) (s : Hdc) (e : Nat) (res : NvmeRequest) (s' : Hdc) : Prop where
  served : ∃ new, s'.log = s.log ++ new ∧ ∀ x ∈ s.pending, Served env s s'.pending new x
  blame : ∀ x, x ≠ e → (s'.entry x).staSct = (s.entry x).staSct ∧ (s'.entry x).staSc = (s.entry x).staSc
  dropped : res = .invalid → e ∉ s'.pending

/-- A datapath call that started at `s₀` has come to `s`, with entry `h` in hand. -/
structure Draining (env : HdcEnv) (s₀ : Hdc) (h : Option Nat) (s : Hdc) : Prop where
  nodup : (h.toList ++ s.pending).Nodup
  ready : ∀ x ∈ h.toList ++ s.pending, s.Ready x
  same : ∀ x, ∃ st, s.entry x = { s₀.entry x with state := st }
  served : ∃ new, s.log = s₀.log ++ new ∧ ∀ x ∈ s₀.pending, Served env s₀ (h.toList ++ s.pending) new x

namespace Draining

variable {env : HdcEnv} {s₀ s s' : Hdc} {x : Nat} {h : Option Nat}

/-- Entries other than the one in hand. -/
theorem ready_of_ne {st : FlowState} {y : Nat} (hready : s.Ready y) (hne : y ≠ x)
    (hentry : s'.entry = (s.setState x st).entry) (hcpl : s'.cpl = s.cpl) : s'.Ready y := by
  have hy : s'.entry y = s.entry y := by
    rw [hentry]
    exact Hdc.setState_of_ne _ _ hne
  rw [Hdc.Ready,hy,hcpl]
  exact hready

theorem same_setState (hs : Draining env s₀ h s) {st : FlowState}
    (hentry : s'.entry = (s.setState x st).entry) (y : Nat) :
    ∃ st, s'.entry y = { s₀.entry y with state := st } := by
  obtain ⟨st',hy⟩ := hs.same y
  rw [hentry]
  by_cases hne : y = x
  · subst hne
    exact ⟨st,by rw [Hdc.setState_self,hy]⟩
  · exact ⟨st',by rw [Hdc.setState_of_ne _ _ hne,hy]⟩

/-- What the entry in hand was pending for is sent. -/
theorem sent (hs : Draining env s₀ (some x) s) {st : FlowState} {ev : HdcEvent} {b : Bool}
    (hentry : s'.entry = (s.setState x st).entry) (hcpl : s'.cpl = s.cpl) (hpend : s'.pending = s.pending)
    (hlog : s'.log = s.log ++ [.datapath x b,ev])
    (hev : ev = .cmdReq x (some (setupPhifCmdReq env (s.entry x))) ∨
      ev = .cmdCpl x (setupPhifCmdCpl (s.entry x))) : Draining env s₀ none s' := by
  obtain ⟨hx,hnodup⟩ := List.nodup_cons.mp hs.nodup
  constructor
  case nodup =>
    rw [hpend]
    exact hnodup
  case ready =>
    intro y hy
    rw [hpend] at hy
    exact ready_of_ne (hs.ready y (List.mem_cons_of_mem x hy)) (ne_of_mem_of_not_mem hy hx) hentry hcpl
  case same => exact hs.same_setState hentry
  case served =>
    obtain ⟨new,hnew,hserved⟩ := hs.served
    obtain ⟨st',hx⟩ := hs.same x
    refine ⟨new ++ [.datapath x b,ev],by rw [hlog,hnew,List.append_assoc],?_⟩
    intro y hy
    rcases hserved y hy with hwait | hreq | hcplt
    · rcases List.mem_cons.mp hwait with rfl | hwait
      · -- the request and the completion do not depend on the state byte
        rw [hx] at hev
        rcases hev with rfl | rfl
        · exact Or.inr (Or.inl (by simp [setupPhifCmdReq]))
        · exact Or.inr (Or.inr (by simp [setupPhifCmdCpl]))
      · exact Or.inl (hpend ▸ hwait)
    · exact Or.inr (Or.inl (List.mem_append_left _ hreq))
    · exact Or.inr (Or.inr (List.mem_append_left _ hcplt))

/-- The port is busy, and the entry in hand goes back into a queue. -/
theorem back (hs : Draining env s₀ (some x) s) {st : FlowState} {b : Bool}
    (hentry : s'.entry = (s.setState x st).entry) (hcpl : s'.cpl = s.cpl)
    (hpend : s'.pending.Perm (x :: s.pending)) (hlog : s'.log = s.log ++ [.datapath x b])
    (hready : s'.Ready x) : Draining env s₀ none s' := by
  constructor
  case nodup => exact hpend.nodup_iff.mpr hs.nodup
  case ready =>
    intro y hy
    by_cases hyx : y = x
    · exact hyx ▸ hready
    · exact ready_of_ne (hs.ready y (hpend.mem_iff.mp hy)) hyx hentry hcpl
  case same => exact hs.same_setState hentry
  case served =>
    obtain ⟨new,hnew,hserved⟩ := hs.served
    refine ⟨new ++ [.datapath x b],by rw [hlog,hnew,List.append_assoc],?_⟩
    intro y hy
    rcases hserved y hy with hwait | hreq | hcplt
    · exact Or.inl (hpend.mem_iff.mpr hwait)
    · exact Or.inr (Or.inl (List.mem_append_left _ hreq))
    · exact Or.inr (Or.inr (List.mem_append_left _ hcplt))

theorem pass (hs : Draining env s₀ (some x) s) (b : Bool) :
    Draining env s₀ none (flowPass env (s.record (.datapath x b)) x).1 := by
  rcases hs.ready x List.mem_cons_self with hstate | ⟨hstate,hset⟩
  · rw [flowPass_queued (s := s.record (.datapath x b)) hstate]
    split
    · exact hs.sent rfl rfl rfl (List.append_assoc ..) (Or.inl rfl)
    · exact hs.back rfl rfl (List.Perm.refl _) rfl (Or.inl (by rw [Hdc.setState_self]))
  · rw [flowPass_cplReady (s := s.record (.datapath x b)) hstate]
    split
    · exact hs.sent rfl rfl rfl (List.append_assoc ..) (Or.inr (congrArg _ hset))
    · refine hs.back rfl rfl List.perm_middle rfl (Or.inr ?_)
      rw [Hdc.setState_self]
      exact ⟨rfl,hset⟩

theorem next (hs : Draining env s₀ none s) (hnext : getNextHostCmdEntry s = (some x,s')) :
    Draining env s₀ (some x) s' := by
  obtain ⟨hperm,hentry,hcpl,hlog⟩ := getNextHostCmdEntry_pending hnext
  constructor
  case nodup => exact hperm.nodup_iff.mp hs.nodup
  case ready =>
    intro y hy
    rw [Hdc.Ready,hentry,hcpl]
    exact hs.ready y (hperm.mem_iff.mpr hy)
  case same =>
    rw [hentry]
    exact hs.same
  case served =>
    obtain ⟨new,hnew,hserved⟩ := hs.served
    exact ⟨new,hlog.trans hnew,fun y hy => (hserved y hy).imp_left hperm.mem_iff.mp⟩

theorem datapathHdc {n : Nat} (hs : Draining env s₀ (some x) s)
    (hrun : Fw.datapathHdc env n s x = some s') : Draining env s₀ none s' := by
  apply datapathHdc_invariant (Draining env s₀) ?_ ?_ hs hrun
  · intro t y ht
    exact ht.pass _
  · intro t y u ht hnext
    exact ht.next hnext

/-- A read or write command is put behind entries that are all ready. -/
theorem start (hs : s.Proper) (hx : x ∉ s.pending) :
    Draining env s none ({ s with cmdPend := s.cmdPend ++ [x] }.setState x .queued) := by
  have hperm : (s.cmdPend ++ [x] ++ s.cplPend).Perm (x :: s.pending) := by
    rw [List.append_assoc]
    exact List.perm_middle
  constructor
  case nodup => exact hperm.nodup_iff.mpr (List.nodup_cons.mpr ⟨hx,hs.1⟩)
  case ready =>
    intro y hy
    rcases List.mem_cons.mp (hperm.mem_iff.mp hy) with rfl | hy
    · exact Or.inl (by rw [Hdc.setState_self])
    · exact ready_of_ne (hs.2 y hy) (ne_of_mem_of_not_mem hy hx) rfl rfl
  case same =>
    intro y
    by_cases hyx : y = x
    · subst hyx
      exact ⟨_,Hdc.setState_self ..⟩
    · exact ⟨_,Hdc.setState_of_ne _ _ hyx⟩
  case served =>
    refine ⟨[],(List.append_nil _).symm,?_⟩
    intro y hy
    exact Or.inl (hperm.mem_iff.mpr (List.mem_cons_of_mem x hy))

theorem losesNothing {e : Nat} (hs : Draining env s₀ none s) : LosesNothing env s₀ e .processing s := by
  constructor
  case served => exact hs.served
  case blame =>
    intro y _
    obtain ⟨st,hy⟩ := hs.same y
    rw [hy]
    exact ⟨rfl,rfl⟩
  case dropped => nofun

end Draining

/-- The new command fails the checks, or it is a read or write command and all that is pending is ready,
or nothing is pending. -/
def Hdc.DispatchSafe (env : HdcEnv) (s : Hdc) (e : Nat) : Prop :=
  ¬ env.Accepts (s.entry e).sqe ∨ (s.entry e).sqe.IsRw ∧ s.Proper ∨ s.pending = []

section Dispatch

variable {env : HdcEnv} {s t : Hdc} {e x : Nat}

theorem Hdc.DispatchSafe.proper (hsafe : s.DispatchSafe env e) (hacc : env.Accepts (s.entry e).sqe) :
    s.Proper := by
  rcases hsafe with hrej | ⟨-,hproper⟩ | hnil
  · exact absurd hacc hrej
  · exact hproper
  · rw [Hdc.Proper,hnil]
    exact ⟨List.nodup_nil,nofun⟩

theorem Hdc.DispatchSafe.pending_eq_nil (hsafe : s.DispatchSafe env e)
    (hacc : env.Accepts (s.entry e).sqe) (hrw : ¬ (s.entry e).sqe.IsRw) : s.pending = [] := by
  rcases hsafe with hrej | ⟨hrw',-⟩ | hnil
  · exact absurd hacc hrej
  · exact absurd hrw' hrw
  · exact hnil

theorem losesNothing_rejected (he : e ∉ s.pending) (sct sc : Nat) :
    LosesNothing env s e .invalid (s.setStatus e sct sc) := by
  constructor
  case served => exact ⟨[],(List.append_nil _).symm,fun y hy => Or.inl hy⟩
  case blame =>
    intro y hy
    rw [Hdc.setStatus,Hdc.setEntry_of_ne _ _ hy]
    exact ⟨rfl,rfl⟩
  case dropped =>
    intro _
    exact he

/-- With nothing pending the first entry is the new one. -/
theorem getNextHostCmdEntry_alone (hs : s.pending = [])
    (hnext : getNextHostCmdEntry { s with cmdPend := s.cmdPend ++ [e] } = (some x,t)) :
    x = e ∧ t.pending = [] ∧ t.entry = s.entry ∧ t.log = s.log := by
  obtain ⟨hcmd,hcpl⟩ := List.append_eq_nil_iff.mp hs
  obtain ⟨hperm,hentry,-,hlog⟩ := getNextHostCmdEntry_pending hnext
  simp only [Hdc.pending,hcmd,hcpl,List.nil_append,List.append_nil,List.singleton_perm] at hperm
  obtain ⟨rfl,hnil⟩ := List.cons.inj hperm
  exact ⟨rfl,hnil.symm,hentry,hlog⟩

/-- The port was busy when the write on tag 5 arrived. -/
def writeWaits : Hdc := stepOr busyAtFirst Hdc.init (ioCommand 5 nvmeIoWrite)

/-- A command on tag 6 arrives behind the write, and its handler is called. -/
def behindWrite (opcode : Nat) : Hdc :=
  saveInHostCmdEntry (writeWaits.record (.nvmeCmd 6)) 6 ⟨6,1,0,0,0,⟨opcode,0,0,8,0,0,0⟩⟩

end Dispatch

end Sdssd.Fw
