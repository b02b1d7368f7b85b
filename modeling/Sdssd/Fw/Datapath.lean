import Mathlib.Algebra.Group.Nat.Defs
import Mathlib.Data.List.Basic
import Mathlib.Logic.Function.Basic

/-!
# Host commands in the firmware

`datapath.c`, `host_read.c` and `host_write.c`: the handlers of new host commands and of PHIF responses,
the two pending queues, and the state machine that takes a command from its request to its completion.
The queues are deques of command entries, as `queue.h` describes them.
-/

namespace Sdssd.Fw

/-- `WRITE_FLOW_STATE` and `READ_FLOW_STATE`, which have the same members in the same order. -/
inductive FlowState
  | initial
  | queued
  | phifReqReady
  | phifReqSendout
  | waitPhifRsp
  | hasPhifRsp
  | phifCplReady
  | phifCplSendout
  | complete
  deriving DecidableEq, Repr

def nvmeIoFlush : Nat := 0x00
def nvmeIoWrite : Nat := 0x01
def nvmeIoRead : Nat := 0x02
def nvmeIoCompare : Nat := 0x05

def nvmeSctGeneric : Nat := 0x0
def nvmeScInvalidOpcode : Nat := 0x1
def nvmeScInvalidField : Nat := 0x2
def nvmeScInvalidNs : Nat := 0xb
def nvmeScLbaRange : Nat := 0x80

/-- The fields of `struct nvme_command` that the handlers read. -/
structure NvmeCommand where
  opcode : Nat
  flags : Nat
  nsid : Nat
  slba : Nat
  length : Nat
  control : Nat
  dsmgmt : Nat
  deriving DecidableEq, Repr

/-- `host_nvme_cmd_entry` without the queue node and the chunk count. -/
structure HostNvmeCmdEntry where
  cmdTag : Nat
  state : FlowState
  sqid : Nat
  vfa : Nat
  port : Nat
  vf : Nat
  sqe : NvmeCommand
  result : Nat
  staSc : Nat
  staSct : Nat
  deriving DecidableEq, Repr

/-- `hdc_nvme_cmd`, the message that announces a new host command. -/
structure HdcNvmeCmd where
  tag : Nat
  sqid : Nat
  vfa : Nat
  port : Nat
  vf : Nat
  sqe : NvmeCommand
  deriving DecidableEq, Repr

/-- `phif_cmd_req` without the fields that are the same in all requests. A field that
`setup_phif_cmd_req` may leave alone is `none` then. -/
structure PhifCmdReq where
  tag : Nat
  vfa : Nat
  port : Nat
  vf : Nat
  sqid : Nat
  cpa : Nat
  hmetaSize : Nat
  cphSize : Nat
  lbSize : Option Nat
  dps : Nat
  flbas : Nat
  cacheEn : Nat
  bandRdtype : Option Nat
  elba : Option Nat
  deriving DecidableEq, Repr

/-- `phif_cmd_cpl` without the fields that are the same in all completions. -/
structure PhifCmdCpl where
  tag : Nat
  vfa : Nat
  port : Nat
  vf : Nat
  sqid : Nat
  result : Nat
  status : Nat
  deriving DecidableEq, Repr

structure NvmeLbaf where
  ms : Nat
  ds : Nat
  cphs : Nat

structure NvmeIdNs where
  flbas : Nat
  dps : Nat
  lbaf : Nat → NvmeLbaf

/-- What the handlers run against: the capacity, the number of namespaces, what is read at the place of
the namespace data of each `nsid`, and whether the message port is free at each attempt to send. -/
structure HdcEnv where
  maxLba : Nat
  nn : Nat
  getIdentifyNs : Nat → NvmeIdNs
  portIsAvailable : Nat → Bool

/-- Messages over the port, and the calls of the two datapath functions with the port as they find it.
Requests and completions come with the entry they are sent for. -/
inductive HdcEvent
  | nvmeCmd (e : Nat)
  | cmdRsp (e : Nat)
  | datapath (e : Nat) (available : Bool)
  | cmdReq (e : Nat) (req : Option PhifCmdReq)
  | cmdCpl (e : Nat) (cpl : PhifCmdCpl)
  deriving DecidableEq, Repr

/-- The entry that an event is about. -/
def HdcEvent.about : HdcEvent → Nat
  | .nvmeCmd e => e
  | .cmdRsp e => e
  | .datapath e _ => e
  | .cmdReq e _ => e
  | .cmdCpl e _ => e

/-- `gat_host_nvme_cmd_array`, `gat_host_cmd_cpl_array` and the two pending queues; `sends` is the
number of attempts to send. -/
structure Hdc where
  entry : Nat → HostNvmeCmdEntry
  cpl : Nat → PhifCmdCpl
  cmdPend : List Nat
  cplPend : List Nat
  sends : Nat
  log : List HdcEvent

namespace Hdc

def setEntry (s : Hdc) (e : Nat) (x : HostNvmeCmdEntry) : Hdc :=
  { s with entry := Function.update s.entry e x }

def setState (s : Hdc) (e : Nat) (st : FlowState) : Hdc := s.setEntry e { s.entry e with state := st }

/-- `set_host_cmd_staus`. -/
def setStatus (s : Hdc) (e sct sc : Nat) : Hdc :=
  s.setEntry e { s.entry e with staSct := sct, staSc := sc }

def setCpl (s : Hdc) (tag : Nat) (c : PhifCmdCpl) : Hdc := { s with cpl := Function.update s.cpl tag c }

def record (s : Hdc) (ev : HdcEvent) : Hdc := { s with log := s.log ++ [ev] }

/-- The entries in the two queues. -/
def pending (s : Hdc) : List Nat := s.cmdPend ++ s.cplPend

/-- Entries in the two queues. -/
def pendingCnt (s : Hdc) : Nat := s.cmdPend.length + s.cplPend.length

variable (s : Hdc) (e : Nat)

@[simp] theorem setEntry_self (x : HostNvmeCmdEntry) : (s.setEntry e x).entry e = x :=
  Function.update_self ..

theorem setEntry_of_ne {e x : Nat} (y : HostNvmeCmdEntry) (h : x ≠ e) :
    (s.setEntry e y).entry x = s.entry x :=
  Function.update_of_ne h ..

@[simp] theorem setEntry_setEntry (x y : HostNvmeCmdEntry) :
    (s.setEntry e x).setEntry e y = s.setEntry e y := by
  simp [setEntry]

@[simp] theorem setState_self (st : FlowState) :
    (s.setState e st).entry e = { s.entry e with state := st } :=
  setEntry_self ..

theorem setState_of_ne {e x : Nat} (st : FlowState) (h : x ≠ e) :
    (s.setState e st).entry x = s.entry x :=
  setEntry_of_ne s _ h

theorem setStatus_state (x y sct sc : Nat) :
    ((s.setStatus x sct sc).entry y).state = (s.entry y).state := by
  by_cases h : y = x
  · subst h
    rw [setStatus,setEntry_self]
  · rw [setStatus,setEntry_of_ne _ _ h]

@[simp] theorem setState_setState (a b : FlowState) :
    (s.setState e a).setState e b = s.setState e b := by
  simp [setState]

end Hdc

/-- The sizes that `lb_size` can encode. -/
def lbSizeOf (lbaSize : Nat) : Option Nat :=
  if lbaSize = 512 then some 0
  else if lbaSize = 4096 then some 1
  else if lbaSize = 16384 then some 2
  else none

/-- The switch over the latency hint of a read. The hint has two bits, the cases have it shifted by
four: any hint other than none ends `setup_phif_cmd_req` there. -/
def readBand (latency : Nat) : Option Nat :=
  if latency = 0 <<< 4 then some 1
  else if latency = 1 <<< 4 then some 2
  else if latency = 2 <<< 4 then some 1
  else if latency = 3 <<< 4 then some 0
  else none

/-- `setup_phif_cmd_req`. -/
def setupPhifCmdReq (env : HdcEnv) (x : HostNvmeCmdEntry) : PhifCmdReq :=
  let ns := env.getIdentifyNs x.sqe.nsid
  let lbaf := ns.lbaf (ns.flbas &&& 0xf)
  let fua := x.sqe.control / 2^14 % 2
  let latency := x.sqe.dsmgmt / 2^4 % 2^2
  let elba := (x.sqe.nsid <<< 32 ||| x.sqe.slba) % 2^35
  let band := if x.sqe.opcode = nvmeIoRead then readBand latency
    else if x.sqe.opcode = nvmeIoWrite then some 1 else none
  { tag := x.cmdTag
    vfa := x.vfa
    port := x.port
    vf := x.vf
    sqid := x.sqid
    cpa := x.sqe.slba % 2^32
    hmetaSize := lbaf.ms / 8 % 2^3
    cphSize := lbaf.cphs % 2^2
    lbSize := lbSizeOf (1 <<< lbaf.ds % 2^16)
    dps := ns.dps % 2^4
    flbas := ns.flbas % 2^5
    cacheEn := 1 - fua
    bandRdtype := band
    elba := if x.sqe.opcode = nvmeIoRead ∧ readBand latency = none then none else some elba }

/-- `setup_phif_cmd_cpl`. -/
def setupPhifCmdCpl (x : HostNvmeCmdEntry) : PhifCmdCpl :=
  ⟨x.cmdTag,x.vfa,x.port,x.vf,x.sqid,x.result,(x.staSc <<< 1 ||| x.staSct <<< 9) % 2^16⟩

/-- `send_phif_cmd_req` and `send_phif_cmd_cpl`: the result is true when the port is not available. -/
def sendMsg (env : HdcEnv) (s : Hdc) (msg : HdcEvent) : Bool × Hdc :=
  let busy := !env.portIsAvailable s.sends
  let s := { s with sends := s.sends + 1 }
  (busy,if busy then s else s.record msg)

def sendPhifCmdReq (env : HdcEnv) (s : Hdc) (e : Nat) (req : Option PhifCmdReq) : Bool × Hdc :=
  sendMsg env s (.cmdReq e req)

def sendPhifCmdCpl (env : HdcEnv) (s : Hdc) (e : Nat) (cpl : PhifCmdCpl) : Bool × Hdc :=
  sendMsg env s (.cmdCpl e cpl)

def getNextHostCmdEntry (s : Hdc) : Option Nat × Hdc :=
  match s.cplPend with
  | e :: q => (some e,{ s with cplPend := q })
  | [] => match s.cmdPend with
    | e :: q => (some e,{ s with cmdPend := q })
    | [] => (none,s)

/-- The switch from `PHIF_REQ_READY` on. -/
def reqReady (env : HdcEnv) (s : Hdc) (e : Nat) (req : Option PhifCmdReq) : Hdc :=
  match sendPhifCmdReq env s e req with
  | (true,s) => { s with cmdPend := e :: s.cmdPend }.setState e .queued
  | (false,s) => (s.setState e .phifReqSendout).setState e .waitPhifRsp

/-- The switch from `PHIF_CPL_READY` on. The second result says whether it comes to `COMPLETE`. -/
def cplReady (env : HdcEnv) (s : Hdc) (e : Nat) : Hdc × Bool :=
  match sendPhifCmdCpl env s e (s.cpl (s.entry e).cmdTag) with
  | (true,s) => ({ s with cplPend := e :: s.cplPend }.setState e .phifCplReady,false)
  | (false,s) => ((s.setState e .phifCplSendout).setState e .complete,true)

/-- One pass through the switch, up to the code of `COMPLETE`. The request is a local variable that
only the case `QUEUED` sets up. -/
def flowPass (env : HdcEnv) (s : Hdc) (e : Nat) : Hdc × Bool :=
  match (s.entry e).state with
  | .initial => (s,false)
  | .queued =>
    (reqReady env (s.setState e .phifReqReady) e (some (setupPhifCmdReq env (s.entry e))),false)
  | .phifReqReady => (reqReady env s e none,false)
  | .phifReqSendout => (s.setState e .waitPhifRsp,false)
  | .waitPhifRsp => (s,false)
  | .hasPhifRsp =>
    cplReady env ((s.setCpl (s.entry e).cmdTag (setupPhifCmdCpl (s.entry e))).setState e .phifCplReady) e
  | .phifCplReady => cplReady env s e
  | .phifCplSendout => (s.setState e .complete,true)
  | .complete => (s,true)

/-- The body that `write_datapath_hdc` and `read_datapath_hdc` share; the case `COMPLETE` calls itself
for the next pending entry. -/
def datapathHdc (env : HdcEnv) : Nat → Hdc → Nat → Option Hdc
  | 0, _, _ => none
  | n+1, s, e =>
    match flowPass env (s.record (.datapath e (env.portIsAvailable s.sends))) e with
    | (s,false) => some s
    | (s,true) => match getNextHostCmdEntry s with
      | (none,s) => some s
      | (some e,s) => datapathHdc env n s e

section Pass

variable {env : HdcEnv} {s : Hdc} {e : Nat}

/-- A queued command: its request leaves, or it goes back to the front of its queue. -/
theorem flowPass_queued (h : (s.entry e).state = .queued) :
    flowPass env s e = (if env.portIsAvailable s.sends then
      ({ s with sends := s.sends + 1 }.record
        (.cmdReq e (some (setupPhifCmdReq env (s.entry e))))).setState e .waitPhifRsp
      else { s with sends := s.sends + 1, cmdPend := e :: s.cmdPend }.setState e .queued,false) := by
  cases hport : env.portIsAvailable s.sends <;>
    simp [flowPass,h,reqReady,sendPhifCmdReq,sendMsg,hport,Hdc.setState,Hdc.setEntry,Hdc.record]

/-- A completion that is ready: it leaves, or its entry goes to the front of the queue. -/
theorem flowPass_cplReady (h : (s.entry e).state = .phifCplReady) :
    flowPass env s e = if env.portIsAvailable s.sends then
      (({ s with sends := s.sends + 1 }.record
        (.cmdCpl e (s.cpl (s.entry e).cmdTag))).setState e .complete,true)
      else ({ s with sends := s.sends + 1, cplPend := e :: s.cplPend }.setState e .phifCplReady,false) := by
  cases hport : env.portIsAvailable s.sends <;>
    simp [flowPass,h,cplReady,sendPhifCmdCpl,sendMsg,hport,Hdc.setState,Hdc.setEntry,Hdc.record]

/-- After a response the completion is prepared first. -/
theorem flowPass_hasPhifRsp (h : (s.entry e).state = .hasPhifRsp) :
    flowPass env s e = flowPass env
      ((s.setCpl (s.entry e).cmdTag (setupPhifCmdCpl (s.entry e))).setState e .phifCplReady) e := by
  rw [flowPass,h]
  simp [flowPass]

theorem flowPass_initial (h : (s.entry e).state = .initial) : flowPass env s e = (s,false) := by
  rw [flowPass,h]

theorem flowPass_complete (h : (s.entry e).state = .complete) : flowPass env s e = (s,true) := by
  rw [flowPass,h]

/-- What one pass can do: nothing, move the state byte on, send the request or queue its entry again, and
send the completion or queue its entry. The completion may have been prepared before. -/
inductive PassEffect (env : HdcEnv) (s : Hdc) (e : Nat) : Hdc × Bool → Prop
  | idle (more : Bool) : PassEffect env s e (s,more)
  | moved (st : FlowState) (more : Bool) (hst : st = .waitPhifRsp ∨ st = .complete) :
      PassEffect env s e (s.setState e st,more)
  | requested (req : Option PhifCmdReq)
      (hreq : (s.entry e).state = .queued ∧ req = some (setupPhifCmdReq env (s.entry e)) ∨ req = none) :
      PassEffect env s e
        (({ s with sends := s.sends + 1 }.record (.cmdReq e req)).setState e .waitPhifRsp,false)
  | requeued (hstate : (s.entry e).state = .queued ∨ (s.entry e).state = .phifReqReady) :
      PassEffect env s e ({ s with sends := s.sends + 1, cmdPend := e :: s.cmdPend }.setState e .queued,false)
  | completed (cpl : Nat → PhifCmdCpl) (c : PhifCmdCpl)
      (hcpl : ∀ tag, tag ≠ (s.entry e).cmdTag → cpl tag = s.cpl tag) :
      PassEffect env s e
        (({ s with cpl := cpl, sends := s.sends + 1 }.record (.cmdCpl e c)).setState e .complete,true)
  | postponed (cpl : Nat → PhifCmdCpl) (hcpl : ∀ tag, tag ≠ (s.entry e).cmdTag → cpl tag = s.cpl tag) :
      PassEffect env s e ({ s with cpl := cpl, sends := s.sends + 1, cplPend := e :: s.cplPend }.setState e
        .phifCplReady,false)

theorem flowPass_effect (env : HdcEnv) (s : Hdc) (e : Nat) : PassEffect env s e (flowPass env s e) := by
  cases hstate : (s.entry e).state with
  | initial =>
    rw [flowPass_initial hstate]
    exact .idle false
  | queued =>
    rw [flowPass_queued hstate]
    split
    · exact .requested _ (Or.inl ⟨hstate,rfl⟩)
    · exact .requeued (Or.inl hstate)
  | phifReqReady =>
    rw [flowPass,hstate]
    cases hport : env.portIsAvailable s.sends with
    | true =>
      have heffect : PassEffect env s e _ := .requested none (Or.inr rfl)
      simpa [reqReady,sendPhifCmdReq,sendMsg,hport] using heffect
    | false =>
      have heffect : PassEffect env s e _ := .requeued (Or.inr hstate)
      simpa [reqReady,sendPhifCmdReq,sendMsg,hport] using heffect
  | phifReqSendout =>
    rw [flowPass,hstate]
    exact .moved .waitPhifRsp false (Or.inl rfl)
  | waitPhifRsp =>
    rw [flowPass,hstate]
    exact .idle false
  | hasPhifRsp =>
    let tag := (s.entry e).cmdTag
    let c := setupPhifCmdCpl (s.entry e)
    have hcpl : ∀ x, x ≠ tag → Function.update s.cpl tag c x = s.cpl x := fun x hx => Function.update_of_ne hx ..
    rw [flowPass_hasPhifRsp hstate,flowPass_cplReady (by rw [Hdc.setState_self])]
    cases hport : env.portIsAvailable s.sends with
    | true =>
      have heffect : PassEffect env s e _ := .completed (Function.update s.cpl tag c) c hcpl
      simpa [Hdc.setState,Hdc.setEntry,Hdc.setCpl,Hdc.record,hport,tag,c] using heffect
    | false =>
      have heffect : PassEffect env s e _ := .postponed (Function.update s.cpl tag c) hcpl
      simpa [Hdc.setState,Hdc.setEntry,Hdc.setCpl,hport,tag,c] using heffect
  | phifCplReady =>
    rw [flowPass_cplReady hstate]
    split
    · exact .completed s.cpl _ fun _ _ => rfl
    · exact .postponed s.cpl fun _ _ => rfl
  | phifCplSendout =>
    rw [flowPass,hstate]
    exact .moved .complete true (Or.inr rfl)
  | complete =>
    rw [flowPass_complete hstate]
    exact .idle true

/-- A pass writes nothing but the state byte of its entry. -/
theorem flowPass_entry (env : HdcEnv) (s : Hdc) (e : Nat) :
    ∃ st, (flowPass env s e).1.entry = (s.setState e st).entry := by
  have h := flowPass_effect env s e
  generalize flowPass env s e = r at h ⊢
  cases h with
  | idle more => exact ⟨(s.entry e).state,by simp [Hdc.setState,Hdc.setEntry]⟩
  | moved st more _ => exact ⟨st,rfl⟩
  | requested req _ => exact ⟨.waitPhifRsp,rfl⟩
  | requeued _ => exact ⟨.queued,rfl⟩
  | completed cpl c _ => exact ⟨.complete,rfl⟩
  | postponed cpl _ => exact ⟨.phifCplReady,rfl⟩

/-- Completions are prepared at the tag of the entry. -/
theorem flowPass_cpl {tag : Nat} (htag : tag ≠ (s.entry e).cmdTag) :
    (flowPass env s e).1.cpl tag = s.cpl tag := by
  have h := flowPass_effect env s e
  generalize flowPass env s e = r at h ⊢
  cases h with
  | completed cpl c hcpl => exact hcpl tag htag
  | postponed cpl hcpl => exact hcpl tag htag
  | _ => rfl

/-- What a pass sends, it sends for its entry. -/
theorem flowPass_log (env : HdcEnv) (s : Hdc) (e : Nat) :
    ∃ new, (flowPass env s e).1.log = s.log ++ new ∧ ∀ ev ∈ new, ev.about = e := by
  have hnone : ∃ new, s.log = s.log ++ new ∧ ∀ ev ∈ new, ev.about = e :=
    ⟨[],(List.append_nil _).symm,fun _ hev => absurd hev List.not_mem_nil⟩
  have hone (ev : HdcEvent) (hev : ev.about = e) :
      ∃ new, s.log ++ [ev] = s.log ++ new ∧ ∀ ev ∈ new, ev.about = e := by
    refine ⟨[ev],rfl,?_⟩
    intro x hx
    rw [List.mem_singleton.mp hx]
    exact hev
  have h := flowPass_effect env s e
  generalize flowPass env s e = r at h ⊢
  cases h with
  | requested req _ => exact hone (.cmdReq e req) rfl
  | completed cpl c _ => exact hone (.cmdCpl e c) rfl
  | _ => exact hnone

/-- A pass that comes to `COMPLETE` has put nothing into the queues. -/
theorem flowPass_pendingCnt (hmore : (flowPass env s e).2 = true) :
    (flowPass env s e).1.pendingCnt = s.pendingCnt := by
  have h := flowPass_effect env s e
  generalize flowPass env s e = r at h hmore ⊢
  cases h with
  | requeued => cases hmore
  | postponed => cases hmore
  | _ => rfl

theorem getNextHostCmdEntry_pendingCnt {x : Nat} {s' : Hdc} (h : getNextHostCmdEntry s = (some x,s')) :
    s'.pendingCnt + 1 = s.pendingCnt := by
  unfold getNextHostCmdEntry at h
  unfold Hdc.pendingCnt
  split at h
  case h_1 hq =>
    cases h
    simp only [hq,List.length_cons]
    omega
  case h_2 hq =>
    split at h
    case h_1 hq' =>
      cases h
      simp only [hq,hq',List.length_cons]
      omega
    case h_2 => cases h

/-- The next entry leaves its queue, and nothing else changes. -/
theorem getNextHostCmdEntry_pending {x : Nat} {s' : Hdc} (h : getNextHostCmdEntry s = (some x,s')) :
    s.pending.Perm (x :: s'.pending) ∧ s'.entry = s.entry ∧ s'.cpl = s.cpl ∧ s'.log = s.log := by
  unfold getNextHostCmdEntry at h
  unfold Hdc.pending
  split at h
  case h_1 q hq =>
    cases h
    rw [hq]
    exact ⟨List.perm_middle,rfl,rfl,rfl⟩
  case h_2 hq =>
    split at h
    case h_1 q hq' =>
      cases h
      rw [hq']
      exact ⟨List.Perm.refl _,rfl,rfl,rfl⟩
    case h_2 => cases h

/-- Each call takes one entry from the queues before it calls itself. -/
theorem datapathHdc_returns {n : Nat} (h : s.pendingCnt < n) : ∃ s', datapathHdc env n s e = some s' := by
  induction n generalizing s e with
  | zero => exact absurd h (Nat.not_lt_zero _)
  | succ n ih =>
    rw [datapathHdc]
    have hcnt (u : Hdc) : (flowPass env u e).2 = true → (flowPass env u e).1.pendingCnt = u.pendingCnt :=
      flowPass_pendingCnt
    replace hcnt := hcnt (s.record (.datapath e (env.portIsAvailable s.sends)))
    generalize flowPass env (s.record (.datapath e (env.portIsAvailable s.sends))) e = r at hcnt ⊢
    obtain ⟨t,more⟩ := r
    cases more with
    | false => exact ⟨t,rfl⟩
    | true =>
      have ht : t.pendingCnt = s.pendingCnt := hcnt rfl
      cases hnext : getNextHostCmdEntry t with
      | mk x u =>
        cases x with
        | none => exact ⟨u,by simp [hnext]⟩
        | some x =>
          have hu := getNextHostCmdEntry_pendingCnt hnext
          obtain ⟨s',hs'⟩ := ih (s := u) (e := x) (by omega)
          exact ⟨s',by simp [hnext,hs']⟩

theorem getNextHostCmdEntry_none {s' : Hdc} (h : getNextHostCmdEntry s = (none,s')) : s' = s := by
  unfold getNextHostCmdEntry at h
  split at h
  case h_1 => cases h
  case h_2 =>
    split at h
    case h_1 => cases h
    case h_2 => exact (Prod.mk.inj h).2.symm

/-- What one pass and the choice of the next entry preserve, a whole call preserves. The first argument
of `I` is the entry in hand. -/
theorem datapathHdc_invariant (I : Option Nat → Hdc → Prop)
    (hpass : ∀ s e, I (some e) s →
      I none (flowPass env (s.record (.datapath e (env.portIsAvailable s.sends))) e).1)
    (hnext : ∀ s e s', I none s → getNextHostCmdEntry s = (some e,s') → I (some e) s')
    {n : Nat} {s' : Hdc} (hs : I (some e) s) (hrun : datapathHdc env n s e = some s') : I none s' := by
  induction n generalizing s e with
  | zero => cases hrun
  | succ n ih =>
    rw [datapathHdc] at hrun
    have ht := hpass s e hs
    generalize flowPass env (s.record (.datapath e (env.portIsAvailable s.sends))) e = r at ht hrun
    obtain ⟨t,more⟩ := r
    cases more with
    | false => exact Option.some.inj hrun ▸ ht
    | true =>
      cases hx : getNextHostCmdEntry t with
      | mk x u =>
        simp only [hx] at hrun
        cases x with
        | none =>
          rw [← Option.some.inj hrun,getNextHostCmdEntry_none hx]
          exact ht
        | some x => exact ih (hnext t x u ht hx) hrun

/-- More fuel makes no difference. -/
theorem datapathHdc_mono {n m : Nat} {s' : Hdc} (h : datapathHdc env n s e = some s') (hm : n ≤ m) :
    datapathHdc env m s e = some s' := by
  induction n generalizing s e m with
  | zero => cases h
  | succ n ih =>
    obtain ⟨m,rfl⟩ : ∃ k, m = k + 1 := ⟨m - 1,by omega⟩
    rw [datapathHdc] at h ⊢
    generalize flowPass env (s.record (.datapath e (env.portIsAvailable s.sends))) e = r at h ⊢
    obtain ⟨t,more⟩ := r
    cases more with
    | false => exact h
    | true =>
      cases hnext : getNextHostCmdEntry t with
      | mk x u =>
        cases x with
        | none =>
          simp only [hnext] at h ⊢
          exact h
        | some x =>
          simp only [hnext] at h ⊢
          exact ih h (by omega)

end Pass

def writeDatapathHdc (env : HdcEnv) (s : Hdc) (e : Nat) : Option Hdc :=
  datapathHdc env (s.pendingCnt + 1) s e

def readDatapathHdc (env : HdcEnv) (s : Hdc) (e : Nat) : Option Hdc :=
  datapathHdc env (s.pendingCnt + 1) s e

/-- `NVME_REQUEST_INVALID`, `NVME_REQUEST_COMPLETE` and `NVME_REQUEST_PROCESSING`. -/
inductive NvmeRequest
  | invalid
  | complete
  | processing
  deriving DecidableEq, Repr

def nvmeNsidValid (nn nsid : Nat) : Bool := !(nn < nsid || nsid == 0)

def handleNvmeIoCommand (env : HdcEnv) (s : Hdc) (e : Nat) : Option (NvmeRequest × Hdc) :=
  let sqe := (s.entry e).sqe
  if env.maxLba < (sqe.slba + sqe.length) % 2^64 then
    some (.invalid,s.setStatus e nvmeSctGeneric nvmeScLbaRange)
  else if nvmeNsidValid env.nn sqe.nsid then
    some (.invalid,s.setStatus e nvmeSctGeneric nvmeScInvalidNs)
  else
    let s := { s with cmdPend := s.cmdPend ++ [e] }
    let s := if sqe.opcode = nvmeIoRead ∨ sqe.opcode = nvmeIoWrite then s.setState e .queued else s
    match getNextHostCmdEntry s with
    | (none,_) => none
    | (some x,s) =>
      if sqe.opcode = nvmeIoRead then (readDatapathHdc env s x).map fun s => (.processing,s)
      else if sqe.opcode = nvmeIoWrite then (writeDatapathHdc env s x).map fun s => (.processing,s)
      else if sqe.opcode = nvmeIoFlush ∨ sqe.opcode = nvmeIoCompare then some (.processing,s)
      else some (.invalid,s.setStatus x nvmeSctGeneric nvmeScInvalidOpcode)

/-- The two checks of `handle_nvme_io_command` let the command pass. -/
def HdcEnv.Accepts (env : HdcEnv) (sqe : NvmeCommand) : Prop :=
  (sqe.slba + sqe.length) % 2^64 ≤ env.maxLba ∧ nvmeNsidValid env.nn sqe.nsid = false

def NvmeCommand.IsRw (sqe : NvmeCommand) : Prop := sqe.opcode = nvmeIoRead ∨ sqe.opcode = nvmeIoWrite

theorem getNextHostCmdEntry_some {s : Hdc} (h : s.cmdPend ≠ []) :
    ∃ x s', getNextHostCmdEntry s = (some x,s') := by
  unfold getNextHostCmdEntry
  cases s.cplPend with
  | cons e q => exact ⟨e,_,rfl⟩
  | nil =>
    cases hq : s.cmdPend with
    | nil => exact absurd hq h
    | cons e q => exact ⟨e,_,rfl⟩

/-- An accepted read or write command is put behind the pending ones, and a datapath function is called
for the first entry. -/
theorem handleNvmeIoCommand_rw {env : HdcEnv} {s : Hdc} {e : Nat} (hacc : env.Accepts (s.entry e).sqe)
    (hrw : (s.entry e).sqe.IsRw) :
    ∃ x t, getNextHostCmdEntry ({ s with cmdPend := s.cmdPend ++ [e] }.setState e .queued) = (some x,t) ∧
      handleNvmeIoCommand env s e =
        (datapathHdc env (t.pendingCnt + 1) t x).map fun s => (.processing,s) := by
  obtain ⟨x,t,hnext⟩ := getNextHostCmdEntry_some
    (s := { s with cmdPend := s.cmdPend ++ [e] }.setState e .queued) (by simp [Hdc.setState,Hdc.setEntry])
  refine ⟨x,t,hnext,?_⟩
  unfold handleNvmeIoCommand
  unfold NvmeCommand.IsRw at hrw
  simp only [Nat.not_lt.mpr hacc.1,hacc.2,if_false,Bool.false_eq_true]
  rw [if_pos hrw,hnext]
  rcases hrw with hr | hw
  · simp [hr,readDatapathHdc]
  · simp [hw,nvmeIoWrite,nvmeIoRead,writeDatapathHdc]

/-- What `handle_nvme_io_command` does with the command of entry `e`: the checks fail, the datapath is
called for the first entry, the first entry is taken from its queue and nothing is done with it, or it
gets the status of an invalid opcode. -/
inductive IoEffect (env : HdcEnv) (s : Hdc) (e : Nat) : NvmeRequest → Hdc → Prop
  | rejected (sc : Nat) (hacc : ¬ env.Accepts (s.entry e).sqe) :
      IoEffect env s e .invalid (s.setStatus e nvmeSctGeneric sc)
  | flow (x : Nat) (t s' : Hdc) (hacc : env.Accepts (s.entry e).sqe) (hrw : (s.entry e).sqe.IsRw)
      (hnext : getNextHostCmdEntry ({ s with cmdPend := s.cmdPend ++ [e] }.setState e .queued) = (some x,t))
      (hrun : datapathHdc env (t.pendingCnt + 1) t x = some s') : IoEffect env s e .processing s'
  | ignored (x : Nat) (t : Hdc) (hacc : env.Accepts (s.entry e).sqe) (hrw : ¬ (s.entry e).sqe.IsRw)
      (hnext : getNextHostCmdEntry { s with cmdPend := s.cmdPend ++ [e] } = (some x,t)) :
      IoEffect env s e .processing t
  | unsupported (x : Nat) (t : Hdc) (hacc : env.Accepts (s.entry e).sqe) (hrw : ¬ (s.entry e).sqe.IsRw)
      (hnext : getNextHostCmdEntry { s with cmdPend := s.cmdPend ++ [e] } = (some x,t)) :
      IoEffect env s e .invalid (t.setStatus x nvmeSctGeneric nvmeScInvalidOpcode)

/-- The status code of the first check that fails. -/
def ioRefusal (env : HdcEnv) (sqe : NvmeCommand) : Option Nat :=
  if env.maxLba < (sqe.slba + sqe.length) % 2^64 then some nvmeScLbaRange
  else if nvmeNsidValid env.nn sqe.nsid then some nvmeScInvalidNs
  else none

theorem ioRefusal_eq_none_iff {env : HdcEnv} {sqe : NvmeCommand} :
    ioRefusal env sqe = none ↔ env.Accepts sqe := by
  unfold ioRefusal HdcEnv.Accepts
  split
  case isTrue hlba => exact iff_of_false (by simp) fun h => absurd hlba (Nat.not_lt.mpr h.1)
  case isFalse hlba =>
    split
    case isTrue hnsid => exact iff_of_false (by simp) fun h => by rw [h.2] at hnsid; cases hnsid
    case isFalse hnsid => exact iff_of_true rfl ⟨Nat.not_lt.mp hlba,Bool.not_eq_true _ ▸ hnsid⟩

theorem handleNvmeIoCommand_refused {env : HdcEnv} {s : Hdc} {e sc : Nat}
    (h : ioRefusal env (s.entry e).sqe = some sc) :
    handleNvmeIoCommand env s e = some (.invalid,s.setStatus e nvmeSctGeneric sc) := by
  unfold ioRefusal at h
  unfold handleNvmeIoCommand
  simp only
  split at h
  case isTrue hlba =>
    cases h
    rw [if_pos hlba]
  case isFalse hlba =>
    split at h
    case isTrue hnsid =>
      cases h
      rw [if_neg hlba,if_pos hnsid]
    case isFalse => cases h

theorem handleNvmeIoCommand_rejected {env : HdcEnv} {s : Hdc} {e : Nat}
    (hacc : ¬ env.Accepts (s.entry e).sqe) :
    ∃ sc, handleNvmeIoCommand env s e = some (.invalid,s.setStatus e nvmeSctGeneric sc) := by
  cases h : ioRefusal env (s.entry e).sqe with
  | none => exact absurd (ioRefusal_eq_none_iff.mp h) hacc
  | some sc => exact ⟨sc,handleNvmeIoCommand_refused h⟩

theorem handleNvmeIoCommand_other {env : HdcEnv} {s : Hdc} {e : Nat} (hacc : env.Accepts (s.entry e).sqe)
    (hrw : ¬ (s.entry e).sqe.IsRw) :
    ∃ x t, getNextHostCmdEntry { s with cmdPend := s.cmdPend ++ [e] } = (some x,t) ∧
      handleNvmeIoCommand env s e = some (
        if (s.entry e).sqe.opcode = nvmeIoFlush ∨ (s.entry e).sqe.opcode = nvmeIoCompare then
          (.processing,t)
        else (.invalid,t.setStatus x nvmeSctGeneric nvmeScInvalidOpcode)) := by
  obtain ⟨x,t,hnext⟩ := getNextHostCmdEntry_some (s := { s with cmdPend := s.cmdPend ++ [e] }) (by simp)
  refine ⟨x,t,hnext,?_⟩
  unfold handleNvmeIoCommand
  unfold NvmeCommand.IsRw at hrw
  simp only [Nat.not_lt.mpr hacc.1,hacc.2,if_false,Bool.false_eq_true]
  rw [if_neg hrw,hnext]
  obtain ⟨hr,hw⟩ := not_or.mp hrw
  simp only [if_neg hr,if_neg hw]
  split
  case isTrue => rfl
  case isFalse => rfl

/-- The handler returns for every command. -/
theorem handleNvmeIoCommand_effect (env : HdcEnv) (s : Hdc) (e : Nat) :
    ∃ res s', handleNvmeIoCommand env s e = some (res,s') ∧ IoEffect env s e res s' := by
  by_cases hacc : env.Accepts (s.entry e).sqe
  case neg =>
    obtain ⟨sc,hsc⟩ := handleNvmeIoCommand_rejected hacc
    exact ⟨_,_,hsc,.rejected sc hacc⟩
  case pos =>
    by_cases hrw : (s.entry e).sqe.IsRw
    case pos =>
      obtain ⟨x,t,hnext,hio⟩ := handleNvmeIoCommand_rw hacc hrw
      obtain ⟨s',hs'⟩ : ∃ s', datapathHdc env (t.pendingCnt + 1) t x = some s' :=
        datapathHdc_returns (Nat.lt_succ_self _)
      rw [hs'] at hio
      exact ⟨_,s',hio,.flow x t s' hacc hrw hnext hs'⟩
    case neg =>
      obtain ⟨x,t,hnext,hio⟩ := handleNvmeIoCommand_other hacc hrw
      split at hio
      case isTrue => exact ⟨_,_,hio,.ignored x t hacc hrw hnext⟩
      case isFalse => exact ⟨_,_,hio,.unsupported x t hacc hrw hnext⟩

/-- What the handler of an admin opcode returns, and the status and result it leaves in the entry. -/
structure AdminReply where
  res : NvmeRequest
  staSct : Nat
  staSc : Nat
  result : Nat

def handleNvmeAdminCommand (s : Hdc) (e : Nat) (reply : AdminReply) : NvmeRequest × Hdc :=
  if (s.entry e).sqe.flags &&& (1 <<< 6 ||| 1 <<< 7) ≠ 0 then
    (.invalid,s.setStatus e nvmeSctGeneric nvmeScInvalidField)
  else
    (reply.res,(s.setStatus e reply.staSct reply.staSc).setEntry e
      { (s.setStatus e reply.staSct reply.staSc).entry e with result := reply.result })

/-- The state byte, the result and the status of the entry stay as they are. -/
def saveInHostCmdEntry (s : Hdc) (e : Nat) (cmd : HdcNvmeCmd) : Hdc :=
  s.setEntry e { s.entry e with
    cmdTag := cmd.tag, sqid := cmd.sqid, vfa := cmd.vfa, port := cmd.port, vf := cmd.vf, sqe := cmd.sqe }

/-- The end of `hdc_host_cmd_task`, for a command that is completed directly. -/
def completeDirectly (env : HdcEnv) (s : Hdc) (tag : Nat) : Hdc :=
  let cpl := setupPhifCmdCpl (s.entry tag)
  match sendPhifCmdCpl env (s.setCpl tag cpl) tag cpl with
  | (true,s) => { s with cplPend := tag :: s.cplPend }
  | (false,s) => s

def hdcHostCmdTask (env : HdcEnv) (s : Hdc) (cmd : HdcNvmeCmd) (reply : AdminReply) : Option Hdc :=
  let s := saveInHostCmdEntry s cmd.tag cmd
  let r := if cmd.sqid = 0 then some (handleNvmeAdminCommand s cmd.tag reply)
    else handleNvmeIoCommand env s cmd.tag
  r.map fun (res,s) => if res = .processing then s else completeDirectly env s cmd.tag

def phifCmdResponseToHdc (env : HdcEnv) (s : Hdc) (tag sct sc : Nat) : Option Hdc :=
  let s := s.setStatus tag sct sc
  if (s.entry tag).sqe.opcode = nvmeIoWrite then writeDatapathHdc env (s.setState tag .hasPhifRsp) tag
  else if (s.entry tag).sqe.opcode = nvmeIoRead then
    readDatapathHdc env (s.setState tag .hasPhifRsp) tag
  else some s

/-- The messages that reach the firmware. -/
inductive HdcLabel
  | nvmeCmd (cmd : HdcNvmeCmd) (reply : AdminReply)
  | cmdRsp (tag sct sc : Nat)

def Hdc.step (env : HdcEnv) (s : Hdc) : HdcLabel → Option Hdc
  | .nvmeCmd cmd reply => hdcHostCmdTask env (s.record (.nvmeCmd cmd.tag)) cmd reply
  | .cmdRsp tag sct sc => phifCmdResponseToHdc env (s.record (.cmdRsp tag)) tag sct sc

/-- After power on: zeroed arrays and empty queues. -/
def Hdc.init : Hdc where
  entry := fun _ => ⟨0,.initial,0,0,0,0,⟨0,0,0,0,0,0,0⟩,0,0,0⟩
  cpl := fun _ => ⟨0,0,0,0,0,0,0⟩
  cmdPend := []
  cplPend := []
  sends := 0
  log := []

end Sdssd.Fw
