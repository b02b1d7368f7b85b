import Sdssd.Fw.Deferred

/-!
# Admission of I/O commands

`handle_nvme_io_command` against what it is to reject: a namespace the controller does not have, or an
LBA above the capacity. The range test adds in 64 bits, and the result of `nvme_nsid_valid` is used the
wrong way round. Behind it, `setup_phif_cmd_req` takes the namespace data from a table of `MAX_NSID`
entries without a check of its own.
-/

namespace Sdssd.Fw

open Framework

def maxNsid : Nat := 15

/-- `gat_identify_namespaces + nsid-1` is in the table. -/
def NsidInTable (nsid : Nat) : Prop := 1 ≤ nsid ∧ nsid - 1 < maxNsid

/-- Some LBA of the command is above the capacity. -/
def HdcEnv.Exceeds (env : HdcEnv) (sqe : NvmeCommand) : Prop :=
  ∃ lba, sqe.slba ≤ lba ∧ lba ≤ sqe.slba + sqe.length ∧ env.maxLba < lba

/-- The handler rejects the command when it should and only then, and what it lets pass has its
namespace in the table. -/
structure AdmitsExactly (env : HdcEnv) (s : Hdc) (e : Nat) : Prop where
  rejects : (handleNvmeIoCommand env s e).map Prod.fst = some .invalid ↔
    (s.entry e).sqe.nsid = 0 ∨ env.nn < (s.entry e).sqe.nsid ∨ env.Exceeds (s.entry e).sqe
  inTable : (handleNvmeIoCommand env s e).map Prod.fst ≠ some .invalid →
    NsidInTable (s.entry e).sqe.nsid

/-- An LBA is above the capacity, and one of the two tests sees it: the one of the namespace because
that is valid, or the one of the range because the sum does not wrap below it. -/
def HdcEnv.SeesExcess (env : HdcEnv) (sqe : NvmeCommand) : Prop :=
  env.maxLba < sqe.slba + sqe.length ∧
    (nvmeNsidValid env.nn sqe.nsid = true ∨ env.maxLba < (sqe.slba + sqe.length) % 2^64)

section Command

variable {env : HdcEnv} {sqe : NvmeCommand} {s : Hdc} {e : Nat}

theorem nvmeNsidValid_iff {nn nsid : Nat} : nvmeNsidValid nn nsid = true ↔ ¬ (nsid = 0 ∨ nn < nsid) := by
  simp [nvmeNsidValid]
  omega

/-- The last LBA decides. -/
theorem HdcEnv.exceeds_iff : env.Exceeds sqe ↔ env.maxLba < sqe.slba + sqe.length := by
  constructor
  · rintro ⟨lba,-,hle,hlt⟩
    exact Nat.lt_of_lt_of_le hlt hle
  · intro hlt
    exact ⟨sqe.slba + sqe.length,Nat.le_add_right _ _,Nat.le_refl _,hlt⟩

theorem HdcEnv.not_accepts_iff : ¬ env.Accepts sqe ↔
    env.maxLba < (sqe.slba + sqe.length) % 2^64 ∨ nvmeNsidValid env.nn sqe.nsid = true := by
  rw [Accepts,not_and_or,Nat.not_le,Bool.not_eq_false]

theorem HdcEnv.SeesExcess.not_accepts (h : env.SeesExcess sqe) : ¬ env.Accepts sqe :=
  HdcEnv.not_accepts_iff.mpr h.2.symm

/-- Reads and writes are rejected by the two tests only. -/
theorem handleNvmeIoCommand_invalid_iff (hrw : (s.entry e).sqe.IsRw) :
    (handleNvmeIoCommand env s e).map Prod.fst = some .invalid ↔ ¬ env.Accepts (s.entry e).sqe := by
  obtain ⟨res,s',hio,heffect⟩ := handleNvmeIoCommand_effect env s e
  rw [hio]
  cases heffect with
  | rejected sc hacc => exact iff_of_true rfl hacc
  | flow x t s' hacc _ _ _ => exact iff_of_false (by simp) (not_not_intro hacc)
  | ignored x t _ hother _ => exact absurd hrw hother
  | unsupported x t _ hother _ => exact absurd hrw hother

/-- With `nn` as the controller data has it, `MAX_NSID`, a command that passes is never in the table. -/
theorem HdcEnv.Accepts.not_inTable (h : env.Accepts sqe) (hnn : env.nn = maxNsid) :
    ¬ NsidInTable sqe.nsid := by
  rintro ⟨hpos,hlt⟩
  have hvalid : nvmeNsidValid env.nn sqe.nsid = true := by
    rw [nvmeNsidValid_iff,hnn]
    omega
  cases hvalid.symm.trans h.2

/-- One command. A command that is admitted exactly has to be rejected. -/
theorem admitsExactly_iff (hrw : (s.entry e).sqe.IsRw) :
    AdmitsExactly env s e ↔ env.SeesExcess (s.entry e).sqe := by
  generalize hsqe : (s.entry e).sqe = sqe at hrw
  have hrej : (handleNvmeIoCommand env s e).map Prod.fst = some .invalid ↔
      env.maxLba < (sqe.slba + sqe.length) % 2^64 ∨ nvmeNsidValid env.nn sqe.nsid = true := by
    rw [handleNvmeIoCommand_invalid_iff (hsqe ▸ hrw),hsqe,HdcEnv.not_accepts_iff]
  have hwrap : (sqe.slba + sqe.length) % 2^64 ≤ sqe.slba + sqe.length := Nat.mod_le _ _
  have hshould : (sqe.nsid = 0 ∨ env.nn < sqe.nsid ∨ env.Exceeds sqe) ↔
      ¬ nvmeNsidValid env.nn sqe.nsid = true ∨ env.maxLba < sqe.slba + sqe.length := by
    rw [nvmeNsidValid_iff,not_not,HdcEnv.exceeds_iff,or_assoc]
  constructor
  · rintro ⟨hexact,-⟩
    rw [hrej,hsqe,hshould] at hexact
    by_cases hvalid : nvmeNsidValid env.nn sqe.nsid = true
    · exact ⟨(hexact.mp (Or.inr hvalid)).resolve_left (not_not_intro hvalid),Or.inl hvalid⟩
    · have hsum := (hexact.mpr (Or.inl hvalid)).resolve_right hvalid
      exact ⟨Nat.lt_of_lt_of_le hsum hwrap,Or.inr hsum⟩
  · rintro ⟨hexceeds,hsees⟩
    have hinvalid := hrej.mpr hsees.symm
    refine ⟨?_,fun hpass => absurd hinvalid hpass⟩
    rw [hsqe,hshould]
    exact iff_of_true hinvalid (Or.inr hexceeds)

end Command

/-- A datapath function called for `e` in `s` comes to a call for `x` in `t`: the call itself, or one
for a pending entry after a completion. -/
inductive Calls (env : HdcEnv) : Hdc → Nat → Hdc → Nat → Prop
  | self (s : Hdc) (e : Nat) : Calls env s e s e
  | next {s t u v : Hdc} {e x y : Nat}
      (hpass : flowPass env (s.record (.datapath e (env.portIsAvailable s.sends))) e = (u,true))
      (hnext : getNextHostCmdEntry u = (some y,v)) (hcalls : Calls env v y t x) : Calls env s e t x

/-- The call of a datapath function that a message leads to. -/
inductive FirstCall (env : HdcEnv) (s : Hdc) : HdcLabel → Hdc → Nat → Prop
  | nvmeCmd {cmd : HdcNvmeCmd} {reply : AdminReply} {t : Hdc} {x : Nat} (hsqid : cmd.sqid ≠ 0)
      (hrw : cmd.sqe.IsRw) (hacc : env.Accepts cmd.sqe)
      (hnext : getNextHostCmdEntry ({ saveInHostCmdEntry (s.record (.nvmeCmd cmd.tag)) cmd.tag cmd with
        cmdPend := s.cmdPend ++ [cmd.tag] }.setState cmd.tag .queued) = (some x,t)) :
      FirstCall env s (.nvmeCmd cmd reply) t x
  | cmdRsp {tag sct sc : Nat} (hrw : (s.entry tag).sqe.IsRw) :
      FirstCall env s (.cmdRsp tag sct sc)
        (((s.record (.cmdRsp tag)).setStatus tag sct sc).setState tag .hasPhifRsp) tag

/-- While handling the message, `setup_phif_cmd_req` is called for the entry; only the case `QUEUED`
of the switch calls it. -/
def SetsUp (env : HdcEnv) (s : Hdc) (l : HdcLabel) (x : HostNvmeCmdEntry) : Prop :=
  ∃ t e u y, FirstCall env s l t e ∧ Calls env t e u y ∧ (u.entry y).state = .queued ∧ u.entry y = x

/-- Every read and write on an I/O queue meets the condition. -/
def ExcessSeen (env : HdcEnv) (_ : Hdc) : HdcLabel → Prop
  | .nvmeCmd cmd _ => cmd.sqid ≠ 0 → cmd.sqe.IsRw → env.SeesExcess cmd.sqe
  | .cmdRsp _ _ _ => True

section Run

variable {env : HdcEnv} {s s' t u : Hdc} {e x y : Nat} {l : HdcLabel}

/-- A request in the log was there before the pass or has just been set up. -/
theorem flowPass_request {r : PhifCmdReq} (hreq : .cmdReq x (some r) ∈ (flowPass env s e).1.log) :
    .cmdReq x (some r) ∈ s.log ∨
      x = e ∧ (s.entry e).state = .queued ∧ r = setupPhifCmdReq env (s.entry e) := by
  have h := flowPass_effect env s e
  generalize flowPass env s e = p at h hreq
  cases h with
  | requested req hset =>
    rcases List.mem_append.mp hreq with hold | hnew
    · exact Or.inl hold
    · obtain ⟨rfl,rfl⟩ := HdcEvent.cmdReq.inj (List.mem_singleton.mp hnew)
      rcases hset with ⟨hstate,hr⟩ | hnone
      · exact Or.inr ⟨rfl,hstate,Option.some.inj hr⟩
      · cases hnone
  | completed cpl c _ =>
    rcases List.mem_append.mp hreq with hold | hnew
    · exact Or.inl hold
    · cases List.mem_singleton.mp hnew
  | _ => exact Or.inl hreq

/-- What a datapath function sends was set up in one of its calls. -/
theorem datapathHdc_request {n : Nat} {r : PhifCmdReq} (hrun : datapathHdc env n s e = some s')
    (h : .cmdReq x (some r) ∈ s'.log) : .cmdReq x (some r) ∈ s.log ∨
      ∃ t, Calls env s e t x ∧ (t.entry x).state = .queued ∧ r = setupPhifCmdReq env (t.entry x) := by
  induction n generalizing s e with
  | zero => cases hrun
  | succ n ih =>
    have hreq {u : Hdc} {more : Bool} (hu : flowPass env
        (s.record (.datapath e (env.portIsAvailable s.sends))) e = (u,more))
        (hlog : .cmdReq x (some r) ∈ u.log) : .cmdReq x (some r) ∈ s.log ∨
          ∃ t, Calls env s e t x ∧ (t.entry x).state = .queued ∧ r = setupPhifCmdReq env (t.entry x) := by
      rcases flowPass_request (by rw [hu]; exact hlog) with hold | ⟨rfl,hstate,hr⟩
      · left
        simpa [Hdc.record] using hold
      · exact Or.inr ⟨s,.self s x,hstate,hr⟩
    rw [datapathHdc] at hrun
    cases hpass : flowPass env (s.record (.datapath e (env.portIsAvailable s.sends))) e with
    | mk u more =>
      rw [hpass] at hrun
      cases more with
      | false =>
        cases hrun
        exact hreq hpass h
      | true =>
        cases hnext : getNextHostCmdEntry u with
        | mk y v =>
          simp only [hnext] at hrun
          cases y with
          | none =>
            cases hrun
            rw [getNextHostCmdEntry_none hnext] at h
            exact hreq hpass h
          | some y =>
            rcases ih hrun with hold | ⟨t,hcalls,hset⟩
            · rw [(getNextHostCmdEntry_pending hnext).2.2.2] at hold
              exact hreq hpass hold
            · exact Or.inr ⟨t,.next hpass hnext hcalls,hset⟩

theorem completeDirectly_request {req : Option PhifCmdReq}
    (h : .cmdReq x req ∈ (completeDirectly env s e).log) : .cmdReq x req ∈ s.log := by
  revert h
  cases hport : env.portIsAvailable s.sends <;>
    simp [completeDirectly,sendPhifCmdCpl,sendMsg,Hdc.setCpl,Hdc.record,hport]

theorem handleNvmeAdminCommand_log (reply : AdminReply) :
    (handleNvmeAdminCommand s e reply).2.log = s.log := by
  unfold handleNvmeAdminCommand
  split
  · rfl
  · rfl

theorem dispatchHostCmd_request {cmd : HdcNvmeCmd} {reply : AdminReply} {res : NvmeRequest} {r : PhifCmdReq}
    (hdispatch : dispatchHostCmd env s cmd reply = some (res,t)) (h : .cmdReq x (some r) ∈ t.log) :
    .cmdReq x (some r) ∈ s.log ∨
      ∃ z, SetsUp env s (.nvmeCmd cmd reply) z ∧ r = setupPhifCmdReq env z := by
  obtain ⟨v,hsave,hsqe,hcases⟩ := dispatchHostCmd_cases hdispatch
  have hv (hlog : .cmdReq x (some r) ∈ v.log) : .cmdReq x (some r) ∈ s.log := by
    rw [hsave] at hlog
    change _ ∈ s.log ++ [.nvmeCmd cmd.tag] at hlog
    simpa using hlog
  rcases hcases with hadmin | ⟨hsqid,heffect⟩
  · have hlog := handleNvmeAdminCommand_log (s := v) (e := cmd.tag) reply
    rw [← hadmin] at hlog
    change t.log = v.log at hlog
    rw [hlog] at h
    exact Or.inl (hv h)
  · cases heffect with
    | rejected sc _ => exact Or.inl (hv h)
    | ignored y w _ _ hnext =>
      rw [(getNextHostCmdEntry_pending hnext).2.2.2] at h
      exact Or.inl (hv h)
    | unsupported y w _ _ hnext =>
      change _ ∈ w.log at h
      rw [(getNextHostCmdEntry_pending hnext).2.2.2] at h
      exact Or.inl (hv h)
    | flow y w t' hacc hrw hnext hrun =>
      rw [hsqe] at hacc hrw
      rcases datapathHdc_request hrun h with hold | ⟨u,hcalls,hstate,hr⟩
      · rw [(getNextHostCmdEntry_pending hnext).2.2.2] at hold
        exact Or.inl (hv hold)
      · rw [hsave] at hnext
        exact Or.inr ⟨u.entry x,⟨w,y,u,x,.nvmeCmd hsqid hrw hacc hnext,hcalls,hstate,rfl⟩,hr⟩

/-- Every request that leaves while a message is handled has been set up for an entry. -/
theorem step_request {r : PhifCmdReq} (hstep : s.step env l = some s') (h : .cmdReq x (some r) ∈ s'.log) :
    .cmdReq x (some r) ∈ s.log ∨ ∃ z, SetsUp env s l z ∧ r = setupPhifCmdReq env z := by
  cases l with
  | nvmeCmd cmd reply =>
    rw [step_nvmeCmd] at hstep
    obtain ⟨⟨res,t⟩,hdispatch,rfl⟩ := Option.map_eq_some_iff.mp hstep
    dsimp only at h
    split at h
    · exact dispatchHostCmd_request hdispatch h
    · exact dispatchHostCmd_request hdispatch (completeDirectly_request h)
  | cmdRsp tag sct sc =>
    have hlog (hold : .cmdReq x (some r) ∈ (s.record (.cmdRsp tag)).log) : .cmdReq x (some r) ∈ s.log := by
      simpa [Hdc.record] using hold
    have hop : (((s.record (.cmdRsp tag)).setStatus tag sct sc).entry tag).sqe = (s.entry tag).sqe := by
      simp [Hdc.setStatus,Hdc.record]
    have hflow (hrw : (s.entry tag).sqe.IsRw) {n : Nat} (hrun : datapathHdc env n
        (((s.record (.cmdRsp tag)).setStatus tag sct sc).setState tag .hasPhifRsp) tag = some s') :
        .cmdReq x (some r) ∈ s.log ∨
          ∃ z, SetsUp env s (.cmdRsp tag sct sc) z ∧ r = setupPhifCmdReq env z := by
      rcases datapathHdc_request hrun h with hold | ⟨u,hcalls,hstate,hr⟩
      · exact Or.inl (hlog hold)
      · exact Or.inr ⟨u.entry x,⟨_,tag,u,x,.cmdRsp hrw,hcalls,hstate,rfl⟩,hr⟩
    simp only [Hdc.step,phifCmdResponseToHdc,hop] at hstep
    split at hstep
    case isTrue hw => exact hflow (Or.inr hw) hstep
    case isFalse =>
      split at hstep
      case isTrue hr => exact hflow (Or.inl hr) hstep
      case isFalse =>
        cases hstep
        exact Or.inl (hlog h)

/-- No entry is on the way to a request. -/
def Hdc.NoRequest (s : Hdc) : Prop :=
  ∀ x, (s.entry x).state ≠ .queued ∧ (s.entry x).state ≠ .phifReqReady

namespace Hdc.NoRequest

theorem init : Hdc.init.NoRequest := by
  intro x
  simp [Hdc.init]

theorem of_states (hs : s.NoRequest) (h : ∀ x, (s'.entry x).state = (s.entry x).state) :
    s'.NoRequest := by
  intro x
  rw [h x]
  exact hs x

theorem setState (hs : s.NoRequest) (e : Nat) {st : FlowState} (hst : st ≠ .queued ∧ st ≠ .phifReqReady) :
    (s.setState e st).NoRequest := by
  intro x
  by_cases hx : x = e
  · subst hx
    rw [setState_self]
    exact hst
  · rw [setState_of_ne s st hx]
    exact hs x

/-- The switch does not go back. -/
theorem pass (hs : s.NoRequest) (e : Nat) : (flowPass env s e).1.NoRequest := by
  have h := flowPass_effect env s e
  generalize flowPass env s e = r at h ⊢
  cases h with
  | idle more => exact hs
  | moved st more hst => exact hs.setState e (by rcases hst with rfl | rfl <;> decide)
  | requested req _ => exact hs.setState e (by decide)
  | requeued hstate => exact (hstate.elim (hs e).1 (hs e).2).elim
  | completed cpl c _ => exact hs.setState e (by decide)
  | postponed cpl _ => exact hs.setState e (by decide)

theorem next (hs : s.NoRequest) (hnext : getNextHostCmdEntry s = (some x,t)) : t.NoRequest := by
  apply hs.of_states
  intro y
  rw [(getNextHostCmdEntry_pending hnext).2.1]

theorem calls (hs : s.NoRequest) (hcalls : Calls env s e t x) : t.NoRequest := by
  induction hcalls with
  | self => exact hs
  | @next s t u v e x y hpass hnext _ ih =>
    apply ih
    have hu : u.NoRequest := by
      have hpassed : (flowPass env (s.record (.datapath e (env.portIsAvailable s.sends))) e).1.NoRequest :=
        NoRequest.pass (s := s.record _) hs e
      rw [hpass] at hpassed
      exact hpassed
    exact hu.next hnext

theorem datapathHdc {n : Nat} (hs : s.NoRequest) (hrun : Fw.datapathHdc env n s e = some s') :
    s'.NoRequest := by
  apply datapathHdc_invariant (fun _ t => t.NoRequest) ?_ ?_ hs hrun
  · intro t x ht
    exact NoRequest.pass (s := t.record _) ht x
  · intro t x t' ht hnext
    exact ht.next hnext

theorem response (hs : s.NoRequest) (tag sct sc : Nat) :
    (((s.record (.cmdRsp tag)).setStatus tag sct sc).setState tag .hasPhifRsp).NoRequest := by
  apply NoRequest.setState _ tag ⟨by decide,by decide⟩
  apply hs.of_states
  intro x
  exact setStatus_state _ tag x sct sc

end Hdc.NoRequest

theorem setEntry_states {z : HostNvmeCmdEntry} (hz : z.state = (s.entry e).state) (x : Nat) :
    ((s.setEntry e z).entry x).state = (s.entry x).state := by
  by_cases hx : x = e
  · subst hx
    rw [Hdc.setEntry_self,hz]
  · rw [Hdc.setEntry_of_ne s z hx]

theorem handleNvmeAdminCommand_states (reply : AdminReply) (x : Nat) :
    ((handleNvmeAdminCommand s e reply).2.entry x).state = (s.entry x).state := by
  unfold handleNvmeAdminCommand
  split
  · exact Hdc.setStatus_state s e x _ _
  · exact (setEntry_states (by rfl) x).trans (Hdc.setStatus_state s e x _ _)

/-- A command that is not let into the datapath changes no state byte. -/
theorem dispatchHostCmd_states {cmd : HdcNvmeCmd} {reply : AdminReply} {res : NvmeRequest}
    (hok : cmd.sqid ≠ 0 → cmd.sqe.IsRw → ¬ env.Accepts cmd.sqe)
    (h : dispatchHostCmd env s cmd reply = some (res,t)) (x : Nat) :
    (t.entry x).state = (s.entry x).state := by
  obtain ⟨v,hsave,hsqe,hcases⟩ := dispatchHostCmd_cases h
  have hv : (v.entry x).state = (s.entry x).state := by
    rw [hsave]
    exact setEntry_states (s := s.record (.nvmeCmd cmd.tag)) (e := cmd.tag) (by rfl) x
  rw [← hv]
  rcases hcases with hadmin | ⟨hsqid,heffect⟩
  · have hstates := handleNvmeAdminCommand_states (s := v) (e := cmd.tag) reply x
    rw [← hadmin] at hstates
    exact hstates
  · cases heffect with
    | rejected sc _ => exact Hdc.setStatus_state v cmd.tag x _ sc
    | flow y w t' hacc hrw _ _ =>
      rw [hsqe] at hacc hrw
      exact absurd hacc (hok hsqid hrw)
    | ignored y w _ _ hnext => rw [(getNextHostCmdEntry_pending hnext).2.1]
    | unsupported y w _ _ hnext =>
      rw [Hdc.setStatus_state,(getNextHostCmdEntry_pending hnext).2.1]

/-- No message lets a command into the datapath. -/
theorem Hdc.NoRequest.step (hs : s.NoRequest) (hl : ExcessSeen env s l) (hstep : s.step env l = some s') :
    s'.NoRequest := by
  cases l with
  | nvmeCmd cmd reply =>
    rw [step_nvmeCmd] at hstep
    obtain ⟨⟨res,t⟩,hdispatch,rfl⟩ := Option.map_eq_some_iff.mp hstep
    have ht : t.NoRequest :=
      hs.of_states (dispatchHostCmd_states (fun hsqid hrw => (hl hsqid hrw).not_accepts) hdispatch)
    dsimp only
    split
    · exact ht
    · apply ht.of_states
      intro x
      rw [completeDirectly_entry]
  | cmdRsp tag sct sc =>
    have hstatus : ((s.record (.cmdRsp tag)).setStatus tag sct sc).NoRequest :=
      hs.of_states fun x => Hdc.setStatus_state _ tag x sct sc
    simp only [Hdc.step,phifCmdResponseToHdc] at hstep
    split at hstep
    · exact (hs.response tag sct sc).datapathHdc hstep
    · split at hstep
      · exact (hs.response tag sct sc).datapathHdc hstep
      · exact Option.some.inj hstep ▸ hstatus

/-- Then nothing is set up. -/
theorem Hdc.NoRequest.not_setsUp (hs : s.NoRequest) (hl : ExcessSeen env s l) (z : HostNvmeCmdEntry) :
    ¬ SetsUp env s l z := by
  rintro ⟨t,e,u,y,hfirst,hcalls,hqueued,-⟩
  have ht : t.NoRequest := by
    cases hfirst with
    | nvmeCmd hsqid hrw hacc _ => exact absurd hacc (hl hsqid hrw).not_accepts
    | cmdRsp _ => exact hs.response _ _ _
  exact (ht.calls hcalls y).1 hqueued

end Run

/-- A read or write is admitted exactly when one of its LBAs is above the capacity and a test sees that.
In a run whose reads and writes all meet this, what reaches `setup_phif_cmd_req` is in the table. -/
theorem io_admission_exact_iff (env : HdcEnv) :
    (∀ s e, (s.entry e).sqe.IsRw → (AdmitsExactly env s e ↔ env.SeesExcess (s.entry e).sqe)) ∧
    ∀ s, Reaches (Hdc.step env) (ExcessSeen env) Hdc.init s → ∀ l, ExcessSeen env s l →
      ∀ x, SetsUp env s l x → NsidInTable x.sqe.nsid := by
  constructor
  · intro s e hrw
    exact admitsExactly_iff hrw
  · intro s hrun l hl x hsets
    have hs : s.NoRequest :=
      hrun.invariant Hdc.NoRequest Hdc.NoRequest.init fun _ _ _ ht hok hstep => ht.step hok hstep
    exact absurd hsets (hs.not_setsUp hl x)

/-- A read in entry 3 of the array. -/
def readCommand (nsid slba length : Nat) : HdcNvmeCmd :=
  ⟨3,1,0,0,0,⟨nvmeIoRead,0,nsid,slba,length,0,0⟩⟩

def savedRead (nsid slba length : Nat) : Hdc :=
  saveInHostCmdEntry Hdc.init 3 (readCommand nsid slba length)

/-- LBA 1000 is the last one; a read of eight from there is rejected, and a run of it sets up nothing. -/
theorem io_admission_exact_beyond : AdmitsExactly busyAtFirst (savedRead 1 1000 7) 3 ∧
    ∃ s, Reaches (Hdc.step busyAtFirst) (ExcessSeen busyAtFirst) Hdc.init s ∧ s.log.length = 1 ∧
      ∀ x, SetsUp busyAtFirst s (.cmdRsp 3 0 0) x → NsidInTable x.sqe.nsid := by
  have hsees : busyAtFirst.SeesExcess (readCommand 1 1000 7).sqe := ⟨by decide,Or.inl (by decide)⟩
  let l : HdcLabel := .nvmeCmd (readCommand 1 1000 7) ⟨.complete,0,0,0⟩
  have hstep : Hdc.init.step busyAtFirst l = some (stepOr busyAtFirst Hdc.init l) :=
    step_stepOr (by decide +kernel)
  have hok : ExcessSeen busyAtFirst Hdc.init l := fun _ _ => hsees
  have hrun : Reaches (Hdc.step busyAtFirst) (ExcessSeen busyAtFirst) Hdc.init
      (stepOr busyAtFirst Hdc.init l) := Reaches.single hok hstep
  exact ⟨((io_admission_exact_iff busyAtFirst).1 (savedRead 1 1000 7) 3 (Or.inl rfl)).mpr hsees,
    _,hrun,by decide +kernel,(io_admission_exact_iff busyAtFirst).2 _ hrun _ trivial⟩

/-- A read of a valid namespace within the capacity is rejected. One without a namespace passes and is
set up with the entry in front of the table, and a sum that wraps hides the last LBA there is. -/
theorem io_admission_inverted :
    (handleNvmeIoCommand busyAtFirst (savedRead 1 8 7) 3).map Prod.fst = some .invalid ∧
    (handleNvmeIoCommand busyAtFirst (savedRead 0 8 7) 3).map Prod.fst = some .processing ∧
    (handleNvmeIoCommand busyAtFirst (savedRead 0 (2^64 - 1) 1) 3).map Prod.fst = some .processing ∧
    ∃ x, SetsUp busyAtFirst Hdc.init (.nvmeCmd (readCommand 0 8 7) ⟨.complete,0,0,0⟩) x ∧
      ¬ NsidInTable x.sqe.nsid := by
  let cmd := readCommand 0 8 7
  -- the command is alone in the queue, so it is its own entry that is taken from there
  let t : Hdc := ({ saveInHostCmdEntry (Hdc.init.record (.nvmeCmd 3)) 3 cmd with
    cmdPend := [] } : Hdc).setState 3 .queued
  have hfirst : FirstCall busyAtFirst Hdc.init (.nvmeCmd cmd ⟨.complete,0,0,0⟩) t 3 :=
    .nvmeCmd (by decide) (Or.inl rfl) ⟨by decide,by decide⟩ rfl
  refine ⟨by decide +kernel,by decide +kernel,by decide +kernel,t.entry 3,?_,?_⟩
  · exact ⟨t,3,t,3,hfirst,.self t 3,rfl,rfl⟩
  · exact fun h => absurd h.1 (by decide)

end Sdssd.Fw
