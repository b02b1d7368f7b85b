import Sdssd.Fw.ChunkedDma
import Sdssd.Fw.Dispatch

/-!
# What a command finds in its entry

The entry of a tag is reused in place. `save_in_host_cmd_entry` writes the command and leaves status and
result as the last command left them, so a completion depends on earlier commands unless the command
stores its status itself.
-/

namespace Sdssd.Fw

open Framework

/-- The message that an entry was filled from. -/
def HostNvmeCmdEntry.saved (x : HostNvmeCmdEntry) : HdcNvmeCmd := ⟨x.cmdTag,x.sqid,x.vfa,x.port,x.vf,x.sqe⟩

/-- The completion of a command that ends with a status and no result. -/
def cplOf (cmd : HdcNvmeCmd) (sct sc : Nat) : PhifCmdCpl :=
  ⟨cmd.tag,cmd.vfa,cmd.port,cmd.vf,cmd.sqid,0,(sc <<< 1 ||| sct <<< 9) % 2^16⟩

theorem setupPhifCmdCpl_eq {x : HostNvmeCmdEntry} {cmd : HdcNvmeCmd} (hsaved : x.saved = cmd)
    (hresult : x.result = 0) : setupPhifCmdCpl x = cplOf cmd x.staSct x.staSc := by
  subst hsaved
  rw [setupPhifCmdCpl,cplOf,hresult]
  rfl

/-- No entry has another result than before. -/
def Hdc.SameResults (s s' : Hdc) : Prop := ∀ x, (s'.entry x).result = (s.entry x).result

namespace Hdc.SameResults

variable {env : HdcEnv} {s t u : Hdc}

theorem of_entry (h : t.entry = s.entry) : s.SameResults t := fun x => by rw [h]

theorem trans (h : s.SameResults t) (h' : t.SameResults u) : s.SameResults u :=
  fun x => (h' x).trans (h x)

theorem setEntry {e : Nat} {y : HostNvmeCmdEntry} (hy : y.result = (s.entry e).result) :
    s.SameResults (s.setEntry e y) := by
  intro x
  by_cases hx : x = e
  · subst hx
    rw [setEntry_self,hy]
  · rw [setEntry_of_ne s y hx]

theorem setStatus (e sct sc : Nat) : s.SameResults (s.setStatus e sct sc) := setEntry rfl

theorem setState (e : Nat) (st : FlowState) : s.SameResults (s.setState e st) := setEntry rfl

theorem pass (e : Nat) : s.SameResults (flowPass env s e).1 := by
  obtain ⟨st,hst⟩ := flowPass_entry env s e
  exact (setState e st).trans (of_entry hst)

theorem next {e : Nat} (h : getNextHostCmdEntry s = (some e,t)) : s.SameResults t :=
  of_entry (getNextHostCmdEntry_pending h).2.1

theorem datapathHdc {n e : Nat} (h : Fw.datapathHdc env n s e = some t) : s.SameResults t := by
  apply datapathHdc_invariant (fun _ v => s.SameResults v) ?_ ?_ (of_entry rfl) h
  · intro v x hv
    exact (hv.trans (of_entry rfl)).trans (pass x)
  · intro v x w hv hnext
    exact hv.trans (next hnext)

theorem io {e : Nat} {res : NvmeRequest} (h : IoEffect env s e res t) : s.SameResults t := by
  cases h with
  | rejected sc _ => exact setStatus e _ sc
  | flow x v _ _ _ hnext hrun =>
    have hqueued : s.SameResults ({ s with cmdPend := s.cmdPend ++ [e] }.setState e .queued) := setState e _
    exact (hqueued.trans (next hnext)).trans (datapathHdc hrun)
  | ignored x v _ _ hnext => exact of_entry (getNextHostCmdEntry_pending hnext).2.1
  | unsupported x v _ _ hnext =>
    have hv : s.SameResults v := of_entry (getNextHostCmdEntry_pending hnext).2.1
    exact hv.trans (setStatus x _ _)

theorem admin {e : Nat} {reply : AdminReply} (h : reply.result = (s.entry e).result) :
    s.SameResults (handleNvmeAdminCommand s e reply).2 := by
  unfold handleNvmeAdminCommand
  split
  case isTrue => exact setStatus e _ _
  case isFalse =>
    apply (setStatus e reply.staSct reply.staSc).trans
    apply setEntry
    rw [Hdc.setStatus,setEntry_self]
    exact h

theorem save (e : Nat) (cmd : HdcNvmeCmd) : s.SameResults (saveInHostCmdEntry s e cmd) := setEntry rfl

/-- A message keeps all results, if the reply of an admin command keeps its own. -/
theorem step {l : HdcLabel} (hreply : ∀ cmd reply, l = .nvmeCmd cmd reply →
    reply.result = (s.entry cmd.tag).result) (h : s.step env l = some t) : s.SameResults t := by
  cases l with
  | nvmeCmd cmd reply =>
    rw [step_nvmeCmd] at h
    obtain ⟨⟨res,v⟩,hdispatch,rfl⟩ := Option.map_eq_some_iff.mp h
    have hv : s.SameResults v := by
      obtain ⟨w,rfl,-,hadmin | ⟨-,hio⟩⟩ := dispatchHostCmd_cases hdispatch
      · have hsave : s.SameResults (saveInHostCmdEntry (s.record (.nvmeCmd cmd.tag)) cmd.tag cmd) :=
          save (s := s.record _) cmd.tag cmd
        apply hsave.trans
        rw [show v = _ from (Prod.mk.inj hadmin).2]
        exact admin ((hreply cmd reply rfl).trans (hsave cmd.tag).symm)
      · exact (save (s := s.record _) cmd.tag cmd).trans (io hio)
    dsimp only
    split_ifs
    · exact hv
    · exact hv.trans (of_entry (completeDirectly_entry env v cmd.tag))
  | cmdRsp tag sct sc =>
    have hset : s.SameResults ((s.record (.cmdRsp tag)).setStatus tag sct sc) := setStatus tag sct sc
    simp only [Hdc.step,phifCmdResponseToHdc] at h
    split_ifs at h
    · exact (hset.trans (setState tag _)).trans (datapathHdc h)
    · exact (hset.trans (setState tag _)).trans (datapathHdc h)
    · cases h
      exact hset

end Hdc.SameResults

/-- The entry of the command still holds it. -/
def Hdc.HoldsCmd (cmd : HdcNvmeCmd) (s : Hdc) : Prop := (s.entry cmd.tag).saved = cmd

/-- A change of an entry that leaves the command in it. -/
theorem Hdc.HoldsCmd.setEntry {cmd : HdcNvmeCmd} {s : Hdc} {e : Nat} {y : HostNvmeCmdEntry}
    (h : s.HoldsCmd cmd) (hy : y.saved = (s.entry e).saved) : (s.setEntry e y).HoldsCmd cmd := by
  by_cases he : cmd.tag = e
  · subst he
    rw [HoldsCmd,setEntry_self,hy]
    exact h
  · rw [HoldsCmd,setEntry_of_ne s y he]
    exact h

theorem Hdc.HoldsCmd.setState {cmd : HdcNvmeCmd} {s : Hdc} (h : s.HoldsCmd cmd) (e : Nat) (st : FlowState) :
    (s.setState e st).HoldsCmd cmd := h.setEntry rfl

theorem Hdc.HoldsCmd.of_entry {cmd : HdcNvmeCmd} {s s' : Hdc} (h : s.HoldsCmd cmd)
    (hentry : s'.entry = s.entry) : s'.HoldsCmd cmd := by
  rw [HoldsCmd,hentry]
  exact h

/-- Messages about other tags do not touch the command. -/
theorem Hdc.HoldsCmd.keptFor (env : HdcEnv) (cmd : HdcNvmeCmd) :
    KeptFor env (fun x => x ≠ cmd.tag) (HoldsCmd cmd) := by
  constructor
  case onLocal =>
    intro x s s' hx hs h
    rw [HoldsCmd,h.entry cmd.tag hx.symm]
    exact hs
  case onStatus =>
    intro s x sct sc hs
    exact hs.setEntry rfl
  case onPass =>
    intro s x _ hs
    obtain ⟨st,hst⟩ := flowPass_entry env (s.record (.datapath x (env.portIsAvailable s.sends))) x
    exact (setState (s := s.record _) hs x st).of_entry hst

/-- What is the case after every history: no entry has a result. -/
structure Firmware.Clean (s : Firmware) : Prop where
  first : s.dma.FirstTags
  tagged : s.hdc.Tagged
  results : ∀ x, (s.hdc.entry x).result = 0

namespace Firmware

variable {env : FwEnv} {s s' t : Firmware} {l : FwLabel} {cmd : HdcNvmeCmd} {dptr : NvmeDataPtr}

/-- A DMA response changes nothing in the entries but a status code. -/
theorem answer_entry {i status : Nat} (hs : s.dma.FirstTags) (h : s.answer env i status = some s') :
    ∃ e, s'.hdc.entry = (s.hdc.chunkError e status).entry := by
  obtain ⟨r,-,heffect⟩ := answer_effect h
  refine ⟨(s.dma.fwCmd r.itnlTag).hostTag,?_⟩
  cases heffect with
  | silent => rfl
  | completes _ fn hfn =>
    rw [complete,hs.call_eq hfn]
    exact completeDirectly_entry _ _ _

theorem chunkError_cases (h : Hdc) (e status : Nat) :
    ∃ y : HostNvmeCmdEntry, h.chunkError e status = h.setEntry e y ∧ y.saved = (h.entry e).saved ∧
      y.state = (h.entry e).state ∧ y.result = (h.entry e).result := by
  unfold Hdc.chunkError
  split_ifs
  · exact ⟨_,rfl,rfl,rfl,rfl⟩
  · exact ⟨h.entry e,by simp [Hdc.setEntry],rfl,rfl,rfl⟩

theorem Clean.init (env : FwEnv) : (init env).Clean :=
  ⟨DmaCtl.firstTags_init,Hdc.Tagged.init,fun _ => rfl⟩

theorem Clean.step (hs : s.Clean) (h : s.step env l = some s') : s'.Clean := by
  have hfirst := firstTags_step hs.first h
  cases l with
  | nvmeCmd cmd dptr =>
    obtain ⟨reply,hresult,hstep⟩ := hdcHostCmdTask_refines h
    have hsame : s.hdc.SameResults s'.hdc := by
      apply Hdc.SameResults.step _ hstep
      intro cmd' reply' heq
      cases heq
      exact hresult
    exact ⟨hfirst,hs.tagged.step hstep,fun x => (hsame x).trans (hs.results x)⟩
  | cmdRsp tag sct sc =>
    obtain ⟨hdc,hstep,rfl⟩ := Option.map_eq_some_iff.mp h
    have hsame : s.hdc.SameResults hdc := Hdc.SameResults.step (fun _ _ heq => by cases heq) hstep
    exact ⟨hfirst,hs.tagged.step hstep,fun x => (hsame x).trans (hs.results x)⟩
  | dmaRsp i status =>
    obtain ⟨e,hentry⟩ := answer_entry hs.first h
    obtain ⟨y,hy,hsaved,hstate,hresult⟩ := chunkError_cases s.hdc e status
    rw [hy] at hentry
    refine ⟨hfirst,?_,?_⟩
    · apply Hdc.Tagged.of_entry _ hentry
      apply hs.tagged.setEntry
      have htag : y.cmdTag = (s.hdc.entry e).cmdTag := congrArg HdcNvmeCmd.tag hsaved
      have hsqe : y.sqe = (s.hdc.entry e).sqe := congrArg HdcNvmeCmd.sqe hsaved
      rw [htag,hstate,hsqe]
      exact hs.tagged e
    · intro x
      rw [hentry,Hdc.SameResults.setEntry hresult x]
      exact hs.results x

theorem receive_holdsCmd (s : Firmware) (cmd : HdcNvmeCmd) : (s.receive cmd).hdc.HoldsCmd cmd := by
  rw [Hdc.HoldsCmd,receive_entry]
  rfl

theorem Clean.receive (hs : s.Clean) (cmd : HdcNvmeCmd) : (s.receive cmd).Clean :=
  ⟨hs.first,(hs.tagged.record _).setEntry (Or.inl rfl),
    fun x => (Hdc.SameResults.save (s := s.hdc.record _) cmd.tag cmd x).trans (hs.results x)⟩

theorem clean_of_reaches (h : Reaches (Firmware.step env) always (Firmware.init env) s) : s.Clean :=
  h.invariant Clean (Clean.init env) fun _ _ _ ht _ hstep => ht.step hstep

end Firmware

theorem completeDirectly_cpl (env : HdcEnv) (s : Hdc) (e : Nat) :
    (completeDirectly env s e).cpl e = setupPhifCmdCpl (s.entry e) := by
  cases hport : env.portIsAvailable s.sends <;>
    simp [completeDirectly,sendPhifCmdCpl,sendMsg,Hdc.setCpl,Hdc.record,hport]

/-- The completion of entry `e` has been set up as `c`, and its state byte is past the set-up. -/
def Hdc.SetUp (e : Nat) (c : PhifCmdCpl) (s : Hdc) : Prop :=
  s.cpl e = c ∧ ((s.entry e).state = .phifCplReady ∨ (s.entry e).state = .complete)

section SetUp

variable {env : HdcEnv} {s s' : Hdc} {e : Nat} {c : PhifCmdCpl}

theorem Hdc.SetUp.of_local {x : Nat} (h : s.SetUp e c) (hlocal : Local x s s') (hx : e ≠ x) :
    s'.SetUp e c := by
  rw [SetUp,hlocal.cpl e hx,hlocal.entry e hx]
  exact h

/-- A pass for the entry sends the completion or leaves it waiting. -/
theorem Hdc.SetUp.pass_self (h : s.SetUp e c) : (flowPass env s e).1.SetUp e c := by
  rcases h with ⟨hcpl,hready | hcomplete⟩
  · rw [flowPass_cplReady hready]
    split
    · exact ⟨hcpl,Or.inr (by rw [setState_self])⟩
    · exact ⟨hcpl,Or.inl (by rw [setState_self])⟩
  · rw [flowPass_complete hcomplete]
    exact ⟨hcpl,Or.inr hcomplete⟩

theorem Hdc.SetUp.pass (h : s.SetUp e c) (hs : s.Tagged) (x : Nat) : (flowPass env s x).1.SetUp e c := by
  by_cases hx : e = x
  · subst hx
    exact h.pass_self
  · exact h.of_local (flowPass_local hs x) hx

/-- The first pass after the response sets the completion up. -/
theorem setUp_of_hasPhifRsp (hstate : (s.entry e).state = .hasPhifRsp) (htag : (s.entry e).cmdTag = e) :
    (flowPass env s e).1.SetUp e (setupPhifCmdCpl (s.entry e)) := by
  rw [flowPass_hasPhifRsp hstate,htag]
  apply Hdc.SetUp.pass_self
  refine ⟨?_,Or.inl (by rw [Hdc.setState_self])⟩
  exact Function.update_self ..

/-- The datapath call that follows the response, with the calls it makes for the entries behind. -/
theorem datapathHdc_setUp {n : Nat} (hs : s.Tagged) (hstate : (s.entry e).state = .hasPhifRsp)
    (htag : (s.entry e).cmdTag = e) (h : datapathHdc env n s e = some s') :
    s'.SetUp e (setupPhifCmdCpl (s.entry e)) := by
  let I : Option Nat → Hdc → Prop
    | none, t => t.Tagged ∧ t.SetUp e (setupPhifCmdCpl (s.entry e))
    | some x, t => t.Tagged ∧ (t.SetUp e (setupPhifCmdCpl (s.entry e)) ∨ x = e ∧ t = s)
  refine (datapathHdc_invariant I ?_ ?_ (s := s) ⟨hs,Or.inr ⟨rfl,rfl⟩⟩ h).2
  · intro t x ht
    obtain ⟨htagged,hsetup | ⟨rfl,rfl⟩⟩ := ht
    · exact ⟨(htagged.record _).pass x,Hdc.SetUp.pass (s := t.record _) hsetup (htagged.record _) x⟩
    · exact ⟨(htagged.record _).pass x,setUp_of_hasPhifRsp (s := t.record _) hstate htag⟩
  · intro t x u ht hnext
    obtain ⟨-,hentry,hcpl,-⟩ := getNextHostCmdEntry_pending hnext
    refine ⟨ht.1.of_entry hentry,Or.inl ?_⟩
    rw [Hdc.SetUp,hentry,hcpl]
    exact ht.2

/-- The response of PHIF to a read or write command makes the completion. -/
theorem cmdRsp_cpl {cmd : HdcNvmeCmd} {sct sc : Nat} (hs : s.Tagged) (hcmd : s.HoldsCmd cmd)
    (hresult : (s.entry cmd.tag).result = 0) (hrw : cmd.sqe.IsRw)
    (h : s.step env (.cmdRsp cmd.tag sct sc) = some s') : s'.cpl cmd.tag = cplOf cmd sct sc := by
  let u := (s.record (.cmdRsp cmd.tag)).setStatus cmd.tag sct sc
  have hu : u.entry cmd.tag = { s.entry cmd.tag with staSct := sct, staSc := sc } := Hdc.setEntry_self ..
  have htag : (u.entry cmd.tag).cmdTag = cmd.tag := by
    rw [hu]
    exact congrArg HdcNvmeCmd.tag hcmd
  have hsqe : (u.entry cmd.tag).sqe = cmd.sqe := by
    rw [hu]
    exact congrArg HdcNvmeCmd.sqe hcmd
  have hentry : (u.setState cmd.tag .hasPhifRsp).entry cmd.tag =
      { u.entry cmd.tag with state := .hasPhifRsp } := Hdc.setState_self ..
  have hrun {n : Nat} (h : datapathHdc env n (u.setState cmd.tag .hasPhifRsp) cmd.tag = some s') :
      s'.cpl cmd.tag = cplOf cmd sct sc := by
    have htagged : (u.setState cmd.tag .hasPhifRsp).Tagged :=
      ((hs.record _).setStatus cmd.tag sct sc).setState htag _
    have hsetup := datapathHdc_setUp htagged (by rw [hentry]) (by rw [hentry]; exact htag) h
    rw [hsetup.1,hentry,hu]
    apply setupPhifCmdCpl_eq
    · exact hcmd
    · exact hresult
  simp only [Hdc.step,phifCmdResponseToHdc] at h
  rcases hrw with hr | hw
  · rw [if_neg (by rw [hsqe,hr]; decide),if_pos (by rw [hsqe]; exact hr)] at h
    exact hrun h
  · rw [if_pos (by rw [hsqe]; exact hw)] at h
    exact hrun h

end SetUp

/-- Admin commands whose handler stores a status: all that are refused, and two of those that succeed. -/
def AdminStores (env : FwEnv) (c : NvmeCommand) : Prop :=
  c.usesSgl = true ∨ c.opcode = nvmeAdminCreateSq ∨ c.opcode = nvmeAdminDeleteCq ∨
    c.opcode = nvmeAdminCreateCq ∧ (c.qidInvalid env.maxNvmeQueueId = true ∨
      (c.qsize = 0 ∨ env.maxNvmeQueueSize < c.qsize) ∨ c.physContig = false) ∨
    c.opcode = nvmeAdminDeleteSq ∧ c.qidInvalid env.maxNvmeQueueId = true ∨
    c.opcode = nvmeAdminSetFeatures ∧ (c.fidKnown = false ∨ c.queueNumberInvalid = true) ∨
    c.opcode = nvmeAdminGetFeatures ∧ c.fidKnown = false ∨
    c.opcode = nvmeAdminFormatNvm ∧ nvmeNsidValid env.nn c.nsid = true

section Stores

variable {env : FwEnv} {c : NvmeCommand}

theorem createCqStatus_isSome : (createCqStatus env c).isSome = true ↔
    c.qidInvalid env.maxNvmeQueueId = true ∨
      (c.qsize = 0 ∨ env.maxNvmeQueueSize < c.qsize) ∨ c.physContig = false := by
  unfold createCqStatus
  split_ifs with hqid hsize hcontig
  · exact iff_of_true rfl (Or.inl hqid)
  · exact iff_of_true rfl (Or.inr (Or.inl hsize))
  · exact iff_of_true rfl (Or.inr (Or.inr (by simpa using hcontig)))
  · refine iff_of_false (by simp) ?_
    rintro (h | h | h)
    · exact hqid h
    · exact hsize h
    · exact hcontig (by simpa using h)

theorem createSqStatus_isSome : (createSqStatus env c).isSome = true := by
  unfold createSqStatus
  split_ifs
  all_goals rfl

theorem deleteCqStatus_isSome : (deleteCqStatus env c).isSome = true := by
  unfold deleteCqStatus
  split_ifs
  all_goals rfl

theorem deleteSqStatus_isSome :
    (deleteSqStatus env c).isSome = true ↔ c.qidInvalid env.maxNvmeQueueId = true := by
  unfold deleteSqStatus
  split_ifs with hqid
  · exact iff_of_true rfl hqid
  · exact iff_of_false (by simp) hqid

theorem setFeatureStatus_isSome :
    (setFeatureStatus c).isSome = true ↔ c.fidKnown = false ∨ c.queueNumberInvalid = true := by
  unfold setFeatureStatus
  split_ifs with hfid hnumber
  · exact iff_of_true rfl (Or.inr hnumber)
  · exact iff_of_false (by simp) (by simp [hfid,hnumber])
  · exact iff_of_true rfl (Or.inl (Bool.not_eq_true _ ▸ hfid))

theorem getFeatureStatus_isSome : (getFeatureStatus c).isSome = true ↔ c.fidKnown = false := by
  unfold getFeatureStatus
  split_ifs with hfid
  · exact iff_of_false (by simp) (by simp [hfid])
  · exact iff_of_true rfl (Bool.not_eq_true _ ▸ hfid)

theorem formatNvmStatus_isSome :
    (formatNvmStatus env c).isSome = true ↔ nvmeNsidValid env.nn c.nsid = true := by
  unfold formatNvmStatus
  split_ifs with hnsid
  · exact iff_of_true rfl hnsid
  · exact iff_of_false (by simp) hnsid

/-- The opcodes are different, so one of the cases is left. -/
theorem adminStores_iff : AdminStores env c ↔ (adminStatus env c).isSome = true := by
  unfold AdminStores adminStatus
  by_cases hsgl : c.usesSgl = true
  · simp [hsgl,asStored]
  · rw [if_neg hsgl,or_iff_right hsgl]
    generalize c.opcode = op
    split_ifs with h h h h h h h h
    · simp +decide [h,createCqStatus_isSome]
    · simp [h,createSqStatus_isSome]
    · simp [h,deleteCqStatus_isSome]
    · simp +decide [h,deleteSqStatus_isSome]
    · simp +decide [h]
    · simp +decide [h,setFeatureStatus_isSome]
    · simp +decide [h,getFeatureStatus_isSome]
    · simp +decide [h,formatNvmStatus_isSome]
    · simp [*]

end Stores

/-- What the hardware answers to a command: nothing, or the contents of its response. -/
inductive HostRsp
  | none
  | phif (sct sc : Nat)
  | dma (status : Nat)

/-- Messages that are not about tag `e`. DMA responses come when they come. -/
def avoids (e : Nat) (_ : Firmware) : FwLabel → Prop
  | .nvmeCmd cmd _ => cmd.tag ≠ e
  | .cmdRsp tag _ _ => tag ≠ e
  | .dmaRsp _ _ => True

/-- From `s` the command is handled up to its completion: by the task itself, or by the response to it,
whatever else happens before the response. -/
inductive Handled (env : FwEnv) (cmd : HdcNvmeCmd) (dptr : NvmeDataPtr) (s : Firmware) :
    HostRsp → Firmware → Prop
  | direct {res : NvmeRequest} {u : Firmware} (h : s.dispatch env cmd dptr = some (res,u))
      (hres : res ≠ .processing) : Handled env cmd dptr s .none (u.complete env cmd.tag)
  | phif {u t s' : Firmware} {sct sc : Nat} (h : s.dispatch env cmd dptr = some (.processing,u))
      (hrw : cmd.sqe.IsRw) (hrun : Reaches (Firmware.step env) (avoids cmd.tag) u t)
      (hrsp : t.step env (.cmdRsp cmd.tag sct sc) = some s') : Handled env cmd dptr s (.phif sct sc) s'
  | dma {u t s' : Firmware} {r : DmaReq} {i status : Nat}
      (h : s.dispatch env cmd dptr = some (.processing,u)) (hwait : cmd.WaitsForDma)
      (hrun : Reaches (Firmware.step env) (avoids cmd.tag) u t) (hreq : t.dma.inFlight[i]? = some r)
      (hown : r.hostTag = cmd.tag) (hrsp : t.step env (.dmaRsp i status) = some s') :
      Handled env cmd dptr s (.dma status) s'

/-- The command stores its status itself: an admin command of those above; an I/O command that is refused,
a read or a write, or any other when nothing is pending. -/
def StoresStatus (env : FwEnv) (s : Firmware) (cmd : HdcNvmeCmd) : Prop :=
  if cmd.sqid = 0 then AdminStores env cmd.sqe
  else ¬ env.Accepts cmd.sqe ∨ cmd.sqe.IsRw ∨ s.hdc.pending = []

/-- The status that an accepted I/O command ends with: that of its response, or that of an opcode without
a handler. -/
def HostRsp.ioStatus : HostRsp → Nat × Nat
  | .phif sct sc => (sct,sc)
  | .none => (nvmeSctGeneric,nvmeScInvalidOpcode)
  | .dma _ => (nvmeSctGeneric,nvmeScInvalidOpcode)

/-- The status that a command of those above ends with. -/
def statusOf (env : FwEnv) (cmd : HdcNvmeCmd) (rsp : HostRsp) : Option (Nat × Nat) :=
  if cmd.sqid = 0 then adminStatus env cmd.sqe
  else some ((ioRefusal env.toHdcEnv cmd.sqe).elim rsp.ioStatus fun sc => (nvmeSctGeneric,sc))

namespace Firmware

variable {env : FwEnv} {s s' t u : Firmware} {l : FwLabel} {cmd : HdcNvmeCmd} {dptr : NvmeDataPtr}
  {res : NvmeRequest} {rsp : HostRsp}

/-- A completion of the task, of an entry with a status. -/
theorem complete_cpl {h : Hdc} {sct sc : Nat} (hh : h.HoldsCmd cmd)
    (hresult : (h.entry cmd.tag).result = 0) (hu : u.hdc = h.setStatus cmd.tag sct sc) :
    (u.complete env cmd.tag).hdc.cpl cmd.tag = cplOf cmd sct sc := by
  have hentry : u.hdc.entry cmd.tag = { h.entry cmd.tag with staSct := sct, staSc := sc } := by
    rw [hu]
    exact Hdc.setEntry_self ..
  rw [complete,completeDirectly_cpl,hentry]
  exact setupPhifCmdCpl_eq hh hresult

/-- An I/O command that the task completes: a check has failed, or its opcode has no handler and nothing
else was pending. -/
theorem ioDirect_status {env : HdcEnv} {h hdc : Hdc} (hh : h.HoldsCmd cmd)
    (hstores : ¬ env.Accepts cmd.sqe ∨ cmd.sqe.IsRw ∨ h.pending = [])
    (hio : handleNvmeIoCommand env h cmd.tag = some (res,hdc)) (hres : res ≠ .processing) :
    ∃ (g : Hdc) (sc : Nat), hdc = g.setStatus cmd.tag nvmeSctGeneric sc ∧ g.entry = h.entry ∧
      sc = (ioRefusal env cmd.sqe).getD nvmeScInvalidOpcode := by
  have hsqe : (h.entry cmd.tag).sqe = cmd.sqe := congrArg HdcNvmeCmd.sqe hh
  cases hrefusal : ioRefusal env cmd.sqe with
  | some sc =>
    have hrefused : handleNvmeIoCommand env h cmd.tag =
        some (.invalid,h.setStatus cmd.tag nvmeSctGeneric sc) :=
      handleNvmeIoCommand_refused (by rw [hsqe]; exact hrefusal)
    rw [hio] at hrefused
    exact ⟨h,sc,(Prod.mk.inj (Option.some.inj hrefused)).2,rfl,rfl⟩
  | none =>
    have hacc := ioRefusal_eq_none_iff.mp hrefusal
    obtain ⟨res',hdc',hio',heffect⟩ := handleNvmeIoCommand_effect env h cmd.tag
    rw [hio] at hio'
    obtain ⟨rfl,rfl⟩ := Prod.mk.inj (Option.some.inj hio')
    cases heffect with
    | rejected sc hnot => exact absurd (hsqe ▸ hacc) hnot
    | flow => exact absurd rfl hres
    | ignored => exact absurd rfl hres
    | unsupported x g _ hrw hnext =>
      rw [hsqe] at hrw
      have hpend : h.pending = [] :=
        (hstores.resolve_left fun hnot => hnot hacc).resolve_left hrw
      obtain ⟨rfl,-,hentry,-⟩ := getNextHostCmdEntry_alone hpend hnext
      exact ⟨g,nvmeScInvalidOpcode,rfl,hentry,rfl⟩

/-- A command that the task completes. -/
theorem direct_cpl (hs : s.Clean) (hstores : StoresStatus env s cmd)
    (h : s.dispatch env cmd dptr = some (res,u)) (hres : res ≠ .processing) :
    ∃ sct sc, statusOf env cmd .none = some (sct,sc) ∧
      (u.complete env cmd.tag).hdc.cpl cmd.tag = cplOf cmd sct sc := by
  have hhold := receive_holdsCmd s cmd
  have hresult := (hs.receive cmd).results cmd.tag
  rcases dispatch_cases h with ⟨hsqid,hadmin⟩ | ⟨hsqid,hdc,hio,rfl⟩
  · rw [StoresStatus,if_pos hsqid,adminStores_iff,Option.isSome_iff_exists] at hstores
    obtain ⟨⟨sct,sc⟩,hstatus⟩ := hstores
    refine ⟨sct,sc,?_,?_⟩
    · rw [statusOf,if_pos hsqid]
      exact hstatus
    · cases handleNvmeAdminCommand_effect hadmin with
      | waits => exact absurd rfl hres
      | done _ _ _ _ hhdc _ =>
        rw [receive_sqe,hstatus] at hhdc
        exact complete_cpl hhold hresult hhdc
  · rw [StoresStatus,if_neg hsqid] at hstores
    replace hstores : ¬ (s.hdcEnv env).Accepts cmd.sqe ∨ cmd.sqe.IsRw ∨ (s.receive cmd).hdc.pending = [] :=
      hstores
    obtain ⟨g,sc,hdc_eq,hentry,hsc⟩ := ioDirect_status hhold hstores hio hres
    refine ⟨nvmeSctGeneric,sc,?_,?_⟩
    · rw [statusOf,if_neg hsqid,hsc]
      change some ((ioRefusal (s.hdcEnv env) cmd.sqe).elim _ _) = _
      cases ioRefusal (s.hdcEnv env) cmd.sqe <;> rfl
    · exact complete_cpl (hhold.of_entry hentry) (by rw [hentry]; exact hresult) hdc_eq

/-- Until its response comes, the command stays in its entry. -/
theorem holdsCmd_step (hs : s.Clean ∧ s.hdc.HoldsCmd cmd) (hl : avoids cmd.tag s l)
    (h : s.step env l = some s') : s'.Clean ∧ s'.hdc.HoldsCmd cmd := by
  obtain ⟨hclean,hhold⟩ := hs
  refine ⟨hclean.step h,?_⟩
  have hkept := Hdc.HoldsCmd.keptFor (s.hdcEnv env) cmd
  cases l with
  | nvmeCmd cmd' dptr' =>
    obtain ⟨reply,-,hstep⟩ := hdcHostCmdTask_refines h
    exact (hkept.step (l := .nvmeCmd cmd' reply) hl ⟨hclean.tagged,hhold⟩ hstep).2
  | cmdRsp tag sct sc =>
    obtain ⟨hdc,hstep,rfl⟩ := Option.map_eq_some_iff.mp h
    exact (hkept.step (l := .cmdRsp tag sct sc) hl ⟨hclean.tagged,hhold⟩ hstep).2
  | dmaRsp i status =>
    obtain ⟨e,hentry⟩ := answer_entry hclean.first h
    obtain ⟨y,hy,hsaved,-,-⟩ := chunkError_cases s.hdc e status
    rw [hy] at hentry
    exact (hhold.setEntry hsaved).of_entry hentry

/-- A command that is left to the datapath is in its entry. -/
theorem dispatch_holdsCmd (hs : s.Clean) (hsqid : cmd.sqid ≠ 0)
    (h : s.dispatch env cmd dptr = some (.processing,u)) : u.hdc.HoldsCmd cmd ∧ env.Accepts cmd.sqe := by
  rcases dispatch_cases h with ⟨hzero,-⟩ | ⟨-,hdc,hio,rfl⟩
  · exact absurd hzero hsqid
  · have hhold := receive_holdsCmd s cmd
    have htagged := (hs.receive cmd).tagged
    have hsqe : ((s.receive cmd).hdc.entry cmd.tag).sqe = cmd.sqe := receive_sqe s cmd
    have htag : ((s.receive cmd).hdc.entry cmd.tag).cmdTag = cmd.tag := by rw [receive_entry]
    obtain ⟨res',hdc',hio',heffect⟩ := handleNvmeIoCommand_effect (s.hdcEnv env) (s.receive cmd).hdc cmd.tag
    rw [hio] at hio'
    obtain ⟨rfl,rfl⟩ := Prod.mk.inj (Option.some.inj hio')
    cases heffect with
    | flow x g _ hacc _ hnext hrun =>
      rw [hsqe] at hacc
      refine ⟨?_,hacc⟩
      have hqueue : ({ (s.receive cmd).hdc with
          cmdPend := (s.receive cmd).hdc.cmdPend ++ [cmd.tag] } : Hdc).HoldsCmd cmd := hhold.of_entry rfl
      have hentry := (getNextHostCmdEntry_pending hnext).2.1
      have hg : g.Tagged ∧ g.HoldsCmd cmd :=
        ⟨((htagged.of_entry rfl).setState htag _).of_entry hentry,
          (hqueue.setState cmd.tag _).of_entry hentry⟩
      exact ((Hdc.HoldsCmd.keptFor (s.hdcEnv env) cmd).datapathHdc (e := cmd.tag + 1)
        (Nat.succ_ne_self _) hg hrun).2
    | ignored x g hacc _ hnext =>
      rw [hsqe] at hacc
      exact ⟨hhold.of_entry (getNextHostCmdEntry_pending hnext).2.1,hacc⟩

theorem step_of_dispatch (h : s.dispatch env cmd dptr = some (.processing,u)) :
    s.step env (.nvmeCmd cmd dptr) = some u := by
  rw [step,hdcHostCmdTask,h]
  rfl

/-- An admin command that waits stores no status. -/
theorem sqid_ne_zero_of_processing (hstores : StoresStatus env s cmd)
    (h : s.dispatch env cmd dptr = some (.processing,u)) : cmd.sqid ≠ 0 := by
  intro hsqid
  rcases dispatch_cases h with ⟨-,heffect⟩ | ⟨hnot,-⟩
  · rw [StoresStatus,if_pos hsqid,adminStores_iff] at hstores
    cases handleNvmeAdminCommand_effect heffect with
    | waits _ _ hstatus _ _ =>
      rw [receive_sqe] at hstatus
      rw [hstatus] at hstores
      cases hstores
    | done _ _ _ hres _ _ => exact hres rfl
  · exact hnot hsqid

/-- A command that stores its status has a completion that depends on the command and its response only. -/
theorem handled_cpl (hs : s.Clean) (hstores : StoresStatus env s cmd) (h : Handled env cmd dptr s rsp t) :
    ∃ sct sc, statusOf env cmd rsp = some (sct,sc) ∧ t.hdc.cpl cmd.tag = cplOf cmd sct sc := by
  cases h with
  | direct hdispatch hres => exact direct_cpl hs hstores hdispatch hres
  | @phif u v _ sct sc hdispatch hrw hrun hrsp =>
    have hsqid := sqid_ne_zero_of_processing hstores hdispatch
    obtain ⟨hhold,hacc⟩ := dispatch_holdsCmd hs hsqid hdispatch
    have hv := hrun.invariant (fun w => w.Clean ∧ w.hdc.HoldsCmd cmd)
      ⟨hs.step (step_of_dispatch hdispatch),hhold⟩ fun _ _ _ hw hl hstep => holdsCmd_step hw hl hstep
    refine ⟨sct,sc,?_,?_⟩
    · rw [statusOf,if_neg hsqid,ioRefusal_eq_none_iff.mpr hacc]
      rfl
    · obtain ⟨hdc,hstep,rfl⟩ := Option.map_eq_some_iff.mp hrsp
      exact cmdRsp_cpl hv.1.tagged hv.2 (hv.1.results cmd.tag) hrw hstep
  | dma hdispatch hwait _ _ _ _ => exact absurd hwait.1 (sqid_ne_zero_of_processing hstores hdispatch)

/-- Two histories of any commands, and a command that stores its status itself: if it is handled in both
with the same response, its completion has the same status and the same result. -/
theorem completions_do_not_leak (hreach : Reaches (step env) always (init env) s)
    (hreach' : Reaches (step env) always (init env) s') (hstores : StoresStatus env s cmd)
    (hstores' : StoresStatus env s' cmd) (h : Handled env cmd dptr s rsp t)
    (h' : Handled env cmd dptr s' rsp u) :
    (t.hdc.cpl cmd.tag).status = (u.hdc.cpl cmd.tag).status ∧
      (t.hdc.cpl cmd.tag).result = (u.hdc.cpl cmd.tag).result := by
  obtain ⟨sct,sc,hstatus,hcpl⟩ := handled_cpl (clean_of_reaches hreach) hstores h
  obtain ⟨sct',sc',hstatus',hcpl'⟩ := handled_cpl (clean_of_reaches hreach') hstores' h'
  rw [hstatus] at hstatus'
  cases hstatus'
  rw [hcpl,hcpl']
  exact ⟨rfl,rfl⟩

/-- The state in which the handler leaves a new command. -/
def dispatchOr (env : FwEnv) (s : Firmware) (cmd : HdcNvmeCmd) (dptr : NvmeDataPtr) : Firmware :=
  ((s.dispatch env cmd dptr).map Prod.snd).getD s

theorem dispatch_dispatchOr (r : NvmeRequest) (h : (s.dispatch env cmd dptr).map Prod.fst = some r) :
    s.dispatch env cmd dptr = some (r,s.dispatchOr env cmd dptr) := by
  obtain ⟨⟨res',u⟩,hdispatch,rfl⟩ := Option.map_eq_some_iff.mp h
  rw [dispatchOr,hdispatch]
  rfl

/-- Delete the completion queue 0, which is refused. -/
def deleteCqZero (tag : Nat) : HdcNvmeCmd := adminCommand tag nvmeAdminDeleteCq 0

/-- A write on I/O queue 1. -/
def writeCommand (tag : Nat) : HdcNvmeCmd := ⟨tag,1,0,0,0,⟨nvmeIoWrite,0,0,8,0,0,0⟩⟩

/-- A history with one command on tag 3. -/
def afterRefusal : Firmware := stepOr neverBusy (init neverBusy) (.nvmeCmd (deleteCqZero 3) ⟨0,0⟩)

theorem reaches_afterRefusal : Reaches (step neverBusy) always (init neverBusy) afterRefusal :=
  Reaches.single trivial (step_stepOr (by decide +kernel))

/-- A write on tag 3 with an error in its response: after power on, and after a command on the tag that was
refused. -/
theorem completions_do_not_leak_write : ∃ (env : FwEnv) (s s' t u : Firmware),
    Reaches (step env) always (init env) s ∧ Reaches (step env) always (init env) s' ∧
      (s.hdc.entry 3).staSct ≠ (s'.hdc.entry 3).staSct ∧
      Handled env (writeCommand 3) ⟨0,0⟩ s (.phif 2 0x80) t ∧
      Handled env (writeCommand 3) ⟨0,0⟩ s' (.phif 2 0x80) u ∧
      (t.hdc.cpl 3).status = (u.hdc.cpl 3).status ∧ (t.hdc.cpl 3).result = (u.hdc.cpl 3).result := by
  let v := dispatchOr neverBusy (init neverBusy) (writeCommand 3) ⟨0,0⟩
  let w := dispatchOr neverBusy afterRefusal (writeCommand 3) ⟨0,0⟩
  let t := stepOr neverBusy v (.cmdRsp 3 2 0x80)
  let u := stepOr neverBusy w (.cmdRsp 3 2 0x80)
  have ht : Handled neverBusy (writeCommand 3) ⟨0,0⟩ (init neverBusy) (.phif 2 0x80) t :=
    .phif (dispatch_dispatchOr .processing (by decide +kernel)) (Or.inr rfl) (.refl v)
      (step_stepOr (by decide +kernel))
  have hu : Handled neverBusy (writeCommand 3) ⟨0,0⟩ afterRefusal (.phif 2 0x80) u :=
    .phif (dispatch_dispatchOr .processing (by decide +kernel)) (Or.inr rfl) (.refl w)
      (step_stepOr (by decide +kernel))
  have hstores (s : Firmware) : StoresStatus neverBusy s (writeCommand 3) := Or.inr (Or.inl (Or.inr rfl))
  exact ⟨neverBusy,init neverBusy,afterRefusal,t,u,.refl _,reaches_afterRefusal,by decide +kernel,ht,hu,
    completions_do_not_leak (.refl _) reaches_afterRefusal (hstores _) (hstores _) ht hu⟩

/-- Create the completion queue 1 with 16 entries, contiguous. -/
def createCqOne (tag : Nat) : HdcNvmeCmd := adminCommand tag nvmeAdminCreateCq (1 + 16 * 2^16 + 2^32)

/-- The same command succeeds after power on, and after a refused command on its tag, whose completion has
left, it reports the error of that command. -/
theorem completion_leaks : ∃ (env : FwEnv) (s s' t u : Firmware),
    Reaches (step env) always (init env) s ∧ Reaches (step env) always (init env) s' ∧
      s'.hdc.pending = [] ∧ s'.dma.inFlight = [] ∧ (completions 3 s'.hdc.log).length = 1 ∧
      Handled env (createCqOne 3) ⟨0,0⟩ s .none t ∧ Handled env (createCqOne 3) ⟨0,0⟩ s' .none u ∧
      (t.hdc.cpl 3).status = 0 ∧ (u.hdc.cpl 3).status = 1 <<< 1 ||| 1 <<< 9 := by
  let v := dispatchOr neverBusy (init neverBusy) (createCqOne 3) ⟨0,0⟩
  let w := dispatchOr neverBusy afterRefusal (createCqOne 3) ⟨0,0⟩
  have ht : Handled neverBusy (createCqOne 3) ⟨0,0⟩ (init neverBusy) .none (v.complete neverBusy 3) :=
    .direct (dispatch_dispatchOr .complete (by decide +kernel)) (by decide)
  have hu : Handled neverBusy (createCqOne 3) ⟨0,0⟩ afterRefusal .none (w.complete neverBusy 3) :=
    .direct (dispatch_dispatchOr .complete (by decide +kernel)) (by decide)
  exact ⟨neverBusy,init neverBusy,afterRefusal,v.complete neverBusy 3,w.complete neverBusy 3,.refl _,
    reaches_afterRefusal,by decide +kernel,by decide +kernel,by decide +kernel,ht,hu,by decide +kernel,
    by decide +kernel⟩

end Firmware

end Sdssd.Fw
