import Mathlib.Data.List.Perm.Basic
import Sdssd.Fw.Admin

/-!
# Commands that are completed by their DMA responses

A command whose handler issues DMA requests should be completed once, when the last response has come.
The responses find the command through the internal tag, which all requests of a type share, and through
the chunk counter, which is tested the other way round.
-/

namespace Sdssd.Fw

open Framework

/-- The events of one command. -/
def eventsOf (e : Nat) (trace : List DmaEvent) : List DmaEvent := trace.filter fun ev => ev.about = e

theorem eventsOf_append (e : Nat) (trace new : List DmaEvent) :
    eventsOf e (trace ++ new) = eventsOf e trace ++ eventsOf e new := List.filter_append ..

/-- Number of requests. -/
def chunkReqs (evs : List DmaEvent) : Nat :=
  evs.countP fun
    | .req _ => true
    | _ => false

/-- The status of each response. -/
def chunkRsps (evs : List DmaEvent) : List Nat :=
  evs.filterMap fun
    | .rsp _ status => some status
    | _ => none

def chunkCpls (evs : List DmaEvent) : List PhifCmdCpl :=
  evs.filterMap fun
    | .cpl _ c => some c
    | _ => none

/-- The status code of a completion. -/
def PhifCmdCpl.sc (c : PhifCmdCpl) : Nat := c.status / 2 % 2^8

/-- A command that has issued requests: no completion while responses are missing; one when all have
come, with an error code if one of them had an error. -/
def Settled (evs : List DmaEvent) : Prop :=
  (chunkRsps evs).length < chunkReqs evs ∧ chunkCpls evs = [] ∨
    (chunkRsps evs).length = chunkReqs evs ∧ ∃ c, chunkCpls evs = [c] ∧
      ((∃ status ∈ chunkRsps evs, status ≠ 0) → c.sc = nvmeScInternal)

theorem setupPhifCmdCpl_sc {x : HostNvmeCmdEntry} (h : x.staSc = nvmeScInternal) :
    (setupPhifCmdCpl x).sc = nvmeScInternal := by
  have hor : x.staSc <<< 1 ||| x.staSct <<< 9 = x.staSct * 512 + 12 := by
    rw [h,Nat.or_comm,← Nat.shiftLeft_add_eq_or_of_lt (by decide),Nat.shiftLeft_eq]
    rfl
  rw [PhifCmdCpl.sc,setupPhifCmdCpl,hor,nvmeScInternal]
  dsimp only
  omega

/-- An admin command that waits for a DMA response. -/
def HdcNvmeCmd.WaitsForDma (cmd : HdcNvmeCmd) : Prop := cmd.sqid = 0 ∧ cmd.sqe.WaitsForDma

instance (cmd : HdcNvmeCmd) : Decidable cmd.WaitsForDma := by
  unfold HdcNvmeCmd.WaitsForDma
  infer_instance

/-- Since `base` the command `e` has had the events `evs`. -/
def DmaCtl.Traced (base : List DmaEvent) (e : Nat) (evs : List DmaEvent) (d : DmaCtl) : Prop :=
  ∃ new, d.trace = base ++ new ∧ eventsOf e new = evs

theorem DmaCtl.Traced.snoc {base evs : List DmaEvent} {e : Nat} {d d' : DmaCtl} {ev : DmaEvent}
    (h : d.Traced base e evs) (hd' : d'.trace = d.trace ++ [ev]) :
    d'.Traced base e (evs ++ eventsOf e [ev]) := by
  obtain ⟨new,htrace,hevs⟩ := h
  refine ⟨new ++ [ev],?_,?_⟩
  · rw [hd',htrace,List.append_assoc]
  · rw [eventsOf_append,hevs]

theorem DmaCtl.Traced.snoc_other {base evs : List DmaEvent} {e : Nat} {d d' : DmaCtl} {ev : DmaEvent}
    (h : d.Traced base e evs) (hd' : d'.trace = d.trace ++ [ev]) (hev : ev.about ≠ e) :
    d'.Traced base e evs := by
  have hsnoc := h.snoc hd'
  rwa [eventsOf,List.filter_cons_of_neg (by simpa using hev),List.filter_nil,List.append_nil] at hsnoc

theorem DmaCtl.Traced.snoc_self {base evs : List DmaEvent} {e : Nat} {d d' : DmaCtl} {ev : DmaEvent}
    (h : d.Traced base e evs) (hd' : d'.trace = d.trace ++ [ev]) (hev : ev.about = e) :
    d'.Traced base e (evs ++ [ev]) := by
  have hsnoc := h.snoc hd'
  rwa [eventsOf,List.filter_cons_of_pos (by simpa using hev),List.filter_nil] at hsnoc

/-- Nothing in flight is for command `e` or will be taken for it. -/
structure DmaCtl.Quiet (base : List DmaEvent) (e : Nat) (evs : List DmaEvent) (d : DmaCtl) : Prop where
  first : d.FirstTags
  others : ∀ r ∈ d.inFlight, r.hostTag ≠ e ∧ (d.fwCmd r.itnlTag).hostTag ≠ e
  traced : d.Traced base e evs

def isRdma (r : DmaReq) : Bool := r.ty = .rdma

/-- One read request is in flight, for command `e`, whose counter was `c` before. -/
structure DmaCtl.Waiting (base : List DmaEvent) (e : Nat) (c : BitVec 8) (d : DmaCtl) : Prop where
  first : d.FirstTags
  mine : ∃ r, d.inFlight.filter isRdma = [r] ∧ r.hostTag = e
  route : (d.fwCmd FwReqType.rdma.first).hostTag = e
  others : ∀ r ∈ d.inFlight, isRdma r = false → r.hostTag ≠ e ∧ (d.fwCmd r.itnlTag).hostTag ≠ e
  count : d.ckc e = c + 1
  traced : d.Traced base e [.req e]

namespace DmaCtl

variable {base evs : List DmaEvent} {e ctx : Nat} {c : BitVec 8} {d : DmaCtl} {busy : Bool}

/-- A request that is posted for another command takes over the internal tag. -/
theorem post_hostTag_ne {r : DmaReq} (hr : r.hostTag ≠ e) (busy : Bool) (handler : FwCmdCallback) (ctx : Nat)
    {tag : Nat} (htag : tag = r.itnlTag ∨ (d.fwCmd tag).hostTag ≠ e) :
    ((d.post busy r handler ctx).fwCmd tag).hostTag ≠ e := by
  change (Function.update d.fwCmd r.itnlTag _ tag).hostTag ≠ e
  by_cases heq : tag = r.itnlTag
  · rw [heq,Function.update_self]
    exact hr
  · rw [Function.update_of_ne heq]
    exact htag.resolve_left heq

theorem Quiet.post {r : DmaReq} {handler : FwCmdCallback} (h : d.Quiet base e evs)
    (hfirst : (d.post busy r handler ctx).FirstTags) (hr : r.hostTag ≠ e) :
    (d.post busy r handler ctx).Quiet base e evs := by
  constructor
  case first => exact hfirst
  case others =>
    intro x hx
    rcases mem_post hx with hx | rfl
    · exact ⟨(h.others x hx).1,post_hostTag_ne hr busy handler ctx (Or.inr (h.others x hx).2)⟩
    · exact ⟨hr,post_hostTag_ne hr busy handler ctx (Or.inl rfl)⟩
  case traced => exact h.traced.snoc_other rfl hr

theorem Quiet.produce {x : Nat} (h : d.Quiet base e evs) (hx : x ≠ e) (cpl : PhifCmdCpl) :
    (d.produce x cpl).Quiet base e evs :=
  ⟨h.first.produce x cpl,h.others,h.traced.snoc_other rfl hx⟩

theorem Quiet.answered {r : DmaReq} {i status x : Nat} (h : d.Quiet base e evs) (hr : r.hostTag ≠ e) :
    (d.answered r i status x).Quiet base e evs :=
  ⟨h.first.answered i status x,fun y hy => h.others y (List.mem_of_mem_eraseIdx hy),
    h.traced.snoc_other rfl hr⟩

/-- A write request for another command. -/
theorem Waiting.post {r : DmaReq} {handler : FwCmdCallback} (h : d.Waiting base e c)
    (hfirst : (d.post busy r handler ctx).FirstTags) (hr : r.hostTag ≠ e) (hty : r.ty = .wdma)
    (htag : r.itnlTag = FwReqType.wdma.first) : (d.post busy r handler ctx).Waiting base e c := by
  have hrdma : isRdma r = false := by
    rw [isRdma,hty]
    rfl
  constructor
  case first => exact hfirst
  case mine =>
    obtain ⟨q,hq,hhost⟩ := h.mine
    refine ⟨q,?_,hhost⟩
    cases busy with
    | true => exact hq
    | false =>
      change (d.inFlight ++ [r]).filter isRdma = [q]
      rw [List.filter_append,hq,List.filter_cons_of_neg (by rw [hrdma]; decide)]
      rfl
  case route =>
    change (Function.update d.fwCmd r.itnlTag _ FwReqType.rdma.first).hostTag = e
    rw [htag,Function.update_of_ne (by decide)]
    exact h.route
  case others =>
    intro x hx hxr
    rcases mem_post hx with hx | rfl
    · exact ⟨(h.others x hx hxr).1,post_hostTag_ne hr busy handler ctx (Or.inr (h.others x hx hxr).2)⟩
    · exact ⟨hr,post_hostTag_ne hr busy handler ctx (Or.inl rfl)⟩
  case count =>
    change Function.update d.ckc r.hostTag _ e = c + 1
    rw [Function.update_of_ne (Ne.symm hr)]
    exact h.count
  case traced => exact h.traced.snoc_other rfl hr

theorem Waiting.produce {x : Nat} (h : d.Waiting base e c) (hx : x ≠ e) (cpl : PhifCmdCpl) :
    (d.produce x cpl).Waiting base e c :=
  ⟨h.first.produce x cpl,h.mine,h.route,h.others,h.count,h.traced.snoc_other rfl hx⟩

/-- The other requests of a list from which one is taken. -/
theorem filter_eraseIdx_perm {α : Type*} {l : List α} {i : Nat} {x : α} (p : α → Bool)
    (h : l[i]? = some x) : ((x :: l.eraseIdx i).filter p).Perm (l.filter p) := by
  obtain ⟨hi,rfl⟩ := List.getElem?_eq_some_iff.mp h
  exact (List.getElem_cons_eraseIdx_perm hi).filter p

/-- A response to another request. -/
theorem Waiting.answered_other {r : DmaReq} {i status x : Nat} (h : d.Waiting base e c)
    (hi : d.inFlight[i]? = some r) (hr : isRdma r = false) (hx : x ≠ e) :
    (d.answered r i status x).Waiting base e c := by
  have hmem : r ∈ d.inFlight := List.mem_of_getElem? hi
  constructor
  case first => exact h.first.answered i status x
  case mine =>
    obtain ⟨q,hq,hhost⟩ := h.mine
    refine ⟨q,?_,hhost⟩
    have hperm := filter_eraseIdx_perm isRdma hi
    rw [hq,List.filter_cons_of_neg (by rw [hr]; decide)] at hperm
    exact List.perm_singleton.mp hperm
  case route => exact h.route
  case others => exact fun y hy => h.others y (List.mem_of_mem_eraseIdx hy)
  case count =>
    change Function.update d.ckc x _ e = c + 1
    rw [Function.update_of_ne (Ne.symm hx)]
    exact h.count
  case traced => exact h.traced.snoc_other rfl (h.others r hmem hr).1

/-- The response to the request of the command. -/
theorem Waiting.answered_mine {r : DmaReq} {i status : Nat} (h : d.Waiting base e c)
    (hi : d.inFlight[i]? = some r) (hr : isRdma r = true) :
    (d.answered r i status e).Quiet base e [.req e,.rsp e status] := by
  obtain ⟨q,hq,hhost⟩ := h.mine
  have hperm := filter_eraseIdx_perm isRdma hi
  rw [hq,List.filter_cons_of_pos hr] at hperm
  have heq := List.perm_singleton.mp hperm
  have hrq : r = q := (List.cons.inj heq).1
  have hnone : (d.inFlight.eraseIdx i).filter isRdma = [] := (List.cons.inj heq).2
  constructor
  case first => exact h.first.answered i status e
  case others =>
    intro y hy
    apply h.others y (List.mem_of_mem_eraseIdx hy)
    rw [← Bool.not_eq_true]
    exact List.filter_eq_nil_iff.mp hnone y hy
  case traced =>
    have hev : (DmaEvent.rsp r.hostTag status).about = e := hrq ▸ hhost
    have htraced : (d.answered r i status e).Traced base e ([.req e] ++ [.rsp r.hostTag status]) :=
      h.traced.snoc_self rfl hev
    rwa [show r.hostTag = e from hev] at htraced

end DmaCtl

/-- What a new command does on the DMA side: it issues one read request and waits, it is left to the
datapath, or it issues write requests and is completed at once. -/
inductive TaskDma (env : FwEnv) (cmd : HdcNvmeCmd) (dptr : NvmeDataPtr) (d : DmaCtl) : DmaCtl → Prop
  | waits (d' : DmaCtl) (hwait : cmd.WaitsForDma) (length : Nat)
      (hsend : d.fwSendReq env.toDmaEnv .rdma dptr.prp1 ⟨.currentLbaRange,0⟩ length cmd.tag
        .setftLbartRdmaCompletion cmd.tag = some d') : TaskDma env cmd dptr d d'
  | flow (hsqid : cmd.sqid ≠ 0) : TaskDma env cmd dptr d d
  | done (d' : DmaCtl) (c : PhifCmdCpl) (hwait : ¬ cmd.WaitsForDma)
      (hsends : DmaCtl.Sends env.toDmaEnv .wdma cmd.tag d d') : TaskDma env cmd dptr d (d'.produce cmd.tag c)

section Task

variable {env : FwEnv} {s s' : Firmware} {cmd : HdcNvmeCmd} {dptr : NvmeDataPtr} {d d' : DmaCtl}
  {base evs : List DmaEvent} {e : Nat} {c : BitVec 8}

theorem Firmware.hdcHostCmdTask_dma (h : s.hdcHostCmdTask env cmd dptr = some s') :
    TaskDma env cmd dptr s.dma s'.dma := by
  obtain ⟨⟨res,t⟩,hdispatch,rfl⟩ := Option.map_eq_some_iff.mp h
  rcases dispatch_cases hdispatch with ⟨hsqid,hadmin⟩ | ⟨hsqid,hdc,hio,rfl⟩
  · cases handleNvmeAdminCommand_effect hadmin with
    | waits dma hwait hstatus length hsend =>
      rw [receive_sqe] at hwait
      rw [receive_entry] at hsend
      exact .waits _ ⟨hsqid,hwait⟩ length hsend
    | done _ _ hwait hres hhdc hdma =>
      rw [receive_sqe] at hwait
      rw [receive_entry] at hdma
      rw [if_neg hres]
      exact .done _ _ (fun hw => hwait hw.2) hdma
  · by_cases hres : res = .processing
    · rw [if_pos hres]
      exact .flow hsqid
    · rw [if_neg hres]
      exact .done _ _ (fun hw => hsqid hw.1) (.refl _)

theorem TaskDma.firstTags (h : TaskDma env cmd dptr d d') (hd : d.FirstTags) : d'.FirstTags := by
  cases h with
  | waits _ _ _ hsend =>
    rw [DmaCtl.fwSendReq_eq_some hd hsend]
    exact hd.post rfl (by decide) _ _
  | flow => exact hd
  | done d₁ cpl _ hsends =>
    obtain ⟨hd₁,-⟩ := hsends.invariant (fun _ => True) (fun _ _ _ _ _ _ _ _ _ _ => trivial) hd trivial
    exact hd₁.produce _ cpl

/-- A command on another tag, while nothing is expected for command `e`. -/
theorem DmaCtl.Quiet.task (hd : d.Quiet base e evs) (h : TaskDma env cmd dptr d d') (hne : cmd.tag ≠ e) :
    d'.Quiet base e evs := by
  have hfirst := h.firstTags hd.first
  cases h with
  | waits _ _ _ hsend =>
    rw [fwSendReq_eq_some hd.first hsend] at hfirst ⊢
    exact hd.post hfirst hne
  | flow => exact hd
  | done d₁ cpl _ hsends =>
    obtain ⟨-,hd₁⟩ := hsends.invariant (Quiet base e evs)
      (fun _ _ _ _ _ hposted hd hr _ _ => hd.post hposted (hr ▸ hne)) hd.first hd
    exact hd₁.produce hne cpl

/-- A command on another tag that does not need a read request, while command `e` waits. -/
theorem DmaCtl.Waiting.task (hd : d.Waiting base e c) (h : TaskDma env cmd dptr d d') (hne : cmd.tag ≠ e)
    (hwait : ¬ cmd.WaitsForDma) : d'.Waiting base e c := by
  cases h with
  | waits _ hw _ _ => exact absurd hw hwait
  | flow => exact hd
  | done d₁ cpl _ hsends =>
    obtain ⟨-,hd₁⟩ := hsends.invariant (Waiting base e c)
      (fun _ _ _ _ _ hposted hd hr hty htag => hd.post hposted (hr ▸ hne) hty htag) hd.first hd
    exact hd₁.produce hne cpl

end Task

/-- Command `e` waits for its response, or nothing more is expected and it is settled. -/
def DmaCtl.Stage (base : List DmaEvent) (e : Nat) (c : BitVec 8) (d : DmaCtl) : Prop :=
  d.Waiting base e c ∨ ∃ evs, d.Quiet base e evs ∧ Settled evs

section Answer

variable {env : FwEnv} {s s' : Firmware} {r : DmaReq} {i status : Nat} {base evs : List DmaEvent} {e : Nat}
  {c : BitVec 8}

/-- A response that is taken for another command, of which it is. -/
theorem DmaCtl.Quiet.answer (hd : s.dma.Quiet base e evs) (hi : s.dma.inFlight[i]? = some r)
    (h : AnswerEffect env s r i status (s.dma.fwCmd r.itnlTag).hostTag s') : s'.dma.Quiet base e evs := by
  obtain ⟨hhost,hroute⟩ := hd.others r (List.mem_of_getElem? hi)
  cases h with
  | silent => exact hd.answered hhost
  | completes _ fn _ => exact (hd.answered hhost).produce hroute _

/-- A routine of a request in flight leaves the entry alone. -/
theorem DmaCtl.FirstTags.call_eq {tag : Nat} {fn : FwCmdCallback} (hd : s.dma.FirstTags)
    (hfn : (s.dma.fwCmd tag).fn = some fn) (ctx : Nat) (h : Hdc) : fn.call ctx h = h := by
  cases fn with
  | hostCmdRwdmaCompletion => rfl
  | setftLbartRdmaCompletion => rfl
  | getftLbartWdmaCompletion => exact absurd hfn (hd.noResult tag)

theorem chunkError_staSc {h : Hdc} (hstatus : status ≠ 0) :
    ((h.chunkError e status).entry e).staSc = nvmeScInternal := by
  rw [Hdc.chunkError,if_pos hstatus,Hdc.setEntry_self]

theorem settled_completed {cpl : PhifCmdCpl} (h : status ≠ 0 → cpl.sc = nvmeScInternal) :
    Settled ([.req e,.rsp e status] ++ [.cpl e cpl]) := by
  refine Or.inr ⟨rfl,cpl,rfl,?_⟩
  intro herr
  obtain ⟨st,hst,hne⟩ := herr
  rw [List.mem_singleton.mp hst] at hne
  exact h hne

/-- The response to the command, or one to another. -/
theorem DmaCtl.Waiting.answer (hd : s.dma.Waiting base e c) (hc : c ≠ 0)
    (hi : s.dma.inFlight[i]? = some r)
    (h : AnswerEffect env s r i status (s.dma.fwCmd r.itnlTag).hostTag s') : s'.dma.Stage base e c := by
  have hmem : r ∈ s.dma.inFlight := List.mem_of_getElem? hi
  cases hr : isRdma r with
  | false =>
    obtain ⟨-,hroute⟩ := hd.others r hmem hr
    have hanswered : (s.dma.answered r i status (s.dma.fwCmd r.itnlTag).hostTag).Waiting base e c :=
      hd.answered_other hi hr hroute
    cases h with
    | silent => exact Or.inl hanswered
    | completes _ fn _ => exact Or.inl (hanswered.produce hroute _)
  | true =>
    have hroute : (s.dma.fwCmd r.itnlTag).hostTag = e := by
      rw [hd.first.first r hmem,of_decide_eq_true hr]
      exact hd.route
    rw [hroute] at h
    have hquiet : (s.dma.answered r i status e).Quiet base e [.req e,.rsp e status] :=
      hd.answered_mine hi hr
    cases h with
    | silent hckc =>
      rw [hd.count,BitVec.add_sub_cancel] at hckc
      exact absurd hckc hc
    | completes _ fn hfn =>
      refine Or.inr ⟨_,⟨hquiet.first.produce _ _,hquiet.others,hquiet.traced.snoc_self rfl rfl⟩,?_⟩
      apply settled_completed
      intro hstatus
      apply setupPhifCmdCpl_sc
      rw [hd.first.call_eq hfn]
      exact chunkError_staSc hstatus

end Answer

/-- Messages while command `e` is handled: new commands are on other tags, and one that needs a read
request comes when none is in flight. -/
def oneRdma (e : Nat) (s : Firmware) : FwLabel → Prop
  | .nvmeCmd cmd _ => cmd.tag ≠ e ∧ (cmd.WaitsForDma → ∀ r ∈ s.dma.inFlight, isRdma r = false)
  | .cmdRsp _ _ _ => True
  | .dmaRsp _ _ => True

namespace Firmware

variable {env : FwEnv} {s s' s₁ s₂ : Firmware} {l : FwLabel} {cmd : HdcNvmeCmd} {dptr : NvmeDataPtr}
  {base : List DmaEvent} {e : Nat} {c : BitVec 8}

theorem cmdRsp_dma {tag sct sc : Nat} (h : s.step env (.cmdRsp tag sct sc) = some s') : s'.dma = s.dma := by
  obtain ⟨hdc,-,rfl⟩ := Option.map_eq_some_iff.mp h
  rfl

theorem firstTags_step (hs : s.dma.FirstTags) (h : s.step env l = some s') : s'.dma.FirstTags := by
  cases l with
  | nvmeCmd cmd dptr => exact (hdcHostCmdTask_dma h).firstTags hs
  | cmdRsp tag sct sc =>
    rw [cmdRsp_dma h]
    exact hs
  | dmaRsp i status =>
    obtain ⟨r,-,heffect⟩ := answer_effect h
    cases heffect with
    | silent => exact hs.answered i status _
    | completes _ fn _ => exact (hs.answered i status _).produce _ _

theorem firstTags_of_reaches (h : Reaches (step env) always (init env) s) : s.dma.FirstTags :=
  h.invariant (fun t => t.dma.FirstTags) DmaCtl.firstTags_init fun _ _ _ ht _ hstep => firstTags_step ht hstep

theorem stage_step (hs : s.dma.Stage base e c) (hc : c ≠ 0) (hl : oneRdma e s l)
    (h : s.step env l = some s') : s'.dma.Stage base e c := by
  cases l with
  | nvmeCmd cmd dptr =>
    obtain ⟨hne,hrdma⟩ := hl
    rcases hs with hwaiting | ⟨evs,hquiet,hsettled⟩
    · apply Or.inl
      apply hwaiting.task (hdcHostCmdTask_dma h) hne
      intro hwait
      obtain ⟨r,hr,-⟩ := hwaiting.mine
      have hmem : r ∈ s.dma.inFlight.filter isRdma := by
        rw [hr]
        exact List.mem_singleton_self r
      have hfalse := hrdma hwait r (List.mem_of_mem_filter hmem)
      rw [(List.mem_filter.mp hmem).2] at hfalse
      cases hfalse
    · exact Or.inr ⟨evs,hquiet.task (hdcHostCmdTask_dma h) hne,hsettled⟩
  | cmdRsp tag sct sc =>
    rw [cmdRsp_dma h]
    exact hs
  | dmaRsp i status =>
    obtain ⟨r,hr,heffect⟩ := answer_effect h
    rcases hs with hwaiting | ⟨evs,hquiet,hsettled⟩
    · exact hwaiting.answer hc hr heffect
    · exact Or.inr ⟨evs,hquiet.answer hr heffect,hsettled⟩

/-- The command issues its request: it is in flight, or the port was busy and no response will come. -/
theorem stage_start (hs : s.dma.FirstTags) (hidle : s.dma.inFlight = []) (hwait : cmd.WaitsForDma)
    (h : s.step env (.nvmeCmd cmd dptr) = some s₁) :
    s₁.dma.Stage s.dma.trace cmd.tag (s.dma.ckc cmd.tag) := by
  have htask := hdcHostCmdTask_dma h
  have hfirst := htask.firstTags hs
  generalize s₁.dma = d at htask hfirst ⊢
  cases htask with
  | flow hsqid => exact absurd hwait.1 hsqid
  | done _ _ hnot _ => exact absurd hwait hnot
  | waits _ _ length hsend =>
    rw [DmaCtl.fwSendReq_eq_some hs hsend] at hfirst ⊢
    have htraced : s.dma.Traced s.dma.trace cmd.tag [] := ⟨[],(List.append_nil _).symm,rfl⟩
    let r : DmaReq := ⟨.rdma,FwReqType.rdma.first,cmd.tag,dptr.prp1,⟨.currentLbaRange,0⟩,length⟩
    have hreq (busy : Bool) : (s.dma.post busy r .setftLbartRdmaCompletion cmd.tag).Traced s.dma.trace
        cmd.tag [.req cmd.tag] := htraced.snoc_self rfl rfl
    cases hport : env.dmaPortIsAvailable s.dma.sends with
    | false =>
      rw [hport] at hfirst
      refine Or.inr ⟨_,⟨hfirst,?_,hreq _⟩,Or.inl ⟨Nat.zero_lt_one,rfl⟩⟩
      intro r hr
      change r ∈ s.dma.inFlight at hr
      rw [hidle] at hr
      cases hr
    | true =>
      rw [hport] at hfirst
      have hflight : (s.dma.post (!true) r .setftLbartRdmaCompletion cmd.tag).inFlight = [r] := by
        change s.dma.inFlight ++ [r] = [r]
        rw [hidle]
        rfl
      refine Or.inl ⟨hfirst,⟨r,by rw [hflight]; rfl,rfl⟩,?_,?_,?_,hreq _⟩
      · change (Function.update s.dma.fwCmd _ _ FwReqType.rdma.first).hostTag = cmd.tag
        rw [Function.update_self]
      · intro r hr hnot
        rw [hflight] at hr
        rw [List.mem_singleton.mp hr] at hnot
        cases hnot
      · exact Function.update_self ..

/-- From any history: a command that waits for its response, and whose counter was left at a value
other than 0, is completed once, when the response has come. No other request is in flight when it
arrives, and no other read request is issued until the response has come. -/
theorem dma_command_completes_once (hreach : Reaches (step env) always (init env) s)
    (hwait : cmd.WaitsForDma) (hidle : s.dma.inFlight = []) (hckc : s.dma.ckc cmd.tag ≠ 0)
    (hcmd : s.step env (.nvmeCmd cmd dptr) = some s₁) (hrun : Reaches (step env) (oneRdma cmd.tag) s₁ s₂) :
    ∃ new, s₂.dma.trace = s.dma.trace ++ new ∧ Settled (eventsOf cmd.tag new) := by
  have hstart := stage_start (firstTags_of_reaches hreach) hidle hwait hcmd
  have hstage := hrun.invariant (fun t => t.dma.Stage s.dma.trace cmd.tag (s.dma.ckc cmd.tag)) hstart
    fun _ _ _ ht hl hstep => stage_step ht hckc hl hstep
  rcases hstage with hwaiting | ⟨evs,hquiet,hsettled⟩
  · obtain ⟨new,htrace,hevs⟩ := hwaiting.traced
    refine ⟨new,htrace,?_⟩
    rw [hevs]
    exact Or.inl ⟨Nat.zero_lt_one,rfl⟩
  · obtain ⟨new,htrace,hevs⟩ := hquiet.traced
    refine ⟨new,htrace,?_⟩
    rw [hevs]
    exact hsettled

def stepOr (env : FwEnv) (s : Firmware) (l : FwLabel) : Firmware := (s.step env l).getD s

theorem step_stepOr (h : (s.step env l).isSome = true) : s.step env l = some (s.stepOr env l) := by
  unfold stepOr
  cases hs : s.step env l with
  | none =>
    rw [hs] at h
    cases h
  | some t => rfl

/-- The port for requests is busy at the first attempt only. -/
def busyOnce : FwEnv where
  maxLba := 1000
  nn := 15
  getIdentifyNs := fun _ => ⟨0,0,fun _ => ⟨16,12,0⟩⟩
  portIsAvailable := fun _ => true
  dmaPortIsAvailable := fun n => n != 0
  maxNvmeQueueId := 8
  maxQueueId := 8
  maxNvmeQueueSize := 64

/-- Admin command with the dwords 10 and 11. -/
def adminCommand (tag opcode slba : Nat) : HdcNvmeCmd := ⟨tag,0,0,0,0,⟨opcode,0,1,slba,0,0,0⟩⟩

/-- Get features, LBA range type. -/
def getLbaRange (tag : Nat) : HdcNvmeCmd := adminCommand tag nvmeAdminGetFeatures nvmeFeatLbaRange

/-- Identify, controller data. -/
def identifyCtrl (tag : Nat) : HdcNvmeCmd := adminCommand tag nvmeAdminIdentify nvmeIdCnsCtrl

/-- The request of an identify command on tag 5 found the port busy and left the counter at 1. The next
command on the tag is completed when its response comes, with the error of the response. -/
theorem dma_command_completes_once_reused : ∃ (env : FwEnv) (s s₁ s₂ : Firmware),
    Reaches (step env) always (init env) s ∧ s.dma.inFlight = [] ∧ s.dma.ckc 5 ≠ 0 ∧
      s.step env (.nvmeCmd (getLbaRange 5) ⟨0,0⟩) = some s₁ ∧ Reaches (step env) (oneRdma 5) s₁ s₂ ∧
      ∃ new, s₂.dma.trace = s.dma.trace ++ new ∧ Settled (eventsOf 5 new) ∧
        (chunkCpls (eventsOf 5 new)).map PhifCmdCpl.sc = [nvmeScInternal] := by
  let s := stepOr busyOnce (init busyOnce) (.nvmeCmd (identifyCtrl 5) ⟨0,0⟩)
  let s₁ := stepOr busyOnce s (.nvmeCmd (getLbaRange 5) ⟨0,0⟩)
  let s₂ := stepOr busyOnce s₁ (.dmaRsp 0 1)
  have hs : (init busyOnce).step busyOnce (.nvmeCmd (identifyCtrl 5) ⟨0,0⟩) = some s :=
    step_stepOr (by decide +kernel)
  have hs₁ : s.step busyOnce (.nvmeCmd (getLbaRange 5) ⟨0,0⟩) = some s₁ := step_stepOr (by decide +kernel)
  have hs₂ : s₁.step busyOnce (.dmaRsp 0 1) = some s₂ := step_stepOr (by decide +kernel)
  have hreach : Reaches (step busyOnce) always (init busyOnce) s := Reaches.single trivial hs
  have hrun : Reaches (step busyOnce) (oneRdma 5) s₁ s₂ := Reaches.single (l := .dmaRsp 0 1) trivial hs₂
  have hidle : s.dma.inFlight = [] := by decide +kernel
  have hckc : s.dma.ckc 5 ≠ 0 := by decide +kernel
  obtain ⟨new,htrace,hsettled⟩ := dma_command_completes_once hreach (by decide) hidle hckc hs₁ hrun
  refine ⟨busyOnce,s,s₁,s₂,hreach,hidle,hckc,hs₁,hrun,new,htrace,hsettled,?_⟩
  have hdrop : new = s₂.dma.trace.drop s.dma.trace.length := by rw [htrace,List.drop_left]
  rw [hdrop]
  decide +kernel

/-- A command that issues requests and does not wait has its completion before any response. -/
theorem completes_before_response (hreach : Reaches (step env) always (init env) s)
    (hwait : ¬ cmd.WaitsForDma) (hcmd : s.step env (.nvmeCmd cmd dptr) = some s₁) :
    ∃ new, s₁.dma.trace = s.dma.trace ++ new ∧
      (0 < chunkReqs (eventsOf cmd.tag new) → ¬ Settled (eventsOf cmd.tag new)) := by
  have htask := hdcHostCmdTask_dma hcmd
  have hfirst := firstTags_of_reaches hreach
  generalize s₁.dma = d at htask ⊢
  cases htask with
  | waits _ hw _ _ => exact absurd hw hwait
  | flow => exact ⟨[],(List.append_nil _).symm,fun h => absurd h (Nat.lt_irrefl 0)⟩
  | done d₁ cpl _ hsends =>
    have hstart : s.dma.Traced s.dma.trace cmd.tag (List.replicate 0 (.req cmd.tag)) :=
      ⟨[],(List.append_nil _).symm,rfl⟩
    obtain ⟨-,k,htraced⟩ := hsends.invariant
      (fun d => ∃ k, d.Traced s.dma.trace cmd.tag (List.replicate k (.req cmd.tag)))
      (fun d busy r handler ctx _ hd hr _ _ => by
        obtain ⟨k,hk⟩ := hd
        refine ⟨k+1,?_⟩
        rw [List.replicate_succ']
        have hsnoc : (d.post busy r handler ctx).Traced s.dma.trace cmd.tag
            (List.replicate k (.req cmd.tag) ++ [.req r.hostTag]) := hk.snoc_self rfl hr
        rwa [hr] at hsnoc) hfirst ⟨0,hstart⟩
    obtain ⟨new,htrace,hevs⟩ : (d₁.produce cmd.tag cpl).Traced s.dma.trace cmd.tag
        (List.replicate k (.req cmd.tag) ++ [.cpl cmd.tag cpl]) := htraced.snoc_self rfl rfl
    refine ⟨new,htrace,?_⟩
    rw [hevs]
    intro hreq hsettled
    rcases hsettled with ⟨-,hnone⟩ | ⟨hlen,-⟩
    · simp [chunkCpls] at hnone
    · have hrsps : chunkRsps (List.replicate k (.req cmd.tag) ++ [.cpl cmd.tag cpl]) = [] := by
        simp [chunkRsps]
      rw [hrsps] at hlen
      exact absurd hlen (Nat.ne_of_lt hreq)

/-- Both ports are always free. -/
def neverBusy : FwEnv := { busyOnce with dmaPortIsAvailable := fun _ => true }

/-- First commands after power on. The LBA range command gets its response and no completion. The identify
command with an unaligned buffer has a completion before any response, and a second one after the first
response. -/
theorem dma_command_miscompleted : ∃ (env : FwEnv) (s₁ s₂ t₁ t₂ : Firmware),
    (init env).step env (.nvmeCmd (getLbaRange 5) ⟨0,0⟩) = some s₁ ∧ s₁.step env (.dmaRsp 0 0) = some s₂ ∧
      eventsOf 5 s₂.dma.trace = [.req 5,.rsp 5 0] ∧ ¬ Settled (eventsOf 5 s₂.dma.trace) ∧
      (init env).step env (.nvmeCmd (identifyCtrl 5) ⟨8,0⟩) = some t₁ ∧
      chunkRsps (eventsOf 5 t₁.dma.trace) = [] ∧ (chunkCpls (eventsOf 5 t₁.dma.trace)).length = 1 ∧
      t₁.step env (.dmaRsp 0 0) = some t₂ ∧ chunkReqs (eventsOf 5 t₂.dma.trace) = 2 ∧
      chunkRsps (eventsOf 5 t₂.dma.trace) = [0] ∧ (chunkCpls (eventsOf 5 t₂.dma.trace)).length = 2 := by
  let s₁ := stepOr neverBusy (init neverBusy) (.nvmeCmd (getLbaRange 5) ⟨0,0⟩)
  let s₂ := stepOr neverBusy s₁ (.dmaRsp 0 0)
  let t₁ := stepOr neverBusy (init neverBusy) (.nvmeCmd (identifyCtrl 5) ⟨8,0⟩)
  let t₂ := stepOr neverBusy t₁ (.dmaRsp 0 0)
  have hevs : eventsOf 5 s₂.dma.trace = [.req 5,.rsp 5 0] := by decide +kernel
  refine ⟨neverBusy,s₁,s₂,t₁,t₂,step_stepOr (by decide +kernel),step_stepOr (by decide +kernel),hevs,?_,
    step_stepOr (by decide +kernel),by decide +kernel,by decide +kernel,step_stepOr (by decide +kernel),
    by decide +kernel,by decide +kernel,by decide +kernel⟩
  rw [hevs]
  intro h
  rcases h with ⟨hlt,-⟩ | ⟨-,c,hc,-⟩
  · exact absurd hlt (by decide)
  · cases hc

end Firmware

end Sdssd.Fw
