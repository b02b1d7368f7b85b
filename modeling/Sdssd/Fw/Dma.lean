import Sdssd.Fw.Datapath
import Sdssd.Fw.InternalTag

/-!
# Internal DMA requests

`datapath.c`: the firmware moves data between its buffers and host memory by requests to PHIF. Each
request has an internal tag, under which the host command it is for is found again when the response
comes. The entry of the host command counts the requests in `ckc`.
-/

namespace Sdssd.Fw

/-- The routines that are called when the data of a request has been moved. -/
inductive FwCmdCallback
  | hostCmdRwdmaCompletion
  | setftLbartRdmaCompletion
  | getftLbartWdmaCompletion
  deriving DecidableEq, Repr

/-- `fw_internal_cmd_entry`; `fn` is `NULL` until the tag is used. -/
structure FwInternalCmdEntry where
  hostTag : Nat
  fn : Option FwCmdCallback
  ctx : Nat
  deriving DecidableEq, Repr

/-- The objects that requests read or write. -/
inductive Cbuff
  | identifyNs (nsid : Nat)
  | identifyCtrl
  | currentLbaRange
  | defaultLbaRange
  deriving DecidableEq, Repr

/-- An address in an object. -/
structure CbuffAddr where
  object : Cbuff
  offset : Nat
  deriving DecidableEq, Repr

/-- What `phif_wdma_req` and `phif_rdma_req` say, with the command they are for. -/
structure DmaReq where
  ty : FwReqType
  itnlTag : Nat
  hostTag : Nat
  hostAddr : Nat
  cbuffAddr : CbuffAddr
  length : Nat
  deriving DecidableEq, Repr

/-- Requests, responses and completions of a host command, where the task of new commands and the
handler of responses produce them. -/
inductive DmaEvent
  | req (e : Nat)
  | rsp (e status : Nat)
  | cpl (e : Nat) (cpl : PhifCmdCpl)
  deriving DecidableEq, Repr

/-- The command that an event is about. -/
def DmaEvent.about : DmaEvent → Nat
  | .req e => e
  | .rsp e _ => e
  | .cpl e _ => e

/-- `gat_fw_itnl_cmd_ctl`, the queues of requests that found the port busy, and the `ckc` of all
host commands; `sends` is the number of attempts to send, `inFlight` the requests that PHIF has not
answered. -/
structure DmaCtl where
  ckc : Nat → BitVec 8
  itnlTag : TagBitmap
  fwCmd : Nat → FwInternalCmdEntry
  pend : FwReqType → List Nat
  sends : Nat
  inFlight : List DmaReq
  trace : List DmaEvent

/-- The port at each attempt to send a request. -/
structure DmaEnv where
  dmaPortIsAvailable : Nat → Bool

namespace DmaCtl

/-- After power on. -/
def init : DmaCtl where
  ckc := fun _ => 0
  itnlTag := 0
  fwCmd := fun _ => ⟨0,none,0⟩
  pend := fun _ => []
  sends := 0
  inFlight := []
  trace := []

/-- The internal command is entered under its tag and counted. A request that finds the port busy is
queued; nothing takes it from the queue. -/
def post (d : DmaCtl) (busy : Bool) (r : DmaReq) (handler : FwCmdCallback) (ctx : Nat) : DmaCtl :=
  { d with
    fwCmd := Function.update d.fwCmd r.itnlTag ⟨r.hostTag,some handler,ctx⟩
    sends := d.sends + 1
    pend := if busy then Function.update d.pend r.ty (d.pend r.ty ++ [r.itnlTag]) else d.pend
    inFlight := if busy then d.inFlight else d.inFlight ++ [r]
    ckc := Function.update d.ckc r.hostTag (d.ckc r.hostTag + 1)
    trace := d.trace ++ [.req r.hostTag] }

/-- What `fw_send_wdma_req` and `fw_send_rdma_req` share. -/
def fwSendReq (env : DmaEnv) (ty : FwReqType) (d : DmaCtl) (hostAddr : Nat) (cbuffAddr : CbuffAddr)
    (length hostTag : Nat) (handler : FwCmdCallback) (ctx : Nat) : Option DmaCtl :=
  (fwAllocItnlTag d.itnlTag ty).map fun itnlTag =>
    d.post (!env.dmaPortIsAvailable d.sends) ⟨ty,itnlTag,hostTag,hostAddr,cbuffAddr,length⟩ handler ctx

/-- The source calls `fw_alloc_itnl_tag` without its argument; it can only mean the type of request. -/
def fwSendRdmaReq (env : DmaEnv) := fwSendReq env .rdma

def fwSendWdmaReq (env : DmaEnv) := fwSendReq env .wdma

/-- A completion is set up for command `e`. -/
def produce (d : DmaCtl) (e : Nat) (c : PhifCmdCpl) : DmaCtl := { d with trace := d.trace ++ [.cpl e c] }

def sz4K : Nat := 4096

/-- `wdma_cbuff_to_host_dptr`: one request when `prp1` is aligned, two when it is not. -/
def wdmaCbuffToHostDptr (env : DmaEnv) (d : DmaCtl) (prp1 prp2 : Nat) (cbuff : CbuffAddr)
    (length hostTag : Nat) (handler : FwCmdCallback) (ctx : Nat) : Option DmaCtl :=
  let prp1Offset := prp1 % sz4K
  if prp1Offset = 0 then d.fwSendWdmaReq env prp1 cbuff sz4K hostTag handler ctx
  else do
    let d ← d.fwSendWdmaReq env prp1 cbuff length hostTag handler ctx
    d.fwSendWdmaReq env prp2 ⟨cbuff.object,cbuff.offset + length⟩ prp1Offset hostTag handler ctx

end DmaCtl

def nvmeScInternal : Nat := 0x6

def nvmeLbartMaxEntrys : Nat := 64

/-- What the firmware runs against: besides the two ports the limits of queue ids and sizes, which the
queue handlers compare with. -/
structure FwEnv extends HdcEnv, DmaEnv where
  maxNvmeQueueId : Nat
  maxQueueId : Nat
  maxNvmeQueueSize : Nat

/-- Host commands, internal commands, the namespace data that `get_identify_ns` finds, and the two
registers with the numbers of queues. -/
structure Firmware where
  hdc : Hdc
  dma : DmaCtl
  ns : Nat → NvmeIdNs
  ncqr : Nat
  nsqr : Nat

namespace Firmware

/-- The namespace data is the current one. -/
def hdcEnv (env : FwEnv) (s : Firmware) : HdcEnv := { env.toHdcEnv with getIdentifyNs := s.ns }

/-- A completion is set up and sent, or queued. -/
def complete (env : FwEnv) (s : Firmware) (e : Nat) : Firmware :=
  { s with
    hdc := completeDirectly (s.hdcEnv env) s.hdc e
    dma := s.dma.produce e (setupPhifCmdCpl (s.hdc.entry e)) }

end Firmware

/-- Two of the routines do nothing; `getft_lbart_wdma_completion` stores a result in its context. -/
def FwCmdCallback.call (ctx : Nat) (h : Hdc) : FwCmdCallback → Hdc
  | .hostCmdRwdmaCompletion => h
  | .setftLbartRdmaCompletion => h
  | .getftLbartWdmaCompletion => h.setEntry ctx { h.entry ctx with result := nvmeLbartMaxEntrys }

/-- Only the status code is stored, not the status code type. -/
def Hdc.chunkError (h : Hdc) (e status : Nat) : Hdc :=
  if status ≠ 0 then h.setEntry e { h.entry e with staSc := nvmeScInternal } else h

namespace Firmware

/-- `phif_rwdma_response_to_hdc`, for the tag and the status of the response. The counter is tested the
other way round: the command is completed while requests are left. -/
def phifRwdmaResponseToHdc (env : FwEnv) (s : Firmware) (itnlTag status : Nat) : Option Firmware := do
  let cmd := s.dma.fwCmd itnlTag
  let e := cmd.hostTag
  let ckc := s.dma.ckc e - 1
  let s := { s with
    hdc := s.hdc.chunkError e status
    dma := { s.dma with ckc := Function.update s.dma.ckc e ckc } }
  let s ← if ckc ≠ 0 then cmd.fn.map fun fn => complete env { s with hdc := fn.call cmd.ctx s.hdc } e
    else some s
  some { s with dma := { s.dma with itnlTag := fwFreeItnlTag s.dma.itnlTag itnlTag } }

/-- PHIF answers the request at place `i` of those in flight. -/
def answer (env : FwEnv) (s : Firmware) (i status : Nat) : Option Firmware := do
  let r ← s.dma.inFlight[i]?
  let dma := { s.dma with
    inFlight := s.dma.inFlight.eraseIdx i, trace := s.dma.trace ++ [.rsp r.hostTag status] }
  phifRwdmaResponseToHdc env { s with dma := dma } r.itnlTag status

end Firmware

/-- The request is no longer in flight, and command `e` has one less to wait for. -/
def DmaCtl.answered (d : DmaCtl) (r : DmaReq) (i status e : Nat) : DmaCtl :=
  { d with
    ckc := Function.update d.ckc e (d.ckc e - 1)
    itnlTag := fwFreeItnlTag d.itnlTag r.itnlTag
    inFlight := d.inFlight.eraseIdx i
    trace := d.trace ++ [.rsp r.hostTag status] }

/-- What the response to request `r`, which is found to be for command `e`, does: it counts down, and
completes the command unless the counter comes to 0. -/
inductive AnswerEffect (env : FwEnv) (s : Firmware) (r : DmaReq) (i status e : Nat) : Firmware → Prop
  | silent (hckc : s.dma.ckc e - 1 = 0) : AnswerEffect env s r i status e
      { s with hdc := s.hdc.chunkError e status, dma := s.dma.answered r i status e }
  | completes (hckc : s.dma.ckc e - 1 ≠ 0) (fn : FwCmdCallback)
      (hfn : (s.dma.fwCmd r.itnlTag).fn = some fn) : AnswerEffect env s r i status e
      (Firmware.complete env { s with
        hdc := fn.call (s.dma.fwCmd r.itnlTag).ctx (s.hdc.chunkError e status)
        dma := s.dma.answered r i status e } e)

theorem Firmware.answer_effect {env : FwEnv} {s s' : Firmware} {i status : Nat}
    (h : s.answer env i status = some s') : ∃ r, s.dma.inFlight[i]? = some r ∧
      AnswerEffect env s r i status (s.dma.fwCmd r.itnlTag).hostTag s' := by
  unfold answer at h
  cases hr : s.dma.inFlight[i]? with
  | none =>
    rw [hr] at h
    cases h
  | some r =>
    refine ⟨r,rfl,?_⟩
    rw [hr] at h
    simp only [Option.bind_eq_bind,Option.bind_some,phifRwdmaResponseToHdc] at h
    by_cases hckc : s.dma.ckc (s.dma.fwCmd r.itnlTag).hostTag - 1 = 0
    · rw [if_neg (not_not.mpr hckc)] at h
      cases h
      exact .silent hckc
    · rw [if_pos hckc] at h
      cases hfn : (s.dma.fwCmd r.itnlTag).fn with
      | none =>
        rw [hfn] at h
        cases h
      | some fn =>
        rw [hfn] at h
        cases h
        exact .completes hckc fn hfn

namespace DmaCtl

/-- No bit of the bitmap is ever set, so every request has the first tag of its type. The entry of a
request in flight has a routine, which stores no result. -/
structure FirstTags (d : DmaCtl) : Prop where
  clear : d.itnlTag = 0
  first : ∀ r ∈ d.inFlight, r.itnlTag = r.ty.first
  entered : ∀ r ∈ d.inFlight, (d.fwCmd r.itnlTag).fn ≠ none
  noResult : ∀ tag, (d.fwCmd tag).fn ≠ some .getftLbartWdmaCompletion

variable {env : DmaEnv} {d d' : DmaCtl} {ty : FwReqType} {e : Nat}

theorem firstTags_init : init.FirstTags :=
  ⟨rfl,fun _ hr => absurd hr List.not_mem_nil,fun _ hr => absurd hr List.not_mem_nil,fun _ h => by cases h⟩

theorem mem_post {busy : Bool} {r x : DmaReq} {handler : FwCmdCallback} {ctx : Nat}
    (h : x ∈ (d.post busy r handler ctx).inFlight) : x ∈ d.inFlight ∨ x = r := by
  cases busy with
  | true => exact Or.inl h
  | false => exact (List.mem_append.mp h).imp_right List.mem_singleton.mp

theorem FirstTags.post {r : DmaReq} {handler : FwCmdCallback} (h : d.FirstTags)
    (hr : r.itnlTag = r.ty.first) (hhandler : handler ≠ .getftLbartWdmaCompletion) (busy : Bool) (ctx : Nat) :
    (d.post busy r handler ctx).FirstTags := by
  constructor
  case clear => exact h.clear
  case first =>
    intro x hx
    rcases mem_post hx with hx | rfl
    · exact h.first x hx
    · exact hr
  case entered =>
    intro x hx
    change (Function.update d.fwCmd r.itnlTag _ x.itnlTag).fn ≠ none
    by_cases htag : x.itnlTag = r.itnlTag
    · rw [htag,Function.update_self]
      exact Option.some_ne_none _
    · rw [Function.update_of_ne htag]
      rcases mem_post hx with hx | rfl
      · exact h.entered x hx
      · exact absurd rfl htag
  case noResult =>
    intro tag
    change (Function.update d.fwCmd r.itnlTag _ tag).fn ≠ _
    by_cases htag : tag = r.itnlTag
    · rw [htag,Function.update_self]
      exact fun hh => hhandler (Option.some.inj hh)
    · rw [Function.update_of_ne htag]
      exact h.noResult tag

theorem FirstTags.answered {r : DmaReq} (h : d.FirstTags) (i status e : Nat) :
    (d.answered r i status e).FirstTags := by
  constructor
  case clear =>
    change bitClear d.itnlTag r.itnlTag = 0
    rw [h.clear,bitClear_zero]
  case first => exact fun x hx => h.first x (List.mem_of_mem_eraseIdx hx)
  case entered => exact fun x hx => h.entered x (List.mem_of_mem_eraseIdx hx)
  case noResult => exact h.noResult

theorem FirstTags.produce (h : d.FirstTags) (e : Nat) (c : PhifCmdCpl) : (d.produce e c).FirstTags :=
  ⟨h.clear,h.first,h.entered,h.noResult⟩

/-- Requests of one type that are issued for command `e`. -/
inductive Sends (env : DmaEnv) (ty : FwReqType) (e : Nat) : DmaCtl → DmaCtl → Prop
  | refl (d : DmaCtl) : Sends env ty e d d
  | tail {d d' d'' : DmaCtl} {hostAddr length ctx : Nat} {cbuffAddr : CbuffAddr} {handler : FwCmdCallback}
      (h : Sends env ty e d d')
      (hsend : d'.fwSendReq env ty hostAddr cbuffAddr length e handler ctx = some d'')
      (hhandler : handler ≠ .getftLbartWdmaCompletion) : Sends env ty e d d''

/-- While no tag bit is set, requests are posted under the first tag. -/
theorem fwSendReq_eq_some {hostAddr length ctx : Nat} {cbuffAddr : CbuffAddr} {handler : FwCmdCallback}
    (hd : d.FirstTags) (h : d.fwSendReq env ty hostAddr cbuffAddr length e handler ctx = some d') :
    d' = d.post (!env.dmaPortIsAvailable d.sends) ⟨ty,ty.first,e,hostAddr,cbuffAddr,length⟩ handler ctx := by
  rw [fwSendReq,hd.clear] at h
  cases ty with
  | other => cases h
  | wdma =>
    rw [fwAllocItnlTag_zero (by decide)] at h
    exact (Option.some.inj h).symm
  | rdma =>
    rw [fwAllocItnlTag_zero (by decide)] at h
    exact (Option.some.inj h).symm

/-- What each posted request keeps, all the requests of a command keep. -/
theorem Sends.invariant (P : DmaCtl → Prop)
    (hpost : ∀ d busy r handler ctx, (d.post busy r handler ctx).FirstTags → P d → r.hostTag = e →
      r.ty = ty → r.itnlTag = ty.first → P (d.post busy r handler ctx))
    (h : Sends env ty e d d') (hd : d.FirstTags) (hP : P d) : d'.FirstTags ∧ P d' := by
  induction h with
  | refl => exact ⟨hd,hP⟩
  | @tail d₁ d₂ hostAddr length ctx cbuffAddr handler _ hsend hhandler ih =>
    obtain ⟨hfirst,hp⟩ := ih
    have hposted : (d₁.post (!env.dmaPortIsAvailable d₁.sends)
        ⟨ty,ty.first,e,hostAddr,cbuffAddr,length⟩ handler ctx).FirstTags := hfirst.post rfl hhandler _ _
    rw [fwSendReq_eq_some hfirst hsend]
    exact ⟨hposted,hpost _ _ _ _ _ hposted hp rfl rfl rfl⟩

end DmaCtl

end Sdssd.Fw
