import Sdssd.Fw.Deferred
import Sdssd.Fw.Dma

/-!
# Admin commands

`admin.c` and the handlers it calls. A handler reads the command in the entry, may store a status, issue
DMA requests and write the namespace data or a register, and returns whether the command is finished.
Entries of the feature tables that are only placeholders in the source have no code to run.
-/

namespace Sdssd.Fw

open Framework

def nvmeAdminDeleteSq : Nat := 0x00
def nvmeAdminCreateSq : Nat := 0x01
def nvmeAdminDeleteCq : Nat := 0x04
def nvmeAdminCreateCq : Nat := 0x05
def nvmeAdminIdentify : Nat := 0x06
def nvmeAdminSetFeatures : Nat := 0x09
def nvmeAdminGetFeatures : Nat := 0x0a
def nvmeAdminFormatNvm : Nat := 0x80

def nvmeSctCmdSpecific : Nat := 0x1
def nvmeScSuccess : Nat := 0x0
def nvmeScCqInvalid : Nat := 0x100
def nvmeScQidInvalid : Nat := 0x101
def nvmeScQueueSize : Nat := 0x102
def nvmeScNsIdUnavailable : Nat := 0x116

def nvmeIdCnsNs : Nat := 0x00
def nvmeIdCnsCtrl : Nat := 0x01
def nvmeIdCnsNsActiveList : Nat := 0x02
def nvmeIdentifyDataSize : Nat := 4096

def nvmeFeatArbitration : Nat := 0x01
def nvmeFeatLbaRange : Nat := 0x03
def nvmeFeatNumQueues : Nat := 0x07
def nvmeFeatKato : Nat := 0x0f

def nvmeLbartEntrySize : Nat := 64

/-- `prp1` and `prp2` of a command. -/
structure NvmeDataPtr where
  prp1 : Nat
  prp2 : Nat
  deriving DecidableEq, Repr

namespace NvmeCommand

variable (c : NvmeCommand)

/-- The layouts of `struct nvme_command` overlap: `slba` is made of the dwords 10 and 11. -/
def cdw10 : Nat := c.slba % 2^32
def cdw11 : Nat := c.slba / 2^32 % 2^32

/-- `cqid` of `create_cq`, `sqid` of `create_sq` and `qid` of `delete_queue`. -/
def qid : Nat := c.cdw10 % 2^16
def qsize : Nat := c.cdw10 / 2^16
/-- `cq_flags` of `create_cq` and `sq_flags` of `create_sq`. -/
def queueFlags : Nat := c.cdw11 % 2^16
/-- `cqid` of `create_sq`. -/
def sqCqid : Nat := c.cdw11 / 2^16

def cns : Nat := c.cdw10 % 2^8
def fid : Nat := c.cdw10 % 2^8
def nsqr : Nat := c.cdw11 % 2^16
def ncqr : Nat := c.cdw11 / 2^16

/-- `flags & NVME_CMD_SGL_ALL`. -/
def usesSgl : Bool := c.flags &&& (1 <<< 6 ||| 1 <<< 7) ≠ 0

/-- The test of queue ids that the four queue handlers share. -/
def qidInvalid (maxId : Nat) : Bool := c.qid == 0 || decide (maxId < c.qid)

def physContig : Bool := c.queueFlags &&& 1 ≠ 0

def fidKnown : Bool := decide (nvmeFeatArbitration ≤ c.fid) && decide (c.fid ≤ nvmeFeatKato)

/-- `ncqr > 0xfffe || nsqr > 0xfffe`. -/
def queueNumberInvalid : Bool := decide (0xfffe < c.ncqr) || decide (0xfffe < c.nsqr)

end NvmeCommand

namespace Firmware

/-- `set_host_cmd_staus`, whose parameters are bytes; the type has four bits in the entry. -/
def setHostCmdStaus (s : Firmware) (e sct sc : Nat) : Firmware :=
  { s with hdc := s.hdc.setStatus e (sct % 2^4) (sc % 2^8) }

def sqe (s : Firmware) (e : Nat) : NvmeCommand := (s.hdc.entry e).sqe

/-- A check that fails stores its status and ends the command. -/
def refuse (s : Firmware) (e sct sc : Nat) : NvmeRequest × Firmware :=
  (.invalid,s.setHostCmdStaus e sct sc)

def handleAdminCreateCq (env : FwEnv) (s : Firmware) (e : Nat) : NvmeRequest × Firmware :=
  let c := s.sqe e
  if c.qidInvalid env.maxNvmeQueueId then s.refuse e nvmeSctCmdSpecific nvmeScQidInvalid
  else if c.qsize = 0 ∨ env.maxNvmeQueueSize < c.qsize then
    s.refuse e nvmeSctCmdSpecific nvmeScQueueSize
  else if !c.physContig then s.refuse e nvmeSctCmdSpecific nvmeScCqInvalid
  else (.complete,s)

/-- The completion queue must be 0 to pass. -/
def handleAdminCreateSq (env : FwEnv) (s : Firmware) (e : Nat) : NvmeRequest × Firmware :=
  let c := s.sqe e
  if c.qidInvalid env.maxQueueId then s.refuse e nvmeSctCmdSpecific nvmeScQidInvalid
  else if c.sqCqid ≠ 0 then s.refuse e nvmeSctCmdSpecific nvmeScQidInvalid
  else if !c.physContig then s.refuse e nvmeSctCmdSpecific nvmeScCqInvalid
  else (.complete,s.setHostCmdStaus e nvmeSctGeneric nvmeScSuccess)

def handleAdminDeleteSq (env : FwEnv) (s : Firmware) (e : Nat) : NvmeRequest × Firmware :=
  if (s.sqe e).qidInvalid env.maxNvmeQueueId then s.refuse e nvmeSctCmdSpecific nvmeScQidInvalid
  else (.complete,s)

def handleAdminDeleteCq (env : FwEnv) (s : Firmware) (e : Nat) : NvmeRequest × Firmware :=
  if (s.sqe e).qidInvalid env.maxNvmeQueueId then s.refuse e nvmeSctCmdSpecific nvmeScQidInvalid
  else (.complete,s.setHostCmdStaus e nvmeSctGeneric nvmeScSuccess)

/-- The identify data goes to the host; the command counts as finished at once. `get_identify_ns`
asserts that there is a namespace id. -/
def handleAdminIdentify (env : FwEnv) (s : Firmware) (e : Nat) (dptr : NvmeDataPtr) :
    Option (NvmeRequest × Firmware) :=
  let tag := (s.hdc.entry e).cmdTag
  let send (cbuff : Cbuff) : Option (NvmeRequest × Firmware) :=
    (s.dma.wdmaCbuffToHostDptr env.toDmaEnv dptr.prp1 dptr.prp2 ⟨cbuff,0⟩ nvmeIdentifyDataSize tag
      .hostCmdRwdmaCompletion e).map fun dma => (.complete,{ s with dma := dma })
  if (s.sqe e).cns = nvmeIdCnsNs then
    if (s.sqe e).nsid = 0 then none else send (.identifyNs (s.sqe e).nsid)
  else if (s.sqe e).cns = nvmeIdCnsCtrl then send .identifyCtrl
  else if (s.sqe e).cns = nvmeIdCnsNsActiveList then none
  else some (.complete,s)

def setftLbaRangeType (env : FwEnv) (s : Firmware) (e : Nat) (dptr : NvmeDataPtr) :
    Option (NvmeRequest × Firmware) :=
  let nlr := (s.sqe e).cdw11 &&& 0x3f
  (s.dma.fwSendRdmaReq env.toDmaEnv dptr.prp1 ⟨.currentLbaRange,0⟩ ((1 + nlr) * nvmeLbartEntrySize)
    (s.hdc.entry e).cmdTag .setftLbartRdmaCompletion e).map fun dma => (.processing,{ s with dma := dma })

def setftQueueNumber (s : Firmware) (e : Nat) : NvmeRequest × Firmware :=
  let c := s.sqe e
  if c.queueNumberInvalid then s.refuse e nvmeSctGeneric nvmeScInvalidField
  else (.complete,{ s with ncqr := c.ncqr, nsqr := c.nsqr })

/-- In no table. -/
def getftLbaRangeType (env : FwEnv) (s : Firmware) (e : Nat) (dptr : NvmeDataPtr) :
    Option (NvmeRequest × Firmware) :=
  let sel := (s.sqe e).cdw10 / 2^8 % 2^3
  let cbuff : Cbuff := if sel = 0 then .currentLbaRange else .defaultLbaRange
  (s.dma.fwSendWdmaReq env.toDmaEnv dptr.prp1 ⟨cbuff,0⟩ (nvmeLbartEntrySize * nvmeLbartMaxEntrys)
    (s.hdc.entry e).cmdTag .getftLbartWdmaCompletion e).map fun dma => (.processing,{ s with dma := dma })

/-- `gat_set_feature_func`, where it has a function. -/
def gatSetFeatureFunc (s : Firmware) (e fid : Nat) : Option (NvmeRequest × Firmware) :=
  if fid = nvmeFeatNumQueues then some (s.setftQueueNumber e) else none

/-- `gat_get_feature_func`, where it has a function. The one for the LBA range is that of the other
table, and the one for the number of queues has no body. -/
def gatGetFeatureFunc (env : FwEnv) (s : Firmware) (e : Nat) (dptr : NvmeDataPtr) (fid : Nat) :
    Option (NvmeRequest × Firmware) :=
  if fid = nvmeFeatLbaRange then s.setftLbaRangeType env e dptr else none

def handleAdminSetFeature (s : Firmware) (e : Nat) : Option (NvmeRequest × Firmware) :=
  if (s.sqe e).fidKnown then s.gatSetFeatureFunc e (s.sqe e).fid
  else some (s.refuse e nvmeSctGeneric nvmeScInvalidField)

def handleAdminGetFeature (env : FwEnv) (s : Firmware) (e : Nat) (dptr : NvmeDataPtr) :
    Option (NvmeRequest × Firmware) :=
  if (s.sqe e).fidKnown then s.gatGetFeatureFunc env e dptr (s.sqe e).fid
  else some (s.refuse e nvmeSctGeneric nvmeScInvalidField)

/-- The test of the namespace id is the one of `handle_nvme_io_command`. -/
def handleAdminFormatNvm (env : FwEnv) (s : Firmware) (e : Nat) : Option (NvmeRequest × Firmware) :=
  let c := s.sqe e
  if c.nsid = 0 then none
  else if nvmeNsidValid env.nn c.nsid then some (s.refuse e nvmeSctGeneric nvmeScNsIdUnavailable)
  else
    let lbaf := c.cdw10 % 2^4
    let mset := c.cdw10 / 2^4 % 2
    let pi := c.cdw10 / 2^5 % 2^3
    let pil := c.cdw10 / 2^8 % 2
    let ns := { s.ns c.nsid with flbas := lbaf ||| mset <<< 4, dps := pi ||| pil <<< 3 }
    some (.complete,{ s with ns := Function.update s.ns c.nsid ns })

/-- Other opcodes count as finished. -/
def handleNvmeAdminCommand (env : FwEnv) (s : Firmware) (e : Nat) (dptr : NvmeDataPtr) :
    Option (NvmeRequest × Firmware) :=
  let opcode := (s.sqe e).opcode
  if (s.sqe e).usesSgl then some (s.refuse e nvmeSctGeneric nvmeScInvalidField)
  else if opcode = nvmeAdminCreateCq then some (s.handleAdminCreateCq env e)
  else if opcode = nvmeAdminCreateSq then some (s.handleAdminCreateSq env e)
  else if opcode = nvmeAdminDeleteCq then some (s.handleAdminDeleteCq env e)
  else if opcode = nvmeAdminDeleteSq then some (s.handleAdminDeleteSq env e)
  else if opcode = nvmeAdminIdentify then s.handleAdminIdentify env e dptr
  else if opcode = nvmeAdminSetFeatures then s.handleAdminSetFeature e
  else if opcode = nvmeAdminGetFeatures then s.handleAdminGetFeature env e dptr
  else if opcode = nvmeAdminFormatNvm then s.handleAdminFormatNvm env e
  else some (.complete,s)

/-- `hdc_host_cmd_task` up to the result of the handler. -/
def dispatch (env : FwEnv) (s : Firmware) (cmd : HdcNvmeCmd) (dptr : NvmeDataPtr) :
    Option (NvmeRequest × Firmware) :=
  let s := { s with hdc := saveInHostCmdEntry (s.hdc.record (.nvmeCmd cmd.tag)) cmd.tag cmd }
  if cmd.sqid = 0 then s.handleNvmeAdminCommand env cmd.tag dptr
  else (handleNvmeIoCommand (s.hdcEnv env) s.hdc cmd.tag).map fun r => (r.1,{ s with hdc := r.2 })

def hdcHostCmdTask (env : FwEnv) (s : Firmware) (cmd : HdcNvmeCmd) (dptr : NvmeDataPtr) :
    Option Firmware :=
  (s.dispatch env cmd dptr).map fun r => if r.1 = .processing then r.2 else r.2.complete env cmd.tag

end Firmware

/-- The messages that reach the firmware; PHIF answers a request in flight by its place. -/
inductive FwLabel
  | nvmeCmd (cmd : HdcNvmeCmd) (dptr : NvmeDataPtr)
  | cmdRsp (tag sct sc : Nat)
  | dmaRsp (i status : Nat)

namespace Firmware

def step (env : FwEnv) (s : Firmware) : FwLabel → Option Firmware
  | .nvmeCmd cmd dptr => s.hdcHostCmdTask env cmd dptr
  | .cmdRsp tag sct sc =>
      (s.hdc.step (s.hdcEnv env) (.cmdRsp tag sct sc)).map fun hdc => { s with hdc := hdc }
  | .dmaRsp i status => s.answer env i status

/-- After power on, with the namespace data that the environment starts from. -/
def init (env : FwEnv) : Firmware := ⟨Hdc.init,DmaCtl.init,env.getIdentifyNs,0,0⟩

end Firmware

/-- The command leaves its completion to the response of a DMA request. -/
def NvmeCommand.WaitsForDma (c : NvmeCommand) : Prop :=
  c.usesSgl = false ∧ c.opcode = nvmeAdminGetFeatures ∧ c.fid = nvmeFeatLbaRange

instance (c : NvmeCommand) : Decidable c.WaitsForDma := by
  unfold NvmeCommand.WaitsForDma
  infer_instance

/-- The status type and code as the entry holds them. -/
def asStored (sct sc : Nat) : Option (Nat × Nat) := some (sct % 2^4,sc % 2^8)

/-- The status that the handler of `create_cq` stores, if it stores one; and so on for the others. -/
def createCqStatus (env : FwEnv) (c : NvmeCommand) : Option (Nat × Nat) :=
  if c.qidInvalid env.maxNvmeQueueId then asStored nvmeSctCmdSpecific nvmeScQidInvalid
  else if c.qsize = 0 ∨ env.maxNvmeQueueSize < c.qsize then asStored nvmeSctCmdSpecific nvmeScQueueSize
  else if !c.physContig then asStored nvmeSctCmdSpecific nvmeScCqInvalid else none

def createSqStatus (env : FwEnv) (c : NvmeCommand) : Option (Nat × Nat) :=
  if c.qidInvalid env.maxQueueId then asStored nvmeSctCmdSpecific nvmeScQidInvalid
  else if c.sqCqid ≠ 0 then asStored nvmeSctCmdSpecific nvmeScQidInvalid
  else if !c.physContig then asStored nvmeSctCmdSpecific nvmeScCqInvalid
  else asStored nvmeSctGeneric nvmeScSuccess

def deleteCqStatus (env : FwEnv) (c : NvmeCommand) : Option (Nat × Nat) :=
  if c.qidInvalid env.maxNvmeQueueId then asStored nvmeSctCmdSpecific nvmeScQidInvalid
  else asStored nvmeSctGeneric nvmeScSuccess

def deleteSqStatus (env : FwEnv) (c : NvmeCommand) : Option (Nat × Nat) :=
  if c.qidInvalid env.maxNvmeQueueId then asStored nvmeSctCmdSpecific nvmeScQidInvalid else none

def setFeatureStatus (c : NvmeCommand) : Option (Nat × Nat) :=
  if c.fidKnown then
    if c.queueNumberInvalid then asStored nvmeSctGeneric nvmeScInvalidField else none
  else asStored nvmeSctGeneric nvmeScInvalidField

def getFeatureStatus (c : NvmeCommand) : Option (Nat × Nat) :=
  if c.fidKnown then none else asStored nvmeSctGeneric nvmeScInvalidField

def formatNvmStatus (env : FwEnv) (c : NvmeCommand) : Option (Nat × Nat) :=
  if nvmeNsidValid env.nn c.nsid then asStored nvmeSctGeneric nvmeScNsIdUnavailable else none

/-- The status that the handler of an admin command stores. -/
def adminStatus (env : FwEnv) (c : NvmeCommand) : Option (Nat × Nat) :=
  if c.usesSgl then asStored nvmeSctGeneric nvmeScInvalidField
  else if c.opcode = nvmeAdminCreateCq then createCqStatus env c
  else if c.opcode = nvmeAdminCreateSq then createSqStatus env c
  else if c.opcode = nvmeAdminDeleteCq then deleteCqStatus env c
  else if c.opcode = nvmeAdminDeleteSq then deleteSqStatus env c
  else if c.opcode = nvmeAdminIdentify then none
  else if c.opcode = nvmeAdminSetFeatures then setFeatureStatus c
  else if c.opcode = nvmeAdminGetFeatures then getFeatureStatus c
  else if c.opcode = nvmeAdminFormatNvm then formatNvmStatus env c
  else none

def Hdc.storeStatus (h : Hdc) (e : Nat) : Option (Nat × Nat) → Hdc
  | some (sct,sc) => h.setStatus e sct sc
  | none => h

/-- What the handler of an admin command does: it issues one read request and waits, or it is done, after
it has stored the status of the command, if any, and issued write requests. -/
inductive AdminEffect (env : FwEnv) (s : Firmware) (e : Nat) (dptr : NvmeDataPtr) :
    NvmeRequest → Firmware → Prop
  | waits (dma : DmaCtl) (hwait : (s.sqe e).WaitsForDma) (hstatus : adminStatus env (s.sqe e) = none)
      (length : Nat)
      (hsend : s.dma.fwSendReq env.toDmaEnv .rdma dptr.prp1 ⟨.currentLbaRange,0⟩ length
        (s.hdc.entry e).cmdTag .setftLbartRdmaCompletion e = some dma) :
      AdminEffect env s e dptr .processing { s with dma := dma }
  | done (res : NvmeRequest) (t : Firmware) (hwait : ¬ (s.sqe e).WaitsForDma) (hres : res ≠ .processing)
      (hhdc : t.hdc = s.hdc.storeStatus e (adminStatus env (s.sqe e)))
      (hdma : DmaCtl.Sends env.toDmaEnv .wdma (s.hdc.entry e).cmdTag s.dma t.dma) :
      AdminEffect env s e dptr res t

section Effect

variable {env : FwEnv} {s t : Firmware} {e : Nat} {dptr : NvmeDataPtr} {res : NvmeRequest}

/-- A handler that refuses the command. -/
theorem AdminEffect.refuse {sct sc : Nat} (hwait : ¬ (s.sqe e).WaitsForDma)
    (hstatus : adminStatus env (s.sqe e) = asStored sct sc) :
    AdminEffect env s e dptr .invalid (s.setHostCmdStaus e sct sc) :=
  .done _ _ hwait (by decide) (by rw [hstatus]; rfl) (.refl _)

/-- A handler that stores a status and finishes the command. -/
theorem AdminEffect.succeed {sct sc : Nat} (hwait : ¬ (s.sqe e).WaitsForDma)
    (hstatus : adminStatus env (s.sqe e) = asStored sct sc) :
    AdminEffect env s e dptr .complete (s.setHostCmdStaus e sct sc) :=
  .done _ _ hwait (by decide) (by rw [hstatus]; rfl) (.refl _)

/-- A handler that stores no status. -/
theorem AdminEffect.keep (hwait : ¬ (s.sqe e).WaitsForDma) (hstatus : adminStatus env (s.sqe e) = none)
    (hhdc : t.hdc = s.hdc) (hdma : DmaCtl.Sends env.toDmaEnv .wdma (s.hdc.entry e).cmdTag s.dma t.dma) :
    AdminEffect env s e dptr .complete t :=
  .done _ _ hwait (by decide) (by rw [hstatus,hhdc]; rfl) hdma

theorem not_waitsForDma_of_opcode {c : NvmeCommand} {op : Nat} (hop : c.opcode = op)
    (hne : op ≠ nvmeAdminGetFeatures) : ¬ c.WaitsForDma := fun h => hne (hop.symm.trans h.2.1)

theorem wdmaCbuffToHostDptr_sends {env : DmaEnv} {d d' : DmaCtl} {prp1 prp2 length hostTag ctx : Nat}
    {cbuff : CbuffAddr} (h : d.wdmaCbuffToHostDptr env prp1 prp2 cbuff length hostTag
      .hostCmdRwdmaCompletion ctx = some d') : DmaCtl.Sends env .wdma hostTag d d' := by
  unfold DmaCtl.wdmaCbuffToHostDptr at h
  simp only at h
  split at h
  · exact .tail (.refl _) h (by decide)
  · obtain ⟨d₁,h₁,h₂⟩ := Option.bind_eq_some_iff.mp h
    exact .tail (.tail (.refl _) h₁ (by decide)) h₂ (by decide)

theorem handleAdminCreateCq_effect (hwait : ¬ (s.sqe e).WaitsForDma)
    (hstatus : adminStatus env (s.sqe e) = createCqStatus env (s.sqe e))
    (h : s.handleAdminCreateCq env e = (res,t)) : AdminEffect env s e dptr res t := by
  unfold createCqStatus at hstatus
  unfold Firmware.handleAdminCreateCq at h
  dsimp only at h
  split_ifs at hstatus h
  · cases h
    exact .refuse hwait hstatus
  · cases h
    exact .refuse hwait hstatus
  · cases h
    exact .refuse hwait hstatus
  · cases h
    exact .keep hwait hstatus rfl (.refl _)

theorem handleAdminCreateSq_effect (hwait : ¬ (s.sqe e).WaitsForDma)
    (hstatus : adminStatus env (s.sqe e) = createSqStatus env (s.sqe e))
    (h : s.handleAdminCreateSq env e = (res,t)) : AdminEffect env s e dptr res t := by
  unfold createSqStatus at hstatus
  unfold Firmware.handleAdminCreateSq at h
  dsimp only at h
  split_ifs at hstatus h
  · cases h
    exact .refuse hwait hstatus
  · cases h
    exact .refuse hwait hstatus
  · cases h
    exact .refuse hwait hstatus
  · cases h
    exact .succeed hwait hstatus

theorem handleAdminDeleteCq_effect (hwait : ¬ (s.sqe e).WaitsForDma)
    (hstatus : adminStatus env (s.sqe e) = deleteCqStatus env (s.sqe e))
    (h : s.handleAdminDeleteCq env e = (res,t)) : AdminEffect env s e dptr res t := by
  unfold deleteCqStatus at hstatus
  unfold Firmware.handleAdminDeleteCq at h
  split_ifs at hstatus h
  · cases h
    exact .refuse hwait hstatus
  · cases h
    exact .succeed hwait hstatus

theorem handleAdminDeleteSq_effect (hwait : ¬ (s.sqe e).WaitsForDma)
    (hstatus : adminStatus env (s.sqe e) = deleteSqStatus env (s.sqe e))
    (h : s.handleAdminDeleteSq env e = (res,t)) : AdminEffect env s e dptr res t := by
  unfold deleteSqStatus at hstatus
  unfold Firmware.handleAdminDeleteSq at h
  split_ifs at hstatus h
  · cases h
    exact .refuse hwait hstatus
  · cases h
    exact .keep hwait hstatus rfl (.refl _)

theorem handleAdminIdentify_effect (hwait : ¬ (s.sqe e).WaitsForDma)
    (hstatus : adminStatus env (s.sqe e) = none) (h : s.handleAdminIdentify env e dptr = some (res,t)) :
    AdminEffect env s e dptr res t := by
  have hsend (cbuff : Cbuff) (h : (s.dma.wdmaCbuffToHostDptr env.toDmaEnv dptr.prp1 dptr.prp2 ⟨cbuff,0⟩
      nvmeIdentifyDataSize (s.hdc.entry e).cmdTag .hostCmdRwdmaCompletion e).map
        (fun dma => (.complete,{ s with dma := dma })) = some (res,t)) : AdminEffect env s e dptr res t := by
    obtain ⟨dma,hdma,heq⟩ := Option.map_eq_some_iff.mp h
    cases heq
    exact .keep hwait hstatus rfl (wdmaCbuffToHostDptr_sends hdma)
  unfold Firmware.handleAdminIdentify at h
  dsimp only at h
  split_ifs at h
  · exact hsend _ h
  · exact hsend _ h
  · cases h
    exact .keep hwait hstatus rfl (.refl _)

theorem handleAdminSetFeature_effect (hwait : ¬ (s.sqe e).WaitsForDma)
    (hstatus : adminStatus env (s.sqe e) = setFeatureStatus (s.sqe e))
    (h : s.handleAdminSetFeature e = some (res,t)) : AdminEffect env s e dptr res t := by
  unfold setFeatureStatus at hstatus
  unfold Firmware.handleAdminSetFeature Firmware.gatSetFeatureFunc Firmware.setftQueueNumber at h
  dsimp only at h
  split_ifs at hstatus h
  · cases h
    exact .refuse hwait hstatus
  · cases h
    exact .keep hwait hstatus rfl (.refl _)
  · cases h
    exact .refuse hwait hstatus

theorem handleAdminGetFeature_effect (hsgl : (s.sqe e).usesSgl = false)
    (hop : (s.sqe e).opcode = nvmeAdminGetFeatures)
    (hstatus : adminStatus env (s.sqe e) = getFeatureStatus (s.sqe e))
    (h : s.handleAdminGetFeature env e dptr = some (res,t)) : AdminEffect env s e dptr res t := by
  unfold getFeatureStatus at hstatus
  unfold Firmware.handleAdminGetFeature Firmware.gatGetFeatureFunc at h
  split_ifs at hstatus h with hfid hlba
  · rw [Firmware.setftLbaRangeType] at h
    obtain ⟨dma,hdma,heq⟩ := Option.map_eq_some_iff.mp h
    cases heq
    exact .waits dma ⟨hsgl,hop,hlba⟩ hstatus _ hdma
  · cases h
    apply AdminEffect.refuse _ hstatus
    intro hw
    apply hfid
    rw [NvmeCommand.fidKnown,hw.2.2]
    rfl

theorem handleAdminFormatNvm_effect (hwait : ¬ (s.sqe e).WaitsForDma)
    (hstatus : adminStatus env (s.sqe e) = formatNvmStatus env (s.sqe e))
    (h : s.handleAdminFormatNvm env e = some (res,t)) : AdminEffect env s e dptr res t := by
  unfold formatNvmStatus at hstatus
  unfold Firmware.handleAdminFormatNvm at h
  dsimp only at h
  split_ifs at hstatus h
  · cases h
    exact .refuse hwait hstatus
  · cases h
    exact .keep hwait hstatus rfl (.refl _)

/-- Every admin command that has code. -/
theorem handleNvmeAdminCommand_effect (h : s.handleNvmeAdminCommand env e dptr = some (res,t)) :
    AdminEffect env s e dptr res t := by
  obtain ⟨st,hstatus⟩ : ∃ st, adminStatus env (s.sqe e) = st := ⟨_,rfl⟩
  have hst := hstatus
  rw [adminStatus] at hst
  rw [Firmware.handleNvmeAdminCommand] at h
  by_cases hsgl : (s.sqe e).usesSgl = true
  · rw [if_pos hsgl] at h hst
    subst hst
    cases h
    exact .refuse (fun hw => by rw [hw.1] at hsgl; cases hsgl) hstatus
  rw [if_neg hsgl] at h hst
  -- the switch, opcode by opcode, next to the status of each
  by_cases hop : (s.sqe e).opcode = nvmeAdminCreateCq
  · rw [if_pos hop] at h hst
    subst hst
    exact handleAdminCreateCq_effect (not_waitsForDma_of_opcode hop (by decide)) hstatus (Option.some.inj h)
  rw [if_neg hop] at h hst
  by_cases hop : (s.sqe e).opcode = nvmeAdminCreateSq
  · rw [if_pos hop] at h hst
    subst hst
    exact handleAdminCreateSq_effect (not_waitsForDma_of_opcode hop (by decide)) hstatus (Option.some.inj h)
  rw [if_neg hop] at h hst
  by_cases hop : (s.sqe e).opcode = nvmeAdminDeleteCq
  · rw [if_pos hop] at h hst
    subst hst
    exact handleAdminDeleteCq_effect (not_waitsForDma_of_opcode hop (by decide)) hstatus (Option.some.inj h)
  rw [if_neg hop] at h hst
  by_cases hop : (s.sqe e).opcode = nvmeAdminDeleteSq
  · rw [if_pos hop] at h hst
    subst hst
    exact handleAdminDeleteSq_effect (not_waitsForDma_of_opcode hop (by decide)) hstatus (Option.some.inj h)
  rw [if_neg hop] at h hst
  by_cases hop : (s.sqe e).opcode = nvmeAdminIdentify
  · rw [if_pos hop] at h hst
    subst hst
    exact handleAdminIdentify_effect (not_waitsForDma_of_opcode hop (by decide)) hstatus h
  rw [if_neg hop] at h hst
  by_cases hop : (s.sqe e).opcode = nvmeAdminSetFeatures
  · rw [if_pos hop] at h hst
    subst hst
    exact handleAdminSetFeature_effect (not_waitsForDma_of_opcode hop (by decide)) hstatus h
  rw [if_neg hop] at h hst
  by_cases hget : (s.sqe e).opcode = nvmeAdminGetFeatures
  · rw [if_pos hget] at h hst
    subst hst
    exact handleAdminGetFeature_effect (Bool.not_eq_true _ ▸ hsgl) hget hstatus h
  rw [if_neg hget] at h hst
  by_cases hop : (s.sqe e).opcode = nvmeAdminFormatNvm
  · rw [if_pos hop] at h hst
    subst hst
    exact handleAdminFormatNvm_effect (not_waitsForDma_of_opcode hop (by decide)) hstatus h
  rw [if_neg hop] at h hst
  subst hst
  cases h
  exact .keep (fun hw => hget hw.2.1) hstatus rfl (.refl _)

end Effect

/-- Storing a status, or none, is what a reply of the handler does that keeps the result. -/
theorem Hdc.storeStatus_eq_reply (h : Hdc) (e : Nat) (st : Option (Nat × Nat)) :
    ∃ sct sc, h.storeStatus e st = (h.setStatus e sct sc).setEntry e
      { (h.setStatus e sct sc).entry e with result := (h.entry e).result } := by
  cases st with
  | some st => exact ⟨st.1,st.2,by simp [storeStatus,setStatus]⟩
  | none =>
    refine ⟨(h.entry e).staSct,(h.entry e).staSc,?_⟩
    simp [storeStatus,setStatus,setEntry]

namespace Firmware

variable {env : FwEnv} {s s' t : Firmware} {e : Nat} {cmd : HdcNvmeCmd} {dptr : NvmeDataPtr}
  {res : NvmeRequest}

/-- A handler acts on the entry like some reply, and keeps the result. -/
theorem handleNvmeAdminCommand_refines (h : s.handleNvmeAdminCommand env e dptr = some (res,t)) :
    ∃ reply : AdminReply, reply.result = (s.hdc.entry e).result ∧
      Fw.handleNvmeAdminCommand s.hdc e reply = (res,t.hdc) := by
  by_cases hsgl : (s.sqe e).usesSgl = true
  · rw [handleNvmeAdminCommand,if_pos hsgl] at h
    cases h
    exact ⟨⟨.invalid,0,0,_⟩,rfl,if_pos (of_decide_eq_true hsgl)⟩
  · have hflags : ¬ ((s.hdc.entry e).sqe.flags &&& (1 <<< 6 ||| 1 <<< 7) ≠ 0) :=
      fun hne => hsgl (decide_eq_true hne)
    have hreply (st : Option (Nat × Nat)) : ∃ reply : AdminReply,
        reply.result = (s.hdc.entry e).result ∧
          Fw.handleNvmeAdminCommand s.hdc e reply = (res,s.hdc.storeStatus e st) := by
      obtain ⟨sct,sc,hst⟩ := s.hdc.storeStatus_eq_reply e st
      refine ⟨⟨res,sct,sc,_⟩,rfl,?_⟩
      rw [Fw.handleNvmeAdminCommand,if_neg hflags,hst]
    cases handleNvmeAdminCommand_effect h with
    | waits dma hwait hstatus length hsend => exact hreply none
    | done _ _ hwait hres hhdc hdma =>
      rw [hhdc]
      exact hreply _

/-- The state `dispatch` hands to the handlers: the new command is saved in the entry of its tag. -/
def receive (s : Firmware) (cmd : HdcNvmeCmd) : Firmware :=
  { s with hdc := saveInHostCmdEntry (s.hdc.record (.nvmeCmd cmd.tag)) cmd.tag cmd }

theorem receive_entry (s : Firmware) (cmd : HdcNvmeCmd) : (s.receive cmd).hdc.entry cmd.tag =
    { s.hdc.entry cmd.tag with
      cmdTag := cmd.tag, sqid := cmd.sqid, vfa := cmd.vfa, port := cmd.port, vf := cmd.vf
      sqe := cmd.sqe } :=
  Hdc.setEntry_self ..

theorem receive_sqe (s : Firmware) (cmd : HdcNvmeCmd) : (s.receive cmd).sqe cmd.tag = cmd.sqe := by
  rw [sqe,receive_entry]

/-- A handler of admin commands or the one of I/O commands runs on the new command. -/
theorem dispatch_cases (h : s.dispatch env cmd dptr = some (res,t)) :
    cmd.sqid = 0 ∧ (s.receive cmd).handleNvmeAdminCommand env cmd.tag dptr = some (res,t) ∨
      cmd.sqid ≠ 0 ∧ ∃ hdc, handleNvmeIoCommand (s.hdcEnv env) (s.receive cmd).hdc cmd.tag = some (res,hdc) ∧
        t = { s.receive cmd with hdc := hdc } := by
  unfold dispatch at h
  dsimp only at h
  split_ifs at h with hsqid
  · exact Or.inl ⟨hsqid,h⟩
  · obtain ⟨⟨res',hdc⟩,hio,heq⟩ := Option.map_eq_some_iff.mp h
    cases heq
    exact Or.inr ⟨hsqid,hdc,hio,rfl⟩

/-- Up to the result of the handler, the host command side behaves as if the handler were a reply. -/
theorem dispatch_refines (h : s.dispatch env cmd dptr = some (res,t)) :
    ∃ reply : AdminReply, reply.result = (s.hdc.entry cmd.tag).result ∧
      dispatchHostCmd (s.hdcEnv env) s.hdc cmd reply = some (res,t.hdc) := by
  rcases dispatch_cases h with ⟨hsqid,hadmin⟩ | ⟨hsqid,hdc,hio,rfl⟩
  · obtain ⟨reply,hresult,hreply⟩ := handleNvmeAdminCommand_refines hadmin
    refine ⟨reply,?_,?_⟩
    · rw [hresult,receive_entry]
    · rw [receive] at hreply
      rw [dispatchHostCmd,if_pos hsqid,hreply]
  · refine ⟨⟨.complete,0,0,_⟩,rfl,?_⟩
    rw [receive] at hio
    rw [dispatchHostCmd,if_neg hsqid,hio]

/-- New commands: the steps of the host command side are those of the model with replies. -/
theorem hdcHostCmdTask_refines (h : s.hdcHostCmdTask env cmd dptr = some s') :
    ∃ reply : AdminReply, reply.result = (s.hdc.entry cmd.tag).result ∧
      s.hdc.step (s.hdcEnv env) (.nvmeCmd cmd reply) = some s'.hdc := by
  obtain ⟨⟨res,t⟩,hdispatch,rfl⟩ := Option.map_eq_some_iff.mp h
  obtain ⟨reply,hresult,hreply⟩ := dispatch_refines hdispatch
  refine ⟨reply,hresult,?_⟩
  rw [step_nvmeCmd,hreply]
  dsimp only [Option.map_some]
  split_ifs
  · rfl
  · rfl

end Firmware

end Sdssd.Fw
