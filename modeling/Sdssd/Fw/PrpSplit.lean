import Sdssd.Framework.BitField
import Sdssd.Fw.Dma
import Sdssd.Fw.WdmaMessage

/-!
# Transfers to the pages of a host command

`wdma_cbuff_to_host_dptr` of `datapath.c` on the words of the source: a buffer goes to the page of `prp1`
and, when that is not aligned, to the one of `prp2`. Each call of `fw_send_wdma_req` fills one request; the
range it moves is read from the fields of the request.
-/

namespace Sdssd.Fw

open Framework

/-- The arguments of `fw_send_wdma_req` that differ between the calls of one transfer. -/
structure WdmaCall where
  hostAddr : BitVec 64
  cbuffAddr : BitVec 64
  length : BitVec 16
  deriving DecidableEq

/-- `page_offset`. -/
def pageOffset (v : BitVec 64) : BitVec 64 := v &&& (4096 - 1)

/-- The calls that `wdma_cbuff_to_host_dptr` makes. -/
def wdmaCalls (prp1 prp2 cbuff : BitVec 64) (length : BitVec 16) : List WdmaCall :=
  let prp1Offset := pageOffset prp1
  if prp1Offset = 0 then [⟨prp1,cbuff,4096⟩]
  else [⟨prp1,cbuff,length⟩,⟨prp2,cbuff + length.setWidth 64,prp1Offset.setWidth 16⟩]

namespace MsgQw0

/-- The fields of `msg_qw0` that `msg_header_filled` writes. -/
def cnt : BitField := ⟨0,4⟩
def dstfifo : BitField := ⟨4,4⟩
def dst : BitField := ⟨8,5⟩
def prio : BitField := ⟨13,1⟩
def msgid : BitField := ⟨16,8⟩
def tag : BitField := ⟨24,8⟩
def extTag : BitField := ⟨32,4⟩
def src : BitField := ⟨36,5⟩
def vfa : BitField := ⟨42,1⟩
def port : BitField := ⟨43,1⟩
def vf : BitField := ⟨44,4⟩

end MsgQw0

/-- `msg_header_filled`; the arguments are `u8`. -/
def msgHeaderFilled (header : BitVec 64) (cnt dstfifo dst msgid tag extTag src sriov : BitVec 8) :
    BitVec 64 :=
  BitField.setAll header [(MsgQw0.cnt,cnt.toNat),(MsgQw0.dstfifo,dstfifo.toNat),(MsgQw0.dst,dst.toNat),
    (MsgQw0.prio,0),(MsgQw0.msgid,msgid.toNat),(MsgQw0.tag,tag.toNat),(MsgQw0.extTag,extTag.toNat),
    (MsgQw0.src,src.toNat),(MsgQw0.vfa,(sriov &&& 0x1).toNat),(MsgQw0.port,(sriov >>> 1 &&& 0x1).toNat),
    (MsgQw0.vf,(sriov >>> 2 &&& 0xf).toNat)]

def msgNidHdc : BitVec 8 := 1
def msgNidPhif : BitVec 8 := 3
def msgidPhifWdmaReq : BitVec 8 := 0x27

namespace PhifWdmaReq

/-- `control.blen`, `control.pld_qwn` and `cbuff_addr`. -/
def blen : BitField := ⟨0,15⟩
def pldQwn : BitField := ⟨17,4⟩
def cbuffAddr : BitField := ⟨0,36⟩

end PhifWdmaReq

/-- What a free tag offers: the tag, and the request entry of it with what the last use left. The
value of `HDC_EXT_TAG` is not in the sources. -/
structure WdmaSlot where
  itnlTag : BitVec 16
  req : PhifWdmaReq
  hdcExtTag : BitVec 8

/-- The request as `fw_send_wdma_req` fills it. -/
def WdmaSlot.fill (slot : WdmaSlot) (call : WdmaCall) : PhifWdmaReq :=
  { slot.req with
    header := msgHeaderFilled slot.req.header 6 msgNidPhif msgNidPhif msgidPhifWdmaReq
      (slot.itnlTag.setWidth 8) slot.hdcExtTag msgNidHdc 0
    control := PhifWdmaReq.pldQwn.set (PhifWdmaReq.blen.set slot.req.control call.length.toNat) 1
    hdataAddr := call.hostAddr
    qwAddr := PhifWdmaReq.cbuffAddr.set slot.req.qwAddr call.cbuffAddr.toNat }

/-- The requests of one transfer in their order. -/
def wdmaRequests (slot : Nat → WdmaSlot) (prp1 prp2 cbuff : BitVec 64) (length : BitVec 16) :
    List PhifWdmaReq :=
  (wdmaCalls prp1 prp2 cbuff length).mapIdx fun i call => (slot i).fill call

/-- The bytes that a request moves. -/
structure DmaSegment where
  host : Nat
  source : Nat
  len : Nat
  deriving DecidableEq

namespace DmaSegment

def hostBytes (g : DmaSegment) : List Nat := List.range' g.host g.len

def sourceBytes (g : DmaSegment) : List Nat := List.range' g.source g.len

end DmaSegment

def PhifWdmaReq.segment (req : PhifWdmaReq) : DmaSegment :=
  ⟨req.hdataAddr.toNat,PhifWdmaReq.cbuffAddr.get req.qwAddr,PhifWdmaReq.blen.get req.control⟩

/-- The segments move the buffer, each byte once and in order, to the rest of the page of `prp1` and on
to the page of `prp2`. -/
structure SplitsExactly (prp1 prp2 cbuff length : Nat) (segments : List DmaSegment) : Prop where
  source : segments.flatMap DmaSegment.sourceBytes = List.range' cbuff length
  onePage : ∀ g ∈ segments, ∀ a ∈ g.hostBytes, a / 4096 = g.host / 4096
  host : segments.flatMap DmaSegment.hostBytes =
    List.range' prp1 (min length (4096 - prp1 % 4096)) ++
      List.range' prp2 (length - (4096 - prp1 % 4096))
  total : (segments.map DmaSegment.len).sum = length

section Transfer

variable {prp1 prp2 cbuff : BitVec 64} {length : BitVec 16} {slot : Nat → WdmaSlot}

theorem toNat_pageOffset (v : BitVec 64) : (pageOffset v).toNat = v.toNat % 4096 := by
  rw [pageOffset,BitVec.toNat_and]
  exact Nat.and_two_pow_sub_one_eq_mod v.toNat 12

theorem pageOffset_eq_zero_iff : pageOffset prp1 = 0 ↔ prp1.toNat % 4096 = 0 := by
  rw [← toNat_pageOffset,← BitVec.toNat_inj]
  rfl

/-- The fields keep the arguments, cut to their widths. -/
theorem segment_fill (s : WdmaSlot) (call : WdmaCall) : (s.fill call).segment =
    ⟨call.hostAddr.toNat,call.cbuffAddr.toNat % 2^36,call.length.toNat % 2^15⟩ := by
  have haddr : PhifWdmaReq.cbuffAddr.get (s.fill call).qwAddr = call.cbuffAddr.toNat % 2^36 :=
    BitField.get_set (by decide : PhifWdmaReq.cbuffAddr.Fits 64) s.req.qwAddr _
  have hlen : PhifWdmaReq.blen.get (s.fill call).control = call.length.toNat % 2^15 := by
    rw [WdmaSlot.fill,BitField.get_set_of_apart (by decide : PhifWdmaReq.pldQwn.Fits 64) (by decide)]
    exact BitField.get_set (by decide : PhifWdmaReq.blen.Fits 64) s.req.control _
  rw [PhifWdmaReq.segment,haddr,hlen]
  rfl

/-- What a slot held before does not matter. -/
theorem wdmaRequests_segments : (wdmaRequests slot prp1 prp2 cbuff length).map PhifWdmaReq.segment =
    (wdmaCalls prp1 prp2 cbuff length).map fun call =>
      ⟨call.hostAddr.toNat,call.cbuffAddr.toNat % 2^36,call.length.toNat % 2^15⟩ := by
  apply List.ext_getElem
  · simp [wdmaRequests]
  · intro i hi hi'
    simp only [wdmaRequests,List.getElem_map,List.getElem_mapIdx,segment_fill]

/-- An aligned `prp1` gives one request of a whole page. -/
theorem segments_aligned (h : prp1.toNat % 4096 = 0) :
    (wdmaRequests slot prp1 prp2 cbuff length).map PhifWdmaReq.segment =
      [⟨prp1.toNat,cbuff.toNat % 2^36,4096⟩] := by
  rw [wdmaRequests_segments,wdmaCalls,if_pos (pageOffset_eq_zero_iff.mpr h)]
  rfl

/-- With any other the first request has the whole length, and the second the offset. -/
theorem segments_unaligned (h : prp1.toNat % 4096 ≠ 0) :
    ((wdmaRequests slot prp1 prp2 cbuff length).map PhifWdmaReq.segment).map DmaSegment.len =
      [length.toNat % 2^15,prp1.toNat % 4096] := by
  have hoffset : ((pageOffset prp1).setWidth 16).toNat % 2^15 = prp1.toNat % 4096 := by
    rw [BitVec.toNat_setWidth,toNat_pageOffset]
    omega
  rw [wdmaRequests_segments,wdmaCalls,if_neg (fun hz => h (pageOffset_eq_zero_iff.mp hz))]
  simp only [List.map_cons,List.map_nil,hoffset]

/-- The model of internal commands makes these calls, one after another, for a buffer that is the object
of `cb` from its offset on. -/
theorem dmaCtl_wdmaCbuffToHostDptr (env : DmaEnv) (d : DmaCtl) (cb : CbuffAddr) (hostTag : Nat)
    (handler : FwCmdCallback) (ctx : Nat) :
    d.wdmaCbuffToHostDptr env prp1.toNat prp2.toNat cb length.toNat hostTag handler ctx =
      (wdmaCalls prp1 prp2 cbuff length).foldlM (fun d call =>
        d.fwSendWdmaReq env call.hostAddr.toNat
          ⟨cb.object,cb.offset + (call.cbuffAddr - cbuff).toNat⟩ call.length.toNat hostTag handler ctx) d := by
  have hfirst : (⟨cb.object,cb.offset + (cbuff - cbuff).toNat⟩ : CbuffAddr) = cb := by
    rw [BitVec.sub_self]
    rfl
  by_cases h : prp1.toNat % 4096 = 0
  · rw [DmaCtl.wdmaCbuffToHostDptr,DmaCtl.sz4K,wdmaCalls,if_pos (pageOffset_eq_zero_iff.mpr h),
      List.foldlM_cons,hfirst]
    simp only [h,if_true,List.foldlM_nil,bind_pure]
    rfl
  · have hsecond : (cbuff + length.setWidth 64 - cbuff).toNat = length.toNat := by
      rw [BitVec.add_comm,BitVec.add_sub_cancel,BitVec.toNat_setWidth]
      omega
    have hoffset : ((pageOffset prp1).setWidth 16).toNat = prp1.toNat % 4096 := by
      rw [BitVec.toNat_setWidth,toNat_pageOffset]
      omega
    rw [DmaCtl.wdmaCbuffToHostDptr,DmaCtl.sz4K,wdmaCalls,
      if_neg (fun hz => h (pageOffset_eq_zero_iff.mp hz)),List.foldlM_cons,hfirst]
    simp only [h,if_false,List.foldlM_cons,List.foldlM_nil,bind_pure,hsecond,hoffset]

/-- A filled request is sent with `RWDMA_QW_ADDR` alone. It goes out right only if the slot has the
address in the quad-word of the PI as well. -/
theorem sentFaithfully_fill_iff (s : WdmaSlot) (call : WdmaCall) (spm : Nat → BitVec 64) :
    SentFaithfully (s.fill call) rwdmaQwAddr spm ↔ s.req.qwPi = (s.fill call).qwAddr := by
  -- with the request taken apart the header is not looked at
  have hpi : (s.fill call).qwPi = s.req.qwPi := by
    obtain ⟨itnlTag,⟨header,control,qwCpa,hdataAddr,hmetaAddr,qwElba,qwPi,qwAddr,wdata0,wdata1⟩,ext⟩ := s
    rfl
  rw [sentFaithfully_addr_iff,hpi]

theorem splitsExactly_aligned {prp1 prp2 cbuff : Nat} (h : prp1 % 4096 = 0) :
    SplitsExactly prp1 prp2 cbuff 4096 [⟨prp1,cbuff,4096⟩] := by
  constructor
  case source => simp [DmaSegment.sourceBytes]
  case onePage =>
    intro g hg a ha
    obtain rfl := List.mem_singleton.mp hg
    rw [DmaSegment.hostBytes,List.mem_range'_1] at ha
    dsimp only at ha ⊢
    omega
  case host => simp [h,DmaSegment.hostBytes]
  case total => rfl

end Transfer

/-- The split is right exactly when `prp1` is aligned, the buffer is a whole page, and its address fits
the field of the request. -/
theorem prp_split_exact_iff (slot : Nat → WdmaSlot) (prp1 prp2 cbuff : BitVec 64) (length : BitVec 16) :
    SplitsExactly prp1.toNat prp2.toNat cbuff.toNat length.toNat
        ((wdmaRequests slot prp1 prp2 cbuff length).map PhifWdmaReq.segment) ↔
      prp1.toNat % 4096 = 0 ∧ length.toNat = 4096 ∧ cbuff.toNat < 2^36 := by
  constructor
  · intro h
    have htotal := h.total
    by_cases haligned : prp1.toNat % 4096 = 0
    · rw [segments_aligned haligned] at htotal
      have hlen : length.toNat = 4096 := htotal.symm
      refine ⟨haligned,hlen,?_⟩
      -- the first byte of the buffer is the first one moved
      have hsource := congrArg List.head? h.source
      have hne : ¬ 4096 = 0 := by decide
      rw [segments_aligned haligned,hlen,List.flatMap_singleton,DmaSegment.sourceBytes,List.head?_range',
        List.head?_range',if_neg hne,if_neg hne,Option.some.injEq] at hsource
      rw [← hsource]
      exact Nat.mod_lt _ (by decide)
    · rw [segments_unaligned haligned,List.sum_cons,List.sum_singleton] at htotal
      omega
  · rintro ⟨haligned,hlen,hcbuff⟩
    rw [segments_aligned haligned,hlen,Nat.mod_eq_of_lt hcbuff]
    exact splitsExactly_aligned haligned

/-- A tag that has not been used. -/
def freshSlot : WdmaSlot := ⟨0,⟨0,0,0,0,0,0,0,0,0,0⟩,0⟩

/-- The data of an identify command into an aligned page. -/
theorem prp_split_exact_page : SplitsExactly 0x10000 0x20000 0x3000 4096
    ((wdmaRequests (fun _ => freshSlot) 0x10000 0x20000 0x3000 4096).map PhifWdmaReq.segment) :=
  (prp_split_exact_iff (fun _ => freshSlot) 0x10000 0x20000 0x3000 4096).mpr (by decide)

/-- The same data to offset 0x200 of a page: the first request runs over the end of the page, and the
second moves the 512 bytes behind the buffer. -/
theorem prp_split_overruns :
    (wdmaRequests (fun _ => freshSlot) 0x10200 0x20000 0x3000 4096).map PhifWdmaReq.segment =
      [⟨0x10200,0x3000,4096⟩,⟨0x20000,0x4000,512⟩] ∧
    ¬ SplitsExactly 0x10200 0x20000 0x3000 4096
      ((wdmaRequests (fun _ => freshSlot) 0x10200 0x20000 0x3000 4096).map PhifWdmaReq.segment) := by
  have hsegments : (wdmaRequests (fun _ => freshSlot) 0x10200 0x20000 0x3000 4096).map
      PhifWdmaReq.segment = [⟨0x10200,0x3000,4096⟩,⟨0x20000,0x4000,512⟩] := by
    decide
  refine ⟨hsegments,fun h => ?_⟩
  have htotal := h.total
  rw [hsegments] at htotal
  exact absurd htotal (by decide)

end Sdssd.Fw
