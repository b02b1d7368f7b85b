import Mathlib.Data.BitVec
import Mathlib.Data.List.GetD
import Sdssd.Framework.OptionalParts

/-!
# The message of a WDMA request

`phif_wdma_req` of `msg_fmt.h` and `send_phif_wdma_req` of `datapath.c`. Six quad-words are always sent;
of the four behind them only those that `valid` names. An absent one should be skipped in the request,
but the cursor there moves only with the one of the port.
-/

namespace Sdssd.Fw

open Framework

/-- `phif_wdma_req`, quad-word by quad-word: the header, `control`, `cpa`, `hdata_addr`, `hmeta_addr`,
`elba`, and the optional ones. -/
structure PhifWdmaReq where
  header : BitVec 64
  control : BitVec 64
  qwCpa : BitVec 64
  hdataAddr : BitVec 64
  hmetaAddr : BitVec 64
  qwElba : BitVec 64
  qwPi : BitVec 64
  qwAddr : BitVec 64
  wdata0 : BitVec 64
  wdata1 : BitVec 64
  deriving DecidableEq

namespace PhifWdmaReq

def mandatory (req : PhifWdmaReq) : List (BitVec 64) :=
  [req.header,req.control,req.qwCpa,req.hdataAddr,req.hmetaAddr,req.qwElba]

def optional (req : PhifWdmaReq) : List (BitVec 64) := [req.qwPi,req.qwAddr,req.wdata0,req.wdata1]

/-- The request in memory. -/
def word (req : PhifWdmaReq) (i : Nat) : BitVec 64 := (req.mandatory ++ req.optional).getD i 0

end PhifWdmaReq

def rwdmaQwPi : BitVec 16 := 1 <<< 0
def rwdmaQwAddr : BitVec 16 := 1 <<< 1
def rwdmaQwData0 : BitVec 16 := 1 <<< 2
def rwdmaQwData1 : BitVec 16 := 1 <<< 3

/-- `PHIF_RWDMA_REQ_M_LEN` in quad-words. -/
def phifRwdmaReqMLen : Nat := 6

/-- `send_phif_wdma_req`: whether the port is busy, and the memory at `PHIF_WDMA_REQ_SPM`. -/
def sendPhifWdmaReq (available : Bool) (req : PhifWdmaReq) (valid : BitVec 16) (spm : Nat → BitVec 64) :
    Bool × (Nat → BitVec 64) :=
  if available then
    let c := Cursors.copy req.word ⟨0,0,spm⟩ phifRwdmaReqMLen
    let c := c.copyIf req.word (valid &&& rwdmaQwPi != 0)
    let c := c.copyIf req.word (valid &&& rwdmaQwAddr != 0)
    let c := c.copyIf req.word (valid &&& rwdmaQwData0 != 0)
    let c := c.copyIf req.word (valid &&& rwdmaQwData1 != 0)
    (false,c.mem)
  else (true,spm)

/-- The flags in the order of the optional quad-words. -/
def rwdmaFlags (valid : BitVec 16) : List Bool :=
  [valid &&& rwdmaQwPi != 0,valid &&& rwdmaQwAddr != 0,valid &&& rwdmaQwData0 != 0,
    valid &&& rwdmaQwData1 != 0]

/-- The number of quad-words in a message. -/
def rwdmaLen (valid : BitVec 16) : Nat := phifRwdmaReqMLen + (rwdmaFlags valid).count true

/-- The message has arrived: the mandatory quad-words, then those that are flagged and no others, so
that a receiver who knows `valid` reads all of them. -/
structure Transmitted (req : PhifWdmaReq) (valid : BitVec 16) (spm spm' : Nat → BitVec 64) : Prop where
  words : (List.range (rwdmaLen valid)).map spm' =
    req.mandatory ++ compact (rwdmaFlags valid) req.optional
  beyond : ∀ i, rwdmaLen valid ≤ i → spm' i = spm i
  received : (List.range phifRwdmaReqMLen).map spm' = req.mandatory ∧
    receiveParts spm' phifRwdmaReqMLen (rwdmaFlags valid) = flaggedParts (rwdmaFlags valid) req.optional

/-- What a call with a free port should do. -/
def SentFaithfully (req : PhifWdmaReq) (valid : BitVec 16) (spm : Nat → BitVec 64) : Prop :=
  (sendPhifWdmaReq true req valid spm).1 = false ∧
    Transmitted req valid spm (sendPhifWdmaReq true req valid spm).2

section Send

variable {req : PhifWdmaReq} {valid : BitVec 16} {spm : Nat → BitVec 64}

/-- The message is made of the first quad-words of the request. -/
theorem sendPhifWdmaReq_eq : sendPhifWdmaReq true req valid spm =
    (false,fun i => if i < rwdmaLen valid then req.word i else spm i) := by
  have hfold : sendPhifWdmaReq true req valid spm =
      (false,((rwdmaFlags valid).foldl (Cursors.copyIf req.word)
        (Cursors.copy req.word ⟨0,0,spm⟩ phifRwdmaReqMLen)).mem) := rfl
  rw [hfold,Cursors.foldl_copyIf,Cursors.copy_copy,Cursors.copy]
  congr 1
  funext i
  change (if 0 ≤ i ∧ i < 0 + rwdmaLen valid then req.word (0 + (i - 0)) else spm i) = _
  rw [Nat.zero_add,Nat.zero_add,Nat.sub_zero]
  by_cases hi : i < rwdmaLen valid
  · rw [if_pos hi,if_pos ⟨Nat.zero_le i,hi⟩]
  · rw [if_neg hi,if_neg fun h => hi h.2]

theorem length_rwdmaFlags : (rwdmaFlags valid).length = req.optional.length := rfl

theorem rwdmaLen_le : rwdmaLen valid ≤ 10 := by
  have hcount : (rwdmaFlags valid).count true ≤ 4 := List.count_le_length
  rw [rwdmaLen,phifRwdmaReqMLen]
  omega

/-- Reading the first words back. -/
theorem map_range_word {n : Nat} (hn : n ≤ 10) :
    (List.range n).map req.word = (req.mandatory ++ req.optional).take n := by
  apply List.ext_getElem
  · rw [List.length_map,List.length_range,List.length_take]
    exact (Nat.min_eq_left hn).symm
  · intro i hi hi'
    rw [List.length_map,List.length_range] at hi
    have hlen : i < (req.mandatory ++ req.optional).length := Nat.lt_of_lt_of_le hi hn
    rw [List.getElem_map,List.getElem_range,List.getElem_take,PhifWdmaReq.word,
      List.getD_eq_getElem _ _ hlen]

theorem word_optional (r : Nat) : req.word (phifRwdmaReqMLen + r) = req.optional.getD r 0 := by
  rw [Nat.add_comm]
  rfl

/-- The words of the message, behind the mandatory ones, are the first optional ones. -/
theorem sendPhifWdmaReq_words :
    (List.range (rwdmaLen valid)).map (sendPhifWdmaReq true req valid spm).2 =
      req.mandatory ++ req.optional.take ((rwdmaFlags valid).count true) := by
  have hword : (List.range (rwdmaLen valid)).map (sendPhifWdmaReq true req valid spm).2 =
      (List.range (rwdmaLen valid)).map req.word := by
    apply List.map_congr_left
    intro i hi
    rw [sendPhifWdmaReq_eq]
    exact if_pos (List.mem_range.mp hi)
  have hlen : rwdmaLen valid = req.mandatory.length + (rwdmaFlags valid).count true := rfl
  rw [hword,map_range_word rwdmaLen_le,hlen,List.take_length_add_append]

theorem sendPhifWdmaReq_low {i : Nat} (hi : i < rwdmaLen valid) :
    (sendPhifWdmaReq true req valid spm).2 i = req.word i := by
  rw [sendPhifWdmaReq_eq]
  exact if_pos hi

/-- The message is right when its words are. -/
theorem sentFaithfully_iff_take : SentFaithfully req valid spm ↔
    req.optional.take ((rwdmaFlags valid).count true) = compact (rwdmaFlags valid) req.optional := by
  constructor
  · rintro ⟨-,⟨hwords,-,-⟩⟩
    rw [sendPhifWdmaReq_words] at hwords
    exact List.append_cancel_left hwords
  · intro heq
    refine ⟨by rw [sendPhifWdmaReq_eq],?_,?_,?_,?_⟩
    · rw [sendPhifWdmaReq_words,heq]
    · intro i hi
      rw [sendPhifWdmaReq_eq]
      exact if_neg (Nat.not_lt.mpr hi)
    · have hmap : (List.range phifRwdmaReqMLen).map (sendPhifWdmaReq true req valid spm).2 =
          (List.range phifRwdmaReqMLen).map req.word := by
        apply List.map_congr_left
        intro i hi
        exact sendPhifWdmaReq_low (Nat.lt_of_lt_of_le (List.mem_range.mp hi) (Nat.le_add_right _ _))
      rw [hmap]
      rfl
    · apply receiveParts_eq length_rwdmaFlags
      intro r hr
      have hr4 : r < req.optional.length := Nat.lt_of_lt_of_le hr List.count_le_length
      rw [← heq,List.getElem?_take_of_lt hr,sendPhifWdmaReq_low (Nat.add_lt_add_left hr _),word_optional,
        List.getElem?_eq_getElem hr4,List.getD_eq_getElem _ _ hr4]

/-- With the address alone, what stands in front of it has to be the same. -/
theorem sentFaithfully_addr_iff : SentFaithfully req rwdmaQwAddr spm ↔ req.qwPi = req.qwAddr := by
  have hflags : rwdmaFlags rwdmaQwAddr = [false,true,false,false] := by decide
  rw [sentFaithfully_iff_take,hflags]
  simp [PhifWdmaReq.optional,compact]

end Send

/-- A message is right exactly when each flagged quad-word equals the optional one at the place of its
rank among the flagged ones. With given flags all messages are right exactly when no flag is clear in
front of one that is set. -/
theorem wdma_message_faithful_iff (valid : BitVec 16) :
    (∀ req spm, SentFaithfully req valid spm ↔ ∀ i, (rwdmaFlags valid)[i]? = some true →
      req.optional[rank (rwdmaFlags valid) i]? = req.optional[i]?) ∧
    ((∀ req spm, SentFaithfully req valid spm) ↔ NoGap (rwdmaFlags valid)) := by
  constructor
  · intro req spm
    rw [sentFaithfully_iff_take,take_eq_compact_iff length_rwdmaFlags]
  · have : Nontrivial (BitVec 64) := ⟨0,1,by decide⟩
    rw [← forall_take_eq_compact_iff (α := BitVec 64)]
    constructor
    · intro h parts hlen
      -- every four words are the optional part of a request
      match parts, hlen with
      | [a,b,c,d], _ =>
        exact sentFaithfully_iff_take.mp (h ⟨0,0,0,0,0,0,a,b,c,d⟩ fun _ => 0)
    · intro h req spm
      exact sentFaithfully_iff_take.mpr (h req.optional length_rwdmaFlags)

/-- With `RWDMA_QW_ADDR` alone, as `fw_send_wdma_req` has it, the quad-word of the PI is sent instead of
the address. -/
theorem wdma_message_address_lost :
    (sendPhifWdmaReq true ⟨0,0,0,0,0,0,0,0x1000,0,0⟩ rwdmaQwAddr fun _ => 0).2 6 = 0 ∧
    ¬ SentFaithfully ⟨0,0,0,0,0,0,0,0x1000,0,0⟩ rwdmaQwAddr fun _ => 0 := by
  constructor
  · decide
  · intro h
    have hwords := h.2.words
    rw [sendPhifWdmaReq_words] at hwords
    exact absurd hwords (by decide)

end Sdssd.Fw
