import Sdssd.Host.SysMeta

/-!
# Commands from user space

The two ioctls of the back-end character device (`be-cdev.c`). Both take the number of pages from the
user and copy lists of that many entries between user memory and buffers of fixed size.
-/

namespace Sdssd.Host

def pageSize : Nat := 4096
def maxPpaPerCmd : Nat := 64

/-- The fields of `struct nvme_user_io` that the driver looks at. -/
structure NvmeUserIo where
  opcode : BitVec 8
  flags : BitVec 8
  nblocks : BitVec 16
  metadata : BitVec 64
  addr : BitVec 64
  slba : BitVec 64
  deriving DecidableEq, Repr

/-- The kernel buffers: the two pages from `dma_pool_page_zalloc` and the array on the stack. -/
inductive KernelBuf
  | ppaPage
  | metaPage
  | ppaList
  deriving DecidableEq, Repr

def KernelBuf.size : KernelBuf → Nat
  | .ppaPage => pageSize
  | .metaPage => pageSize
  | .ppaList => 8 * maxPpaPerCmd

inductive CopyDir
  | fromUser
  | toUser
  deriving DecidableEq, Repr

/-- A `copy_from_user` into a kernel buffer, or a `copy_to_user` out of it. -/
structure UserCopy where
  buf : KernelBuf
  dir : CopyDir
  len : Nat
  deriving DecidableEq, Repr

/-- What the functions outside the driver answer: whether `vio` can be read, a request and the two
pages are there, the user's lists can be read, the data can be mapped, the namespace has a disk and
`bdget_disk` finds its device, and the status of the completed command. -/
structure IoctlEnv where
  vioOk : Bool
  requestOk : Bool
  ppaPageOk : Bool
  ppaCopyOk : Bool
  mapOk : Bool
  metaPageOk : Bool
  metaCopyOk : Bool
  disk : Bool
  bdevOk : Bool
  errors : Int

/-- The return value, or the fault the call ends in, and the copies it made. -/
structure IoctlRun where
  ret : Except Fault Int
  copies : List UserCopy

/-- No copy leaves its buffer. -/
def IoctlRun.Bounded (r : IoctlRun) : Prop := ∀ c ∈ r.copies, c.len ≤ c.buf.size

/-- `nvme_is_write`; a fabrics command has its opcode in the same byte. -/
def nvmeIsWrite (opcode : BitVec 8) : Bool := opcode.getLsbD 0

/-- The submission in `handle_user_ppa_cmd` and what follows it; `metadata` tells whether there is a
metadata page. -/
def submitUserPpaCmd (env : IoctlEnv) (write metadata : Bool) (metaLen : Nat) (copies : List UserCopy) :
    IoctlRun :=
  ⟨.ok env.errors,if metadata && !write then copies ++ [⟨.metaPage,.toUser,metaLen⟩] else copies⟩

/-- The part of `handle_user_ppa_cmd` from the metadata buffer on. `dma_pool_page_zalloc` clears the page
before its caller tests the pointer. -/
def attachMetadata (env : IoctlEnv) (write metadata : Bool) (metaLen : Nat) (copies : List UserCopy) :
    IoctlRun :=
  if metadata && !env.metaPageOk then ⟨.error .nullDeref,copies⟩
  else
    let copies := if metadata && write then copies ++ [⟨.metaPage,.fromUser,metaLen⟩] else copies
    if metadata && write && !env.metaCopyOk then ⟨.ok 0,copies⟩
    else if env.disk && !env.bdevOk then ⟨.ok 0,copies⟩
    else submitUserPpaCmd env write metadata metaLen copies

/-- The part of `handle_user_ppa_cmd` from the data buffer on. -/
def mapUserBuffers (env : IoctlEnv) (write : Bool) (ubuf : BitVec 64) (bufflen : Nat)
    (metaBuf : BitVec 64) (metaLen : Nat) (copies : List UserCopy) : IoctlRun :=
  if ubuf ≠ 0 ∧ bufflen ≠ 0 then
    if !env.mapOk then ⟨.ok 0,copies⟩
    else attachMetadata env write (decide (metaBuf ≠ 0 ∧ metaLen ≠ 0)) metaLen copies
  else submitUserPpaCmd env write false metaLen copies

/-- `handle_user_ppa_cmd`; every error path returns `status`, which is still 0 there. -/
def handleUserPpaCmd (env : IoctlEnv) (opcode : BitVec 8) (ubuf : BitVec 64) (bufflen : Nat)
    (metaBuf : BitVec 64) (metaLen : Nat) (ppaBuf : BitVec 64) (nlb : Nat) : IoctlRun :=
  let write := nvmeIsWrite opcode
  if !env.requestOk then ⟨.ok 0,[]⟩
  else if ppaBuf ≠ 0 ∧ nlb ≠ 0 then
    if !env.ppaPageOk then ⟨.error .nullDeref,[]⟩
    else
      let copies := [⟨.ppaPage,.fromUser,8 * (nlb + 1)⟩]
      if !env.ppaCopyOk then ⟨.ok 0,copies⟩
      else mapUserBuffers env write ubuf bufflen metaBuf metaLen copies
  else mapUserBuffers env write ubuf bufflen metaBuf metaLen []

def nvmeSubmitUserPpaCmd (env : IoctlEnv) (vio : NvmeUserIo) : IoctlRun :=
  if !env.vioOk then ⟨.ok (-14),[]⟩
  else if vio.flags ≠ 0 then ⟨.ok (-22),[]⟩
  else
    let nlb := vio.nblocks.toNat
    handleUserPpaCmd env vio.opcode vio.addr ((nlb + 1) * expPpaSize) vio.metadata
      ((nlb + 1) * nandMetaSize) vio.slba nlb

def nvmeBeIoctlTest (env : IoctlEnv) (vio : NvmeUserIo) : IoctlRun :=
  if !env.vioOk then ⟨.ok (-14),[]⟩
  else ⟨.ok 0,[⟨.ppaList,.fromUser,8 * (vio.nblocks.toNat + 1)⟩]⟩

/-- `FSCFTL_IOCTL_SMOKE_TEST`, `FSCFTL_IOCTL_USER_PPA_CMD` and any other code. -/
inductive IoctlCmd
  | smokeTest
  | userPpaCmd
  | invalid
  deriving DecidableEq, Repr

def backendDevIoctl (env : IoctlEnv) (cmd : IoctlCmd) (vio : NvmeUserIo) : IoctlRun :=
  match cmd with
  | .smokeTest => nvmeBeIoctlTest env vio
  | .userPpaCmd => nvmeSubmitUserPpaCmd env vio
  | .invalid => ⟨.ok (-25),[]⟩

/-- The page count fits every buffer that the ioctl uses for it. -/
def NvmeUserIo.Fits (vio : NvmeUserIo) : IoctlCmd → Prop
  | .smokeTest => vio.nblocks.toNat < maxPpaPerCmd
  | .userPpaCmd => vio.flags ≠ 0 ∨
      (vio.slba ≠ 0 → vio.nblocks.toNat < pageSize / 8) ∧
      (vio.addr ≠ 0 → vio.metadata ≠ 0 → vio.nblocks.toNat < pageSize / nandMetaSize)
  | .invalid => True

section Copies

variable {env : IoctlEnv} {write : Bool} {ubuf metaBuf ppaBuf : BitVec 64} {bufflen metaLen nlb : Nat}
  {opcode : BitVec 8} {copies : List UserCopy} {c : UserCopy}

/-- Nothing fails, and the command completes without an error. -/
def IoctlEnv.smooth : IoctlEnv := ⟨true,true,true,true,true,true,true,true,true,0⟩

/-- All that the second half copies is the metadata. -/
theorem mem_attachMetadata {metadata : Bool}
    (hc : c ∈ (attachMetadata env write metadata metaLen copies).copies) :
    c ∈ copies ∨ metadata = true ∧ c.buf = .metaPage ∧ c.len = metaLen := by
  have hnew {d : UserCopy} (h : c ∈ copies ++ [d]) : c ∈ copies ∨ c = d := by simpa using h
  unfold attachMetadata submitUserPpaCmd at hc
  cases metadata with
  | false =>
    simp only [Bool.false_and,Bool.false_eq_true,if_false] at hc
    split_ifs at hc <;> exact Or.inl hc
  | true =>
    refine Or.imp_right (fun h => ⟨rfl,h⟩) ?_
    cases write with
    | true =>
      simp only [Bool.true_and,Bool.and_self,Bool.not_true,Bool.and_false,Bool.false_eq_true,if_true,
        if_false] at hc
      split_ifs at hc
      · exact Or.inl hc
      all_goals exact (hnew hc).imp_right (by rintro rfl; exact ⟨rfl,rfl⟩)
    | false =>
      simp only [Bool.true_and,Bool.and_false,Bool.false_and,Bool.not_false,Bool.and_self,
        Bool.false_eq_true,if_true,if_false] at hc
      split_ifs at hc
      · exact Or.inl hc
      · exact Or.inl hc
      · exact (hnew hc).imp_right (by rintro rfl; exact ⟨rfl,rfl⟩)

theorem mem_mapUserBuffers
    (hc : c ∈ (mapUserBuffers env write ubuf bufflen metaBuf metaLen copies).copies) :
    c ∈ copies ∨ ubuf ≠ 0 ∧ metaBuf ≠ 0 ∧ c.buf = .metaPage ∧ c.len = metaLen := by
  unfold mapUserBuffers at hc
  split_ifs at hc with hdata hmap
  · exact Or.inl hc
  · rcases mem_attachMetadata hc with h | ⟨hmeta,h⟩
    · exact Or.inl h
    · exact Or.inr ⟨hdata.1,(of_decide_eq_true hmeta).1,h⟩
  · exact Or.inl (by simpa [submitUserPpaCmd] using hc)

/-- When nothing fails the copies made before stay, and the metadata is copied in one direction or the
other. -/
theorem attachMetadata_smooth (write metadata : Bool) (metaLen : Nat) (copies : List UserCopy) :
    (∀ c ∈ copies, c ∈ (attachMetadata .smooth write metadata metaLen copies).copies) ∧
      (metadata = true → ∃ c ∈ (attachMetadata .smooth write metadata metaLen copies).copies,
        c.buf = .metaPage ∧ c.len = metaLen) := by
  cases metadata <;> cases write <;> simp +contextual [attachMetadata,submitUserPpaCmd,IoctlEnv.smooth]

theorem mapUserBuffers_smooth (write : Bool) (ubuf metaBuf : BitVec 64) (copies : List UserCopy)
    {bufflen metaLen : Nat} (hlen : bufflen ≠ 0) (hmlen : metaLen ≠ 0) :
    (∀ c ∈ copies, c ∈ (mapUserBuffers .smooth write ubuf bufflen metaBuf metaLen copies).copies) ∧
      (ubuf ≠ 0 → metaBuf ≠ 0 →
        ∃ c ∈ (mapUserBuffers .smooth write ubuf bufflen metaBuf metaLen copies).copies,
          c.buf = .metaPage ∧ c.len = metaLen) := by
  unfold mapUserBuffers
  by_cases hubuf : ubuf = 0
  · rw [if_neg fun h => h.1 hubuf]
    exact ⟨fun c hc => by simpa [submitUserPpaCmd] using hc,fun h => absurd hubuf h⟩
  · rw [if_pos ⟨hubuf,hlen⟩]
    have hboth := attachMetadata_smooth write (decide (metaBuf ≠ 0 ∧ metaLen ≠ 0)) metaLen copies
    exact ⟨hboth.1,fun _ hmeta => hboth.2 (decide_eq_true ⟨hmeta,hmlen⟩)⟩

end Copies

/-- The list of physical pages that the user passes along. -/
def NvmeUserIo.ppaCopies (vio : NvmeUserIo) : List UserCopy :=
  if vio.slba ≠ 0 ∧ vio.nblocks.toNat ≠ 0 then [⟨.ppaPage,.fromUser,8 * (vio.nblocks.toNat + 1)⟩] else []

section Bounds

variable {env : IoctlEnv} {vio : NvmeUserIo}

theorem nvmeSubmitUserPpaCmd_smooth (hflags : vio.flags = 0) : nvmeSubmitUserPpaCmd .smooth vio =
    mapUserBuffers .smooth (nvmeIsWrite vio.opcode) vio.addr ((vio.nblocks.toNat + 1) * expPpaSize)
      vio.metadata ((vio.nblocks.toNat + 1) * nandMetaSize) vio.ppaCopies := by
  rw [nvmeSubmitUserPpaCmd,NvmeUserIo.ppaCopies,hflags]
  simp only [handleUserPpaCmd,IoctlEnv.smooth,Bool.not_true,Bool.false_eq_true,if_false,ne_eq,
    not_true_eq_false]
  split_ifs <;> rfl

/-- Every copy of the pass-through command is one of these. -/
theorem mem_nvmeSubmitUserPpaCmd {c : UserCopy} (hc : c ∈ (nvmeSubmitUserPpaCmd env vio).copies) :
    vio.flags = 0 ∧ (c ∈ vio.ppaCopies ∨ vio.addr ≠ 0 ∧ vio.metadata ≠ 0 ∧ c.buf = .metaPage ∧
      c.len = (vio.nblocks.toNat + 1) * nandMetaSize) := by
  unfold nvmeSubmitUserPpaCmd handleUserPpaCmd at hc
  simp only at hc
  split_ifs at hc with hvio hflags hreq hppa hpage hcopy
  · cases hc
  · cases hc
  · cases hc
  · cases hc
  · refine ⟨of_not_not hflags,Or.inl ?_⟩
    rwa [NvmeUserIo.ppaCopies,if_pos hppa]
  · refine ⟨of_not_not hflags,(mem_mapUserBuffers hc).imp_left fun h => ?_⟩
    rwa [NvmeUserIo.ppaCopies,if_pos hppa]
  · exact ⟨of_not_not hflags,(mem_mapUserBuffers hc).imp_left fun h => nomatch h⟩

/-- The pass-through command stays inside its two pages exactly when both lists fit a page. -/
theorem nvmeSubmitUserPpaCmd_bounded_iff :
    (∀ env, (nvmeSubmitUserPpaCmd env vio).Bounded) ↔ vio.Fits .userPpaCmd := by
  have hlist (hslba : vio.slba ≠ 0) (hlen : vio.nblocks.toNat ≠ 0) :
      vio.ppaCopies = [⟨.ppaPage,.fromUser,8 * (vio.nblocks.toNat + 1)⟩] := if_pos ⟨hslba,hlen⟩
  constructor
  · intro h
    by_cases hflags : vio.flags = 0
    · have hsmooth := h .smooth
      rw [nvmeSubmitUserPpaCmd_smooth hflags] at hsmooth
      have hlen : (vio.nblocks.toNat + 1) * expPpaSize ≠ 0 := by simp [expPpaSize]
      have hmlen : (vio.nblocks.toNat + 1) * nandMetaSize ≠ 0 := by simp [nandMetaSize]
      obtain ⟨hkept,hmeta⟩ := mapUserBuffers_smooth (nvmeIsWrite vio.opcode) vio.addr vio.metadata
        vio.ppaCopies hlen hmlen
      refine Or.inr ⟨fun hslba => ?_,fun haddr hmd => ?_⟩
      · by_contra hbig
        have hne : vio.nblocks.toNat ≠ 0 := fun h0 => hbig (h0 ▸ by decide)
        have hc := hsmooth _ (hkept _ (by rw [hlist hslba hne]; exact List.mem_singleton.mpr rfl))
        simp only [KernelBuf.size,pageSize] at hc hbig
        omega
      · obtain ⟨c,hmem,hbuf,hclen⟩ := hmeta haddr hmd
        have hc := hsmooth c hmem
        rw [hbuf,hclen] at hc
        simp only [KernelBuf.size,pageSize,nandMetaSize] at hc ⊢
        omega
    · exact Or.inl hflags
  · intro hfits env c hc
    obtain ⟨hflags,hcase⟩ := mem_nvmeSubmitUserPpaCmd hc
    rcases hfits with hne | ⟨hppa,hmeta⟩
    · exact absurd hflags hne
    · rcases hcase with hc | ⟨haddr,hmd,hbuf,hlen⟩
      · unfold NvmeUserIo.ppaCopies at hc
        split_ifs at hc with hslba
        · obtain rfl := List.mem_singleton.mp hc
          have hlt := hppa hslba.1
          simp only [KernelBuf.size,pageSize] at hlt ⊢
          omega
        · cases hc
      · have hlt := hmeta haddr hmd
        rw [hbuf,hlen]
        simp only [KernelBuf.size,pageSize,nandMetaSize] at hlt ⊢
        omega

end Bounds

/-- An ioctl keeps to its kernel buffers, whatever the rest of the kernel answers, exactly when the page
count fits them. -/
theorem user_copies_bounded_iff (cmd : IoctlCmd) (vio : NvmeUserIo) :
    (∀ env, (backendDevIoctl env cmd vio).Bounded) ↔ vio.Fits cmd := by
  cases cmd with
  | smokeTest =>
    constructor
    · intro h
      have hc := h .smooth _ (List.mem_singleton.mpr rfl)
      simp only [KernelBuf.size,maxPpaPerCmd] at hc
      simp only [NvmeUserIo.Fits,maxPpaPerCmd]
      omega
    · intro hfits env c hc
      simp only [NvmeUserIo.Fits,maxPpaPerCmd] at hfits
      simp only [backendDevIoctl,nvmeBeIoctlTest] at hc
      split_ifs at hc
      · cases hc
      · obtain rfl := List.mem_singleton.mp hc
        simp only [KernelBuf.size,maxPpaPerCmd]
        omega
  | userPpaCmd => exact nvmeSubmitUserPpaCmd_bounded_iff
  | invalid =>
    refine iff_of_true (fun env c hc => ?_) trivial
    cases hc

/-- With the largest count and a list at address `0x1000`, 512 KiB go into a page of 4 KiB, and as much
over the array on the stack. -/
theorem user_copies_overrun :
    ¬ (nvmeSubmitUserPpaCmd .smooth ⟨0x91,0,0xffff,0,0,0x1000⟩).Bounded ∧
      ¬ (nvmeBeIoctlTest .smooth ⟨0x91,0,0xffff,0,0,0x1000⟩).Bounded := by
  constructor
  · intro h
    exact absurd (h ⟨.ppaPage,.fromUser,524288⟩ (by decide)) (by decide)
  · intro h
    exact absurd (h ⟨.ppaList,.fromUser,524288⟩ (by decide)) (by decide)

end Sdssd.Host
