import Mathlib.Data.List.Count
import Sdssd.Host.UserIoctl

/-!
# What a pass-through command acquires and releases

`handle_user_ppa_cmd` once more, with the request, the two DMA pages, the mapping of the user's buffer
and the block device it takes, and the labels at its end that give them back. The labels test the
arguments again, not what was acquired.
-/

namespace Sdssd.Host

/-- What the function acquires. -/
inductive CmdResource
  | request
  | ppaPage
  | metaPage
  | bioMap
  | bdev
  deriving DecidableEq, Repr

inductive CmdEvent
  | acquire (r : CmdResource)
  | release (r : CmdResource)
  | submit
  deriving DecidableEq, Repr

/-- The tests of the arguments: `ppa_buf && nlb`, `ubuf && bufflen`, `meta_buf && meta_len` and
`nvme_is_write`. -/
structure UserPpaCmd where
  ppa : Bool
  data : Bool
  metadata : Bool
  write : Bool
  deriving DecidableEq, Repr

def UserPpaCmd.of (opcode : BitVec 8) (ubuf : BitVec 64) (bufflen : Nat) (metaBuf : BitVec 64)
    (metaLen : Nat) (ppaBuf : BitVec 64) (nlb : Nat) : UserPpaCmd :=
  ⟨decide (ppaBuf ≠ 0 ∧ nlb ≠ 0),decide (ubuf ≠ 0 ∧ bufflen ≠ 0),decide (metaBuf ≠ 0 ∧ metaLen ≠ 0),
    nvmeIsWrite opcode⟩

/-- The return value, or the fault the call ends in, and what it did. -/
structure CmdRun where
  ret : Except Fault Int
  events : List CmdEvent

section Labels

variable (env : IoctlEnv) (c : UserPpaCmd)

-- The labels, in the order in which the code falls through them: `bio` tells whether the buffer is
-- mapped, `biBdev` whether `bio->bi_bdev` is set.
def errRq : List CmdEvent := [.release .request]

def errPpa : List CmdEvent := (if c.ppa then [.release .ppaPage] else []) ++ errRq

def errMap (bio biBdev : Bool) : List CmdEvent :=
  (if bio then (if env.disk && biBdev then [.release .bdev] else []) ++ [.release .bioMap] else []) ++ errPpa c

def errMeta (bio biBdev : Bool) : List CmdEvent :=
  (if c.metadata then [.release .metaPage] else []) ++ errMap env c bio biBdev

end Labels

section Traced

variable (env : IoctlEnv) (c : UserPpaCmd) (events : List CmdEvent)

/-- From the label `submit` on. -/
def tracedSubmit (bio biBdev : Bool) : CmdRun :=
  ⟨.ok env.errors,events ++ .submit :: errMeta env c bio biBdev⟩

/-- From the test of `disk` on. -/
def tracedBdev : CmdRun :=
  if !env.disk then tracedSubmit env c events true false
  else if !env.bdevOk then ⟨.ok 0,events ++ errMeta env c true false⟩
  else tracedSubmit env c (events ++ [.acquire .bdev]) true true

/-- From the metadata buffer on. -/
def tracedMetadata : CmdRun :=
  if c.metadata then
    if !env.metaPageOk then ⟨.error .nullDeref,events⟩
    else if c.write && !env.metaCopyOk then
      ⟨.ok 0,events ++ .acquire .metaPage :: errMeta env c true false⟩
    else tracedBdev env c (events ++ [.acquire .metaPage])
  else tracedBdev env c events

/-- From the data buffer on. -/
def tracedBuffers : CmdRun :=
  if c.data then
    if !env.mapOk then ⟨.ok 0,events ++ errPpa c⟩
    else tracedMetadata env c (events ++ [.acquire .bioMap])
  else tracedSubmit env c events false false

/-- `handle_user_ppa_cmd`. -/
def tracedUserPpaCmd (env : IoctlEnv) (c : UserPpaCmd) : CmdRun :=
  if !env.requestOk then ⟨.ok 0,[]⟩
  else if c.ppa then
    if !env.ppaPageOk then ⟨.error .nullDeref,[.acquire .request]⟩
    else if !env.ppaCopyOk then ⟨.ok 0,[.acquire .request,.acquire .ppaPage] ++ errPpa c⟩
    else tracedBuffers env c [.acquire .request,.acquire .ppaPage]
  else tracedBuffers env c [.acquire .request]

end Traced

section Refinement

variable {env : IoctlEnv} {c : UserPpaCmd} {events : List CmdEvent}

theorem tracedBdev_ret : (tracedBdev env c events).ret =
    if env.disk && !env.bdevOk then .ok 0 else .ok env.errors := by
  rw [tracedBdev]
  cases env.disk with
  | false => rfl
  | true => cases env.bdevOk <;> rfl

theorem tracedMetadata_ret (metaLen : Nat) (copies : List UserCopy) :
    (tracedMetadata env c events).ret = (attachMetadata env c.write c.metadata metaLen copies).ret := by
  have htail (copies : List UserCopy) (metadata : Bool) : (if env.disk && !env.bdevOk then ⟨.ok 0,copies⟩
      else submitUserPpaCmd env c.write metadata metaLen copies).ret = (tracedBdev env c events).ret := by
    rw [tracedBdev_ret,apply_ite IoctlRun.ret]
    rfl
  rw [tracedMetadata,attachMetadata]
  cases c.metadata with
  | false => exact (htail copies false).symm
  | true =>
    cases env.metaPageOk with
    | false => rfl
    | true =>
      cases hcopy : c.write && !env.metaCopyOk with
      | true => simp [hcopy]
      | false =>
        simp only [Bool.true_and,Bool.not_true,Bool.and_false,Bool.false_eq_true,if_false,if_true,hcopy]
        exact tracedBdev_ret.trans (tracedBdev_ret.symm.trans (htail _ true).symm)

/-- With the resources left out this is the function as modelled for its copies. -/
theorem tracedUserPpaCmd_ret (env : IoctlEnv) (opcode : BitVec 8) (ubuf : BitVec 64) (bufflen : Nat)
    (metaBuf : BitVec 64) (metaLen : Nat) (ppaBuf : BitVec 64) (nlb : Nat) :
    (tracedUserPpaCmd env (.of opcode ubuf bufflen metaBuf metaLen ppaBuf nlb)).ret =
      (handleUserPpaCmd env opcode ubuf bufflen metaBuf metaLen ppaBuf nlb).ret := by
  have hbuffers (events : List CmdEvent) (copies : List UserCopy) :
      (tracedBuffers env (.of opcode ubuf bufflen metaBuf metaLen ppaBuf nlb) events).ret =
        (mapUserBuffers env (nvmeIsWrite opcode) ubuf bufflen metaBuf metaLen copies).ret := by
    rw [tracedBuffers,mapUserBuffers]
    by_cases hdata : ubuf ≠ 0 ∧ bufflen ≠ 0
    · have hof : (UserPpaCmd.of opcode ubuf bufflen metaBuf metaLen ppaBuf nlb).data = true :=
        decide_eq_true hdata
      rw [if_pos hof,if_pos hdata]
      split
      · rfl
      · exact tracedMetadata_ret metaLen copies
    · have hof : ¬ (UserPpaCmd.of opcode ubuf bufflen metaBuf metaLen ppaBuf nlb).data = true :=
        fun h => hdata (of_decide_eq_true h)
      rw [if_neg hof,if_neg hdata]
      rfl
  rw [tracedUserPpaCmd,handleUserPpaCmd]
  by_cases hppa : ppaBuf ≠ 0 ∧ nlb ≠ 0
  · have hof : (UserPpaCmd.of opcode ubuf bufflen metaBuf metaLen ppaBuf nlb).ppa = true :=
      decide_eq_true hppa
    rw [if_pos hof,if_pos hppa]
    split
    · rfl
    · split
      · rfl
      · split
        · rfl
        · exact hbuffers _ _
  · have hof : ¬ (UserPpaCmd.of opcode ubuf bufflen metaBuf metaLen ppaBuf nlb).ppa = true :=
      fun h => hppa (of_decide_eq_true h)
    rw [if_neg hof,if_neg hppa]
    split
    · rfl
    · exact hbuffers _ _

end Refinement

/-- A command that was not submitted is reported, and what was acquired is released once and nothing
else. -/
structure ErrorPathsRight (run : CmdRun) : Prop where
  reported : .submit ∉ run.events → ∃ v, v ≠ 0 ∧ run.ret = .ok v
  released : ∀ r, run.events.count (.release r) = if .acquire r ∈ run.events then 1 else 0

/-- The metadata page can be had and filled. -/
def MetadataOk (env : IoctlEnv) (c : UserPpaCmd) : Prop :=
  c.metadata = true → env.metaPageOk = true ∧ (c.write = true → env.metaCopyOk = true)

/-- The user's buffer can be mapped, and what goes with it is there. -/
def BuffersOk (env : IoctlEnv) (c : UserPpaCmd) : Prop :=
  c.data = true → env.mapOk = true ∧ MetadataOk env c ∧ (env.disk = true → env.bdevOk = true)

/-- None of the calls that are reached fails. -/
def Submits (env : IoctlEnv) (c : UserPpaCmd) : Prop :=
  env.requestOk = true ∧ (c.ppa = true → env.ppaPageOk = true ∧ env.ppaCopyOk = true) ∧ BuffersOk env c

section Paths

variable {env : IoctlEnv} {c : UserPpaCmd} {events : List CmdEvent}

/-- A path that ends before the submission: nothing was submitted, and 0 is returned or nothing at all. -/
def CmdRun.Fails (run : CmdRun) : Prop := .submit ∉ run.events ∧ ∀ v, run.ret = .ok v → v = 0

theorem CmdRun.Fails.not_right {run : CmdRun} (h : run.Fails) : ¬ ErrorPathsRight run := by
  intro hright
  obtain ⟨v,hne,hret⟩ := hright.reported h.1
  exact hne (h.2 v hret)

theorem submit_notMem_errPpa : .submit ∉ errPpa c := by
  rw [errPpa]
  split <;> simp [errRq]

theorem submit_notMem_errMeta (bio biBdev : Bool) : .submit ∉ errMeta env c bio biBdev := by
  have hppa := submit_notMem_errPpa (c := c)
  rw [errMeta,errMap]
  cases c.metadata <;> cases bio <;> cases env.disk && biBdev <;> simp [hppa]

/-- Where the function jumps to a label. -/
theorem fails_of_label {labels : List CmdEvent} (hevents : .submit ∉ events) (hlabels : .submit ∉ labels) :
    CmdRun.Fails ⟨.ok 0,events ++ labels⟩ := by
  refine ⟨?_,?_⟩
  · rw [List.mem_append,not_or]
    exact ⟨hevents,hlabels⟩
  · rintro v hv
    exact (Except.ok.inj hv).symm

/-- Where a page is cleared that was not allocated. -/
theorem fails_of_fault {f : Fault} (hevents : .submit ∉ events) : CmdRun.Fails ⟨.error f,events⟩ :=
  ⟨hevents,fun v hv => by cases hv⟩

theorem tracedBdev_cases (env : IoctlEnv) (c : UserPpaCmd) (hevents : .submit ∉ events) : (env.disk = true ∧ env.bdevOk = false ∧
      (tracedBdev env c events).Fails) ∨
    ((env.disk = true → env.bdevOk = true) ∧ tracedBdev env c events = tracedSubmit env c
      (events ++ if env.disk then [.acquire .bdev] else []) true env.disk) := by
  rw [tracedBdev]
  cases hdisk : env.disk with
  | false =>
    right
    exact ⟨fun h => (by cases h),by simp⟩
  | true =>
    cases hbdev : env.bdevOk with
    | false =>
      left
      exact ⟨rfl,rfl,fails_of_label hevents (submit_notMem_errMeta true false)⟩
    | true =>
      right
      exact ⟨fun _ => rfl,rfl⟩

theorem tracedMetadata_cases (env : IoctlEnv) (c : UserPpaCmd) (hevents : .submit ∉ events) :
    (¬ MetadataOk env c ∧ (tracedMetadata env c events).Fails) ∨
    (MetadataOk env c ∧ tracedMetadata env c events =
      tracedBdev env c (events ++ if c.metadata then [.acquire .metaPage] else [])) := by
  rw [tracedMetadata,MetadataOk]
  cases hmeta : c.metadata with
  | false =>
    right
    exact ⟨fun h => (by cases h),by simp⟩
  | true =>
    cases hpage : env.metaPageOk with
    | false =>
      left
      exact ⟨fun h => (by cases (h rfl).1),fails_of_fault hevents⟩
    | true =>
      cases hcopy : c.write && !env.metaCopyOk with
      | true =>
        left
        rw [Bool.and_eq_true,Bool.not_eq_true'] at hcopy
        refine ⟨fun h => ?_,?_⟩
        · have hok := (h rfl).2 hcopy.1
          rw [hcopy.2] at hok
          cases hok
        · refine fails_of_label hevents ?_
          simp [submit_notMem_errMeta]
      | false =>
        right
        refine ⟨fun _ => ⟨rfl,fun hwrite => ?_⟩,rfl⟩
        rw [hwrite,Bool.true_and,Bool.not_eq_false'] at hcopy
        exact hcopy

/-- What is acquired with the user's buffer. -/
def bufferEvents (env : IoctlEnv) (c : UserPpaCmd) : List CmdEvent :=
  if c.data then .acquire .bioMap :: ((if c.metadata then [.acquire .metaPage] else []) ++
    if env.disk then [.acquire .bdev] else []) else []

theorem tracedBuffers_cases (env : IoctlEnv) (c : UserPpaCmd) (hevents : .submit ∉ events) :
    (¬ BuffersOk env c ∧ (tracedBuffers env c events).Fails) ∨
    (BuffersOk env c ∧ tracedBuffers env c events =
      tracedSubmit env c (events ++ bufferEvents env c) c.data (c.data && env.disk)) := by
  rw [tracedBuffers,bufferEvents,BuffersOk]
  cases hdata : c.data with
  | false =>
    right
    exact ⟨fun h => (by cases h),by simp⟩
  | true =>
    cases hmap : env.mapOk with
    | false =>
      left
      exact ⟨fun h => (by cases (h rfl).1),fails_of_label hevents submit_notMem_errPpa⟩
    | true =>
      have hmapped : .submit ∉ events ++ [.acquire .bioMap] := by simp [hevents]
      have hpaged : .submit ∉ (events ++ [.acquire .bioMap]) ++
          if c.metadata then [.acquire .metaPage] else [] := by
        split <;> simp [hevents]
      rcases tracedMetadata_cases env c hmapped with ⟨hno,hfails⟩ | ⟨hmeta,heq⟩
      · left
        exact ⟨fun h => hno (h rfl).2.1,hfails⟩
      · rw [heq]
        rcases tracedBdev_cases env c hpaged with ⟨hdisk,hbdev,hfails⟩ | ⟨hbdev,heq'⟩
        · left
          refine ⟨fun h => ?_,?_⟩
          · have hok := (h rfl).2.2 hdisk
            rw [hbdev] at hok
            cases hok
          · exact hfails
        · right
          refine ⟨fun _ => ⟨rfl,hmeta,hbdev⟩,?_⟩
          show tracedBdev env c _ = _
          rw [heq']
          simp

/-- The events of a command that is submitted. -/
def submittedEvents (env : IoctlEnv) (c : UserPpaCmd) : List CmdEvent :=
  .acquire .request :: ((if c.ppa then [.acquire .ppaPage] else []) ++ bufferEvents env c) ++
    .submit :: errMeta env c c.data (c.data && env.disk)

theorem tracedUserPpaCmd_cases (env : IoctlEnv) (c : UserPpaCmd) :
    (¬ Submits env c ∧ (tracedUserPpaCmd env c).Fails) ∨
      (Submits env c ∧ tracedUserPpaCmd env c = ⟨.ok env.errors,submittedEvents env c⟩) := by
  rw [tracedUserPpaCmd,Submits,submittedEvents]
  cases hreq : env.requestOk with
  | false =>
    left
    exact ⟨fun h => (by cases h.1),fails_of_label List.not_mem_nil List.not_mem_nil⟩
  | true =>
    cases hppa : c.ppa with
    | false =>
      have hevents : .submit ∉ [CmdEvent.acquire .request] := by simp
      rcases tracedBuffers_cases env c hevents with ⟨hno,hfails⟩ | ⟨hok,heq⟩
      · left
        exact ⟨fun h => hno h.2.2,hfails⟩
      · right
        exact ⟨⟨rfl,fun h => (by cases h),hok⟩,heq⟩
    | true =>
      cases hpage : env.ppaPageOk with
      | false =>
        left
        exact ⟨fun h => (by cases (h.2.1 rfl).1),fails_of_fault (by simp)⟩
      | true =>
        cases hcopy : env.ppaCopyOk with
        | false =>
          left
          exact ⟨fun h => (by cases (h.2.1 rfl).2),fails_of_label (by simp) submit_notMem_errPpa⟩
        | true =>
          have hevents : .submit ∉ [CmdEvent.acquire .request,.acquire .ppaPage] := by simp
          rcases tracedBuffers_cases env c hevents with ⟨hno,hfails⟩ | ⟨hok,heq⟩
          · left
            exact ⟨fun h => hno h.2.2,hfails⟩
          · right
            exact ⟨⟨rfl,fun _ => ⟨rfl,rfl⟩,hok⟩,heq⟩

/-- What a command holds when it is submitted. -/
def held (env : IoctlEnv) (c : UserPpaCmd) : List CmdResource :=
  .request :: ((if c.ppa then [.ppaPage] else []) ++ if c.data then
    .bioMap :: ((if c.metadata then [.metaPage] else []) ++ if env.disk then [.bdev] else []) else [])

/-- What the labels give back behind the submission. -/
def givenBack (env : IoctlEnv) (c : UserPpaCmd) : List CmdResource :=
  (if c.metadata then [.metaPage] else []) ++
    ((if c.data then (if env.disk then [.bdev] else []) ++ [.bioMap] else []) ++
      ((if c.ppa then [.ppaPage] else []) ++ [.request]))

theorem submittedEvents_eq (env : IoctlEnv) (c : UserPpaCmd) :
    submittedEvents env c = (held env c).map .acquire ++ .submit :: (givenBack env c).map .release := by
  rw [submittedEvents,bufferEvents,errMeta,errMap,errPpa,errRq,held,givenBack]
  cases c.ppa <;> cases c.data <;> cases c.metadata <;> cases env.disk <;> rfl

theorem held_nodup (env : IoctlEnv) (c : UserPpaCmd) : (held env c).Nodup := by
  rw [held]
  cases c.ppa <;> cases c.data <;> cases c.metadata <;> cases env.disk <;> decide

/-- The labels give back what is held, but the metadata page also where there was no buffer to map and
none was acquired. -/
theorem givenBack_perm_iff (env : IoctlEnv) (c : UserPpaCmd) :
    (givenBack env c).Perm (held env c) ↔ (c.metadata = true → c.data = true) := by
  rw [held,givenBack]
  cases c.ppa <;> cases c.data <;> cases c.metadata <;> cases env.disk <;> decide

theorem acquire_mem_submittedEvents {r : CmdResource} :
    .acquire r ∈ submittedEvents env c ↔ r ∈ held env c := by
  simp [submittedEvents_eq]

theorem count_release_submittedEvents (r : CmdResource) :
    (submittedEvents env c).count (.release r) = (givenBack env c).count r := by
  have hinj : Function.Injective CmdEvent.release := fun _ _ h => CmdEvent.release.inj h
  have hnone : ((held env c).map CmdEvent.acquire).count (.release r) = 0 :=
    List.count_eq_zero_of_not_mem (by simp)
  rw [submittedEvents_eq,List.count_append,hnone,Nat.zero_add,List.count_cons_of_ne (by simp),
    List.count_map_of_injective _ _ hinj]

/-- On the way through a submission everything is released once where the labels give back what is
held. -/
theorem submittedEvents_right (env : IoctlEnv) (c : UserPpaCmd) :
    ErrorPathsRight ⟨.ok env.errors,submittedEvents env c⟩ ↔ (c.metadata = true → c.data = true) := by
  rw [← givenBack_perm_iff env c,List.perm_iff_count]
  constructor
  · intro h r
    have hr := h.released r
    rw [count_release_submittedEvents] at hr
    rw [hr,(held_nodup env c).count]
    simp only [acquire_mem_submittedEvents]
  · intro h
    refine ⟨fun hnot => absurd ?_ hnot,?_⟩
    · rw [submittedEvents_eq]
      exact List.mem_append_right _ List.mem_cons_self
    · intro r
      show (submittedEvents env c).count (.release r) = if .acquire r ∈ submittedEvents env c then 1 else 0
      rw [count_release_submittedEvents,h r,(held_nodup env c).count]
      simp only [acquire_mem_submittedEvents]

/-- A command that was not submitted returns 0 or faults, so the error paths are right exactly where no
error occurs, and no metadata buffer is passed without a data buffer. -/
theorem user_passthrough_error_paths_iff (env : IoctlEnv) (opcode : BitVec 8) (ubuf : BitVec 64)
    (bufflen : Nat) (metaBuf : BitVec 64) (metaLen : Nat) (ppaBuf : BitVec 64) (nlb : Nat) :
    ErrorPathsRight (tracedUserPpaCmd env (.of opcode ubuf bufflen metaBuf metaLen ppaBuf nlb)) ↔
      Submits env (.of opcode ubuf bufflen metaBuf metaLen ppaBuf nlb) ∧
        (metaBuf ≠ 0 ∧ metaLen ≠ 0 → ubuf ≠ 0 ∧ bufflen ≠ 0) := by
  have hargs : ((UserPpaCmd.of opcode ubuf bufflen metaBuf metaLen ppaBuf nlb).metadata = true →
      (UserPpaCmd.of opcode ubuf bufflen metaBuf metaLen ppaBuf nlb).data = true) ↔
      (metaBuf ≠ 0 ∧ metaLen ≠ 0 → ubuf ≠ 0 ∧ bufflen ≠ 0) := by
    simp only [UserPpaCmd.of,decide_eq_true_eq]
  rcases tracedUserPpaCmd_cases env (.of opcode ubuf bufflen metaBuf metaLen ppaBuf nlb) with
    ⟨hno,hfails⟩ | ⟨hsubmits,hrun⟩
  · exact iff_of_false hfails.not_right fun h => hno h.1
  · rw [hrun,submittedEvents_right,hargs,and_iff_right hsubmits]

/-- A list of pages that cannot be read: the command is not submitted, and the caller gets 0. A metadata
buffer alone: the page freed was never allocated. -/
theorem user_passthrough_error_lost :
    (tracedUserPpaCmd { IoctlEnv.smooth with ppaCopyOk := false } (.of 0x91 0x1000 8192 0 0 0x2000 1) =
        ⟨.ok 0,[.acquire .request,.acquire .ppaPage,.release .ppaPage,.release .request]⟩ ∧
      ¬ ErrorPathsRight
        (tracedUserPpaCmd { IoctlEnv.smooth with ppaCopyOk := false } (.of 0x91 0x1000 8192 0 0 0x2000 1))) ∧
    (tracedUserPpaCmd .smooth (.of 0x91 0 8192 0x3000 32 0 1) =
        ⟨.ok 0,[.acquire .request,.submit,.release .metaPage,.release .request]⟩ ∧
      ¬ ErrorPathsRight (tracedUserPpaCmd .smooth (.of 0x91 0 8192 0x3000 32 0 1))) := by
  refine ⟨⟨rfl,?_⟩,⟨rfl,?_⟩⟩
  · intro h
    obtain ⟨v,hne,hret⟩ := h.reported (by decide)
    exact hne (Except.ok.inj hret).symm
  · intro h
    exact absurd (h.released .metaPage) (by decide)

end Paths

end Sdssd.Host
