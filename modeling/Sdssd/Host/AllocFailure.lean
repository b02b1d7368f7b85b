import Sdssd.Host.AllocSpec
import Mathlib.Logic.Relation

/-!
# Allocations that cannot be served

`process_write_bio` asks `wcb_available` before it calls `alloc_wcb_core` and ignores the return value
of the latter. Which requests pass the guard although they cannot be served, and what the allocator
does when it runs out of empty entities.
-/

namespace Sdssd.Host

open Framework

variable {α : Type}

section Guard

variable {f : Ftl α} {e n : Nat} {q pool : List Nat}

theorem wcbAvailable_true_iff (hr : Ready f e q) (hn : n < 2^15) :
    wcbAvailable f n = .ok true ↔ q ≠ [] ∨ (f.ent e).pos + n + n / 4 + 2 < raidLunSecNum := by
  rw [wcbAvailable_eq hr hn,Except.ok.injEq]
  by_cases hq : q = []
  · simp only [hq,decide_true,Bool.and_true,Bool.not_eq_true',decide_eq_false_iff_not,ne_eq,
      not_true_eq_false,false_or,Nat.not_le]
  · simp [hq]

/-- The guard is wrong about exactly those requests that use up two entities when one is empty. -/
theorem wcb_available_sound_iff (slba : Nat) (hr : Ready f e q) (hpool : Pool f.sys pool) (h1 : 1 ≤ n)
    (hn : n ≤ 256) :
    (wcbAvailable f n = .ok true → ∃ r, allocWcbCore f slba n = .ok r ∧ r.ret = 0) ↔
      ¬ (f.wcb.emptyLun.size = 1 ∧ 2 * raidLunSecNum ≤ (f.ent e).pos + n) := by
  have hpos := hr.pos
  have hcap : ((f.ent e).pos + n + (raidLunSecNum - 1)) / raidLunSecNum ≤ maxUsedWcbEntitys := by
    simp only [raidLunSecNum_eq,maxUsedWcbEntitys_eq] at hpos ⊢
    omega
  rw [allocWcbCore_returns_iff slba hr hpool h1 hcap,wcbAvailable_true_iff hr (by omega),hr.queue.size]
  simp only [raidLunSecNum_eq] at hpos ⊢
  rw [← List.length_pos_iff]
  omega

end Guard

/-- Entity 0 is open at its first slot and entity 1 is the only empty one. -/
def oneEmpty : Ftl Nat :=
  let r := Fifo.init.push (fun _ => ⟨noIndex,noIndex⟩) 1
  ⟨⟨fun _ => ⟨0,0,0,0,fun _ => none,fun _ => 0,fun _ => 0,0,0,0⟩,r.2,r.1,Fifo.init,some 0,0⟩,sysTblInit,
    l2pTblInit⟩

theorem ready_oneEmpty : Ready oneEmpty 0 [1] := by
  have hone := (Fifo.holds_init fun _ => ⟨noIndex,noIndex⟩).push (i := 1) (by simp) (by decide)
  exact ⟨rfl,by decide,hone,by decide⟩

/-- A request for 255 pages ends in the second entity. -/
theorem wcb_available_sound_iff_served : wcbAvailable oneEmpty 255 = .ok true ∧
    ∃ r, allocWcbCore oneEmpty 0 255 = .ok r ∧ r.ret = 0 := by
  have hav : wcbAvailable oneEmpty 255 = .ok true := rfl
  have hiff := wcb_available_sound_iff (n := 255) 0 ready_oneEmpty pool_init (by decide) (by decide)
  exact ⟨hav,hiff.mpr (by decide) hav⟩

/-- One of 256 pages uses up both entities. -/
theorem wcb_available_unsound : wcbAvailable oneEmpty 256 = .ok true ∧
    ¬ ∃ r, allocWcbCore oneEmpty 0 256 = .ok r ∧ r.ret = 0 := by
  refine ⟨rfl,?_⟩
  rw [allocWcbCore_returns_iff 0 ready_oneEmpty pool_init (by decide) (by decide)]
  decide

/-! ### Running out of empty entities -/

/-- The variables with which the loop of `alloc_wcb_core` starts. -/
def allocStart (f : Ftl α) (e slba n : Nat) : AllocVars α :=
  ⟨f,e,(f.ent e).baddr + BitVec.ofNat 32 (f.ent e).pos,slba,n % 2^32,[],⟨e,(f.ent e).pos,(f.ent e).pos⟩⟩

/-- One pass after which the loop goes on. -/
def AllocVars.Next (v w : AllocVars α) : Prop := allocBody v = .ok (.inl w)

/-- A pass of the call uses up its entity and finds `empty_lun` empty. -/
def RunsOut (f : Ftl α) (slba n : Nat) : Prop :=
  ∃ e v, f.wcb.partialEntity = some e ∧ Relation.ReflTransGen AllocVars.Next (allocStart f e slba n) v ∧
    (v.ftl.ent v.entity).pos + 1 = raidLunSecNum ∧ v.ftl.wcb.emptyLun.pull v.ftl.wcb.link = none

/-- The call returns 1 and everything it touched is as it was before. -/
def FailsCleanly (f : Ftl α) (slba n : Nat) : Prop :=
  ∃ r, allocWcbCore f slba n = .ok r ∧ r.ret = 1 ∧
    r.ftl.wcb.partialEntity = f.wcb.partialEntity ∧
    (∀ e, f.wcb.partialEntity = some e → (r.ftl.ent e).pos = (f.ent e).pos) ∧
    r.ftl.wcb.emptyLun.toList r.ftl.wcb.link = f.wcb.emptyLun.toList f.wcb.link ∧
    r.ftl.sys.freeBlkPool.toList r.ftl.sys.link = f.sys.freeBlkPool.toList f.sys.link ∧
    ∀ b, (r.ftl.sys.bmitbl b).bmstate = (f.sys.bmitbl b).bmstate

theorem allocWcbCore_eq_loop {f : Ftl α} {e : Nat} (he : f.wcb.partialEntity = some e) (slba n : Nat) :
    allocWcbCore f slba n = allocLoop (2^32) (allocStart f e slba n) := by
  rw [allocWcbCore,he]
  rfl

/-- A pass that goes on has counted one page, and it was not the last one. -/
theorem AllocVars.Next.leftLen {v w : AllocVars α} (h : v.Next w) :
    w.leftLen = u32Dec v.leftLen ∧ w.leftLen ≠ 0 := by
  unfold AllocVars.Next allocBody at h
  simp only [sysGetPpaType] at h
  by_cases hp : (v.ftl.ent v.entity).pos + 1 = raidLunSecNum
  · rw [if_pos hp] at h
    cases hn : getNextLunEntity (v.ftl.writeSlot v.entity v.slba v.curppa) v.curppa with
    | error x => simp [hn,Except.bind] at h
    | ok r =>
      obtain ⟨e,q,ln,baddr,sys,-,-,hr1,-⟩ := getNextLunEntity_some hn
      obtain ⟨r1,r2⟩ := r
      simp only at hr1
      subst hr1
      simp only [hn,Except.bind] at h
      split_ifs at h with hleft hctx
      · cases h
      · cases h
        exact ⟨rfl,hleft⟩
  · rw [if_neg hp] at h
    split_ifs at h with hleft
    · cases h
    · cases h
      exact ⟨rfl,hleft⟩

/-- The pages still to come count the passes down. -/
private theorem allotCount_u32Dec {m : Nat} (hm : m < 2^32) (h : u32Dec m ≠ 0) :
    u32Dec m < 2^32 ∧ allotCount (u32Dec m) + 1 = allotCount m := by
  unfold u32Dec allotCount at *
  split_ifs at * <;> omega

/-- The loop, seen from any pass it reaches: the fuel it has left covers the pages still to come. -/
theorem allocLoop_reaches {v w : AllocVars α} (hv : v.leftLen < 2^32) (d : Nat)
    (h : Relation.ReflTransGen AllocVars.Next v w) :
    w.leftLen < 2^32 ∧ allocLoop (allotCount v.leftLen + d) v = allocLoop (allotCount w.leftLen + d) w := by
  induction h with
  | refl => exact ⟨hv,rfl⟩
  | @tail u w _ hnext ih =>
    obtain ⟨hu,hloop⟩ := ih
    obtain ⟨hleft,hne⟩ := hnext.leftLen
    obtain ⟨hlt,hcount⟩ := allotCount_u32Dec hu (hleft ▸ hne)
    rw [← hleft] at hlt hcount
    refine ⟨hlt,?_⟩
    rw [hloop,← hcount,Nat.add_right_comm,allocLoop,show allocBody u = .ok (.inl w) from hnext]
    rfl

/-- The pass that finds no empty entity ends in the debug print. -/
theorem allocBody_of_pull_none {v : AllocVars α} (hpos : (v.ftl.ent v.entity).pos + 1 = raidLunSecNum)
    (hpull : v.ftl.wcb.emptyLun.pull v.ftl.wcb.link = none) : allocBody v = .error .nullDeref := by
  have hnext : getNextLunEntity (v.ftl.writeSlot v.entity v.slba v.curppa) v.curppa =
      .error .nullDeref := by
    rw [getNextLunEntity,pullLunEntityFromFifo,
      show (v.ftl.writeSlot v.entity v.slba v.curppa).wcb.emptyLun = v.ftl.wcb.emptyLun from rfl,
      show (v.ftl.writeSlot v.entity v.slba v.curppa).wcb.link = v.ftl.wcb.link from rfl,hpull]
    rfl
  simp only [allocBody,sysGetPpaType,hpos,if_true,hnext]
  rfl

theorem allocWcbCore_of_runsOut {f : Ftl α} {slba n : Nat} (h : RunsOut f slba n) :
    allocWcbCore f slba n = .error .nullDeref := by
  obtain ⟨e,v,he,hreach,hpos,hpull⟩ := h
  have hlt : (allocStart f e slba n).leftLen < 2^32 := Nat.mod_lt _ (by decide)
  have hcount : allotCount (allocStart f e slba n).leftLen ≤ 2^32 := by
    unfold allotCount
    split_ifs <;> omega
  obtain ⟨d,hd⟩ := Nat.le.dest hcount
  obtain ⟨-,hloop⟩ := allocLoop_reaches hlt d hreach
  have hfuel : ∃ k, allotCount v.leftLen + d = k + 1 := by
    refine ⟨allotCount v.leftLen + d - 1,?_⟩
    unfold allotCount
    split_ifs <;> omega
  obtain ⟨k,hk⟩ := hfuel
  rw [allocWcbCore_eq_loop he,← hd,hloop,hk,allocLoop,allocBody_of_pull_none hpos hpull]
  rfl

section Short

/-- A pass that can go on does, and stays in step with the tables. -/
private theorem next_of_allot {v : AllocVars α} {qs pool : List Nat} (hs : v.Sync)
    (hr : Ready v.ftl v.entity qs) (hpool : Pool v.ftl.sys pool) (hleft : 2 ≤ v.leftLen)
    (hq : (v.ftl.ent v.entity).pos + 1 = raidLunSecNum → qs ≠ [] ∧ v.done.length + 1 < maxUsedWcbEntitys) :
    ∃ w qs' pool', v.Next w ∧ w.Sync ∧ Ready w.ftl w.entity qs' ∧ Pool w.ftl.sys pool' ∧
      w.leftLen + 1 = v.leftLen ∧ w.done.length + qs'.length ≤ v.done.length + qs.length ∧
      raidLunSecNum * (qs'.length + 1) + (v.ftl.ent v.entity).pos + 1 =
        raidLunSecNum * (qs.length + 1) + (w.ftl.ent w.entity).pos := by
  obtain ⟨f,hpage,pool',hpool'⟩ := allotPage_progress v.slba hr hpool fun hl => (hq hl).1
  obtain ⟨-,hcase⟩ := allotPage_ok hs.isPart hpage
  obtain ⟨-,e',qs',hall⟩ := allotPage_cases hr hpage
  have hready := hall.ready hr
  have hdec : u32Dec v.leftLen + 1 = v.leftLen := by
    unfold u32Dec
    rw [if_neg (by omega)]
    omega
  have hbody := allocBody_eq hs
  rw [hpage] at hbody
  simp only [Except.bind,AllocVars.left',if_neg (show ¬ u32Dec v.leftLen = 0 by omega)] at hbody
  by_cases hl : (v.ftl.ent v.entity).pos + 1 = raidLunSecNum
  · obtain ⟨hne,hctx⟩ := hq hl
    rw [if_pos hl] at hcase
    rw [if_pos hl,if_neg (by omega)] at hbody
    obtain ⟨x,hnext⟩ := hcase
    obtain ⟨hsync,-,hzero⟩ := fresh_sync hs hnext
    have hent : (v.fresh f).entity = e' := Option.some.inj (hsync.isPart.symm.trans hready.isPart)
    have hlen : qs.length = qs'.length + 1 := by
      cases hall with
      | room hpos => omega
      | last hpos hcons hbaddr hqueue hlink => rw [hcons,List.length_cons]
    refine ⟨v.fresh f,qs',pool',hbody,hsync,hent ▸ hready,hpool',hdec,?_,?_⟩
    · simp only [AllocVars.fresh,List.length_append,List.length_singleton]
      omega
    · rw [show ((v.fresh f).ftl.ent (v.fresh f).entity).pos = 0 from hzero]
      simp only [raidLunSecNum_eq] at hl ⊢
      omega
  · rw [if_neg hl] at hcase
    rw [if_neg hl] at hbody
    rw [← hs.curppa] at hcase
    obtain ⟨hsync,-⟩ := same_sync hs hcase
    have hent : (v.same f).entity = e' := Option.some.inj (hsync.isPart.symm.trans hready.isPart)
    have hlen : qs.length = qs'.length := by
      cases hall with
      | room hpos => rfl
      | last hpos hcons hbaddr hqueue hlink => exact absurd hpos hl
    have hpos : ((v.same f).ftl.ent (v.same f).entity).pos = (v.ftl.ent v.entity).pos + 1 := by
      simp only [AllocVars.same,hcase,ent_writeSlot_self]
    refine ⟨v.same f,qs',pool',hbody,hsync,hent ▸ hready,hpool',hdec,?_,?_⟩
    · simp only [AllocVars.same]
      omega
    · rw [hpos,hlen]
      omega

/-- A request that needs more entities than are empty gets as far as the last one. -/
private theorem runs_out (k : Nat) {v : AllocVars α} {qs pool : List Nat} (hs : v.Sync)
    (hr : Ready v.ftl v.entity qs) (hpool : Pool v.ftl.sys pool)
    (hctx : v.done.length + qs.length < maxUsedWcbEntitys)
    (hk : (v.ftl.ent v.entity).pos + k + 1 = raidLunSecNum * (qs.length + 1)) (hleft : k + 1 ≤ v.leftLen) :
    ∃ w, Relation.ReflTransGen AllocVars.Next v w ∧ (w.ftl.ent w.entity).pos + 1 = raidLunSecNum ∧
      w.ftl.wcb.emptyLun.pull w.ftl.wcb.link = none := by
  induction k generalizing v qs pool with
  | zero =>
    have hpos := hr.pos
    have hnil : qs = [] := by
      rw [← List.length_eq_zero_iff]
      simp only [raidLunSecNum_eq] at hk hpos
      omega
    subst hnil
    exact ⟨v,.refl,by simpa using hk,(Fifo.pull_eq_none_iff hr.queue).mpr rfl⟩
  | succ k ih =>
    have hmore (hl : (v.ftl.ent v.entity).pos + 1 = raidLunSecNum) :
        qs ≠ [] ∧ v.done.length + 1 < maxUsedWcbEntitys := by
      have hlen : 0 < qs.length := by
        simp only [raidLunSecNum_eq] at hk hl
        omega
      exact ⟨List.length_pos_iff.mp hlen,by omega⟩
    obtain ⟨u,qs',pool',hnext,hsync,hready,hpool',hlen,hctx',hpos⟩ :=
      next_of_allot hs hr hpool (by omega) hmore
    obtain ⟨w,hreach,hend⟩ := ih hsync hready hpool' (by omega) (by omega) (by omega)
    exact ⟨w,.head hnext hreach,hend⟩

variable {f : Ftl α} {e n : Nat} {q pool : List Nat}

/-- With at most two empty entities a request that uses up one more runs out of them. -/
theorem runsOut_of_short (slba : Nat) (hr : Ready f e q) (hpool : Pool f.sys pool) (hn : n < 2^32)
    (hq : q.length < maxUsedWcbEntitys) (hshort : q.length < ((f.ent e).pos + n) / raidLunSecNum) :
    RunsOut f slba n := by
  have hpos := hr.pos
  have hmod : n % 2^32 = n := Nat.mod_eq_of_lt hn
  have hsync : (allocStart f e slba n).Sync := ⟨hr.isPart,rfl,rfl,Nat.le_refl _⟩
  obtain ⟨v,hreach,hend⟩ := runs_out (raidLunSecNum * (q.length + 1) - (f.ent e).pos - 1) hsync hr hpool
    (by simpa [allocStart] using hq)
    (by simp only [allocStart,raidLunSecNum_eq] at hpos ⊢; omega)
    (by simp only [allocStart,hmod,raidLunSecNum_eq] at hpos hshort ⊢; omega)
  exact ⟨e,v,hr.isPart,hreach,hend⟩

end Short

/-- Whenever the empty entities run out, from whatever state and for whatever request, the debug print
reads the partial entity that has just been set to NULL: the call does not return, let alone undo what
it did. -/
theorem failed_allocation_never_clean {f : Ftl α} {slba n : Nat} (h : RunsOut f slba n) :
    allocWcbCore f slba n = .error .nullDeref ∧ ¬ FailsCleanly f slba n := by
  have hfault := allocWcbCore_of_runsOut h
  refine ⟨hfault,?_⟩
  rintro ⟨r,hcall,-⟩
  rw [hfault] at hcall
  cases hcall

/-- The request for 256 pages with one empty entity. -/
theorem failed_allocation_never_clean_256 : RunsOut oneEmpty 0 256 ∧ ¬ FailsCleanly oneEmpty 0 256 := by
  have hout : RunsOut oneEmpty 0 256 :=
    runsOut_of_short 0 ready_oneEmpty pool_init (by decide) (by decide) (by decide)
  exact ⟨hout,(failed_allocation_never_clean hout).2⟩

/-- Two empty entities are not enough for 284 pages from slot 100 on. -/
theorem failed_allocation_not_clean : RunsOut twoEmpty 0 284 ∧ ¬ FailsCleanly twoEmpty 0 284 := by
  have hout : RunsOut twoEmpty 0 284 :=
    runsOut_of_short 0 ready_twoEmpty pool_init (by decide) (by decide) (by decide)
  refine ⟨hout,?_⟩
  rintro ⟨r,hcall,-⟩
  rw [allocWcbCore_of_runsOut hout] at hcall
  cases hcall

end Sdssd.Host
