import Sdssd.Host.BbtBarrier

/-!
# The free pool that the bad-block scan leaves

`rblk_bbt_check_available` is modelled here with its early exit and its two counters, and the scan
with the counters beside it. When the handlers of a block have looked at all its reads before the
block is judged, the table holds exactly the markers, and the pool exactly the blocks without a LUN of
more than 12 bad channels.
-/

namespace Sdssd.Host

open Framework

/-- `good_rblk_cnt` and `bad_rblk_cnt`. -/
structure RblkCnt where
  good : Nat
  bad : Nat
  deriving DecidableEq, Repr

/-- The loop over the channels of a LUN, from `bb_ch` on; the result is whether the block is kicked
out. -/
def kickOut (bb bbCh : Nat) : List Nat → Bool
  | [] => false
  | ch :: chs =>
    let bbCh := if bb.testBit ch then bbCh + 1 else bbCh
    if 12 < bbCh then true else kickOut bb bbCh chs

/-- `rblk_bbt_check_available` with the counters. -/
def rblkBbtCheckCounted (t : SysTbl) (cnt : RblkCnt) (blk : Nat) : Except Fault (SysTbl × RblkCnt) := do
  let bmi ← getBmiItem blk
  if (List.range cfgNandLunNum).any fun lun =>
      kickOut ((t.bmitbl bmi).bbt lun) 0 (List.range cfgNandChannelNum) then
    return (t,{ cnt with bad := cnt.bad + 1 })
  let t ← insertBlkToFreeList t blk
  return (t,{ cnt with good := cnt.good + 1 })

/-- The test inside the loop decides as one test behind it would. -/
theorem kickOut_eq {bb bbCh : Nat} {chs : List Nat} (h : bbCh ≤ 12) :
    kickOut bb bbCh chs = decide (12 < bbCh + (chs.filter fun ch => bb.testBit ch).length) := by
  induction chs generalizing bbCh with
  | nil => simp [kickOut,Nat.not_lt.mpr h]
  | cons ch chs ih =>
    unfold kickOut
    by_cases hbit : bb.testBit ch = true
    · simp only [hbit,if_true,List.filter_cons_of_pos,List.length_cons]
      by_cases hkick : 12 < bbCh + 1
      · rw [if_pos hkick,decide_eq_true]
        omega
      · rw [if_neg hkick,ih (Nat.not_lt.mp hkick)]
        congr 1
        rw [Nat.add_assoc,Nat.add_comm 1]
    · rw [if_neg hbit,if_neg (Nat.not_lt.mpr h),ih h,List.filter_cons_of_neg (by simpa using hbit)]

/-- More than 12 channels of some LUN are marked bad. -/
def SysTbl.kicked (t : SysTbl) (blk : Nat) : Bool :=
  (List.range cfgNandLunNum).any fun lun => decide
    (12 < ((List.range cfgNandChannelNum).filter fun ch => ((t.bmitbl blk).bbt lun).testBit ch).length)

def RblkCnt.judge (cnt : RblkCnt) (kicked : Bool) : RblkCnt :=
  if kicked then { cnt with bad := cnt.bad + 1 } else { cnt with good := cnt.good + 1 }

theorem rblkBbtCheckCounted_eq {t : SysTbl} {cnt : RblkCnt} {blk : Nat} (hblk : blk < cfgNandBlockNum) :
    rblkBbtCheckCounted t cnt blk = if t.kicked blk then .ok (t,cnt.judge true)
      else (insertBlkToFreeList t blk).map fun t => (t,cnt.judge false) := by
  have hany : ((List.range cfgNandLunNum).any fun lun =>
      kickOut ((t.bmitbl blk).bbt lun) 0 (List.range cfgNandChannelNum)) = t.kicked blk := by
    unfold SysTbl.kicked
    congr 1
    funext lun
    rw [kickOut_eq (Nat.zero_le 12),Nat.zero_add]
  simp only [rblkBbtCheckCounted,getBmiItem_of_lt hblk,bind,Except.bind,hany]
  cases t.kicked blk with
  | true => rfl
  | false => cases insertBlkToFreeList t blk <;> rfl

/-- The counters apart, this is the check of `fscftlBbtDiscovery`. -/
theorem rblkBbtCheckCounted_fst {t : SysTbl} {cnt : RblkCnt} {blk : Nat} (hblk : blk < cfgNandBlockNum) :
    (rblkBbtCheckCounted t cnt blk).map Prod.fst = rblkBbtCheckAvailable t blk := by
  rw [rblkBbtCheckCounted_eq hblk]
  have havail : rblkBbtCheckAvailable t blk =
      if t.kicked blk then .ok t else insertBlkToFreeList t blk := by
    simp only [rblkBbtCheckAvailable,getBmiItem_of_lt hblk,bind,Except.bind]
    rfl
  rw [havail]
  cases t.kicked blk with
  | true => rfl
  | false => cases insertBlkToFreeList t blk <;> rfl

theorem insertBlkToFreeList_bmitbl {t t' : SysTbl} {blk : Nat} (hblk : blk < cfgNandBlockNum)
    (h : insertBlkToFreeList t blk = .ok t') :
    t'.bmitbl = Function.update t.bmitbl blk { t.bmitbl blk with bmstate := .free } := by
  simp only [insertBlkToFreeList,getBmiItem_of_lt hblk,bind,Except.bind] at h
  cases hpush : pushBlkToPool t blk with
  | error e => simp [hpush] at h
  | ok t₁ =>
    simp only [hpush] at h
    cases h
    rw [SysTbl.setState,pushBlkToPool_bmitbl hpush]

/-- A judged block enters the pool last unless it is kicked out, and is counted. -/
theorem rblkBbtCheckCounted_pool {t : SysTbl} (cnt : RblkCnt) {blk : Nat} {l : List Nat} (h : Pool t l)
    (hblk : blk < cfgNandBlockNum) (hl : blk ∉ l) :
    ∃ t', rblkBbtCheckCounted t cnt blk = .ok (t',cnt.judge (t.kicked blk)) ∧
      Pool t' (l ++ [blk].filter fun b => !t.kicked b) ∧
      (∀ b, (t'.bmitbl b).bbt = (t.bmitbl b).bbt) ∧
      ((∀ b, (t.bmitbl b).bmstate = .free) → ∀ b, (t'.bmitbl b).bmstate = .free) := by
  rw [rblkBbtCheckCounted_eq hblk]
  cases hkick : t.kicked blk with
  | true =>
    refine ⟨t,rfl,?_,fun _ => rfl,id⟩
    simpa [hkick] using h
  | false =>
    obtain ⟨t',ht,hp,hbbt⟩ := insertBlkToFreeList_pool h hblk hl
    refine ⟨t',?_,?_,hbbt,?_⟩
    · rw [ht]
      rfl
    · simpa [hkick] using hp
    · intro hfree b
      rw [insertBlkToFreeList_bmitbl hblk ht]
      by_cases hb : b = blk
      · rw [hb,Function.update_self]
      · rw [Function.update_of_ne hb]
        exact hfree b

/-- The scan with the counters of `rblk_bbt_check_available`. -/
structure PoolScan where
  scan : BbtScan
  cnt : RblkCnt

/-- The tables are fresh and the static counters are 0. -/
def PoolScan.init : PoolScan := ⟨BbtScan.init sysTblInit,0,0⟩

def PoolScan.step (raw : RawBytes) (s : PoolScan) : ScanLabel → Option PoolScan
  | .check => match s.scan.pc with
    | .checking blk => (rblkBbtCheckCounted s.scan.sys s.cnt blk).toOption.map fun r =>
        ⟨{ s.scan with pc := .next, sys := r.1 },r.2⟩
    | _ => none
  | l => (s.scan.step raw l).map fun u => ⟨u,s.cnt⟩

/-- `fscftl_bbt_discovery` is behind its loop over the blocks. -/
def PoolScan.Finished (s : PoolScan) : Prop := s.scan.pc = .next ∧ s.scan.todo = []

/-- A block is judged after the handlers have looked at all its raw reads. -/
def readsFirst (s : PoolScan) : ScanLabel → Prop
  | .check => ∀ blk, s.scan.pc = .checking blk → ∀ k < rblkReads, (s.scan.reads (blk,k)).Seen
  | _ => True

/-- What one step does to the counters. -/
inductive PoolEffect (raw : RawBytes) (s : PoolScan) : ScanLabel → PoolScan → Prop
  | other {l : ScanLabel} {u : BbtScan} (hl : l ≠ .check) (heff : ScanEffect raw s.scan l u) :
      PoolEffect raw s l ⟨u,s.cnt⟩
  | check {blk : Nat} {t : SysTbl} {cnt : RblkCnt} (hpc : s.scan.pc = .checking blk)
      (hcheck : rblkBbtCheckCounted s.scan.sys s.cnt blk = .ok (t,cnt)) :
      PoolEffect raw s .check ⟨{ s.scan with pc := .next, sys := t },cnt⟩

theorem Marked.blk_lt {raw : RawBytes} {s : BbtScan} (h : Marked raw s) {blk : Nat}
    (hpc : s.pc.block = some blk) : blk < cfgNandBlockNum := by
  apply h.lt blk
  rw [hpc]
  exact List.mem_cons_self

section Step

variable {raw : RawBytes} {s s' : PoolScan} {l : ScanLabel}

theorem step_poolEffect (h : s.step raw l = some s') : PoolEffect raw s l s' := by
  by_cases hl : l = .check
  · subst hl
    simp only [PoolScan.step] at h
    split at h
    case h_1 hpc =>
      obtain ⟨r,hr,rfl⟩ := Option.map_eq_some_iff.mp h
      exact .check hpc (toOption_eq_some hr)
    case h_2 => cases h
  · have hstep : s.step raw l = (s.scan.step raw l).map fun u => ⟨u,s.cnt⟩ := by
      cases l with
      | check => exact absurd rfl hl
      | _ => rfl
    obtain ⟨u,hu,rfl⟩ := Option.map_eq_some_iff.mp (hstep ▸ h)
    exact .other hl (step_scanEffect hu)

/-- The counters forgotten, a step is one of the bare scan. -/
theorem PoolEffect.scanEffect (h : PoolEffect raw s l s') (hm : Marked raw s.scan) :
    ScanEffect raw s.scan l s'.scan := by
  cases h with
  | other _ heff => exact heff
  | @check blk t cnt hpc hcheck =>
    have hblk : blk < cfgNandBlockNum := hm.blk_lt (by rw [hpc]; rfl)
    have hfst := @rblkBbtCheckCounted_fst s.scan.sys s.cnt blk hblk
    rw [hcheck] at hfst
    exact .check hpc hfst.symm

/-- A step of the bare scan is one of the counted scan. -/
theorem lift_step (hm : Marked raw s.scan) {u : BbtScan} (h : s.scan.step raw l = some u) :
    ∃ cnt, s.step raw l = some ⟨u,cnt⟩ := by
  cases l with
  | check =>
    cases step_scanEffect h with
    | @check blk t hpc hcheck =>
      have hblk : blk < cfgNandBlockNum := hm.blk_lt (by rw [hpc]; rfl)
      have hfst := @rblkBbtCheckCounted_fst s.scan.sys s.cnt blk hblk
      rw [hcheck] at hfst
      cases hcnt : rblkBbtCheckCounted s.scan.sys s.cnt blk with
      | error e => rw [hcnt] at hfst; cases hfst
      | ok r =>
        rw [hcnt] at hfst
        cases hfst
        refine ⟨r.2,?_⟩
        simp only [PoolScan.step,hpc,hcnt]
        rfl
  | _ => exact ⟨s.cnt,by simp only [PoolScan.step,h,Option.map_some]⟩

end Step

/-- Some plane of the block at this LUN and channel carries a bad-block marker. -/
def RawBytes.badCh (raw : RawBytes) (blk lun ch : Nat) : Bool :=
  (List.range cfgNandPlaneNum).any fun i => raw blk lun ch i != 0xff

theorem RawBytes.badCh_iff {raw : RawBytes} {blk lun ch : Nat} :
    raw.badCh blk lun ch = true ↔ ∃ i < cfgNandPlaneNum, raw blk lun ch i ≠ 0xff := by
  simp only [RawBytes.badCh,List.any_eq_true,List.mem_range,bne_iff_ne]

theorem RawBytes.bad_eq (raw : RawBytes) (r : RawRead) : raw.bad r = raw.badCh r.1 r.lun r.ch := rfl

/-- A mark sets its own bit only. -/
theorem markBbtTbl_only {t t' : SysTbl} {blk lun ch : Nat} (hblk : blk < cfgNandBlockNum)
    (h : markBbtTbl t blk lun ch true = .ok t') {b m c : Nat}
    (hbit : ((t'.bmitbl b).bbt m).testBit c = true) :
    ((t.bmitbl b).bbt m).testBit c = true ∨ b = blk ∧ m = lun ∧ c = ch := by
  rw [markBbtTbl,getBmiItem_of_lt hblk] at h
  cases h
  by_cases hb : b = blk
  · by_cases hm : m = lun
    · subst hb hm
      simp only [SysTbl.setBbt,Function.update_self,if_true,Nat.testBit_or,Nat.one_shiftLeft,
        Nat.testBit_two_pow,Bool.or_eq_true,decide_eq_true_eq] at hbit
      exact hbit.imp_right fun hc => ⟨rfl,rfl,hc.symm⟩
    · subst hb
      left
      simpa [SysTbl.setBbt,Function.update_of_ne hm] using hbit
  · left
    simpa [SysTbl.setBbt,Function.update_of_ne hb] using hbit

/-- The blocks `judged` are behind the scan, with all their reads looked at, and every bit of the table
has its marker. -/
structure Scanned (raw : RawBytes) (judged : List Nat) (s : BbtScan) : Prop where
  order : scanOrder = judged ++ (s.pc.block.toList ++ s.todo)
  seen : ∀ blk ∈ judged, ∀ k < rblkReads, (s.reads (blk,k)).Seen
  only : ∀ blk lun ch, ((s.sys.bmitbl blk).bbt lun).testBit ch = true → raw.badCh blk lun ch = true

theorem scanned_init (raw : RawBytes) : Scanned raw [] (BbtScan.init sysTblInit) := by
  constructor
  case order => rfl
  case seen => nofun
  case only =>
    intro blk lun ch h
    simp [BbtScan.init,sysTblInit] at h

namespace Scanned

variable {raw : RawBytes} {judged : List Nat} {s s' : BbtScan} {l : ScanLabel}

/-- The block at work is not behind the scan. -/
theorem notMem_judged (h : Scanned raw judged s) {blk : Nat} (hpc : s.pc.block = some blk) :
    blk ∉ judged := by
  intro hmem
  have hnodup := h.order ▸ scanOrder_nodup
  apply (List.nodup_append.mp hnodup).2.2 blk hmem blk
  · rw [hpc]
    exact List.mem_cons_self
  · rfl

/-- A handler moves on. -/
private theorem moveRead (h : Scanned raw judged s) {r : RawRead} {p : ReadPc} {t : SysTbl}
    {cmpl done : Nat} (hp : p.Seen) (honly : ∀ blk lun ch,
      ((t.bmitbl blk).bbt lun).testBit ch = true → raw.badCh blk lun ch = true) :
    Scanned raw judged ({ s with bbtCmplCnt := cmpl, done := done, sys := t }.setRead r p) := by
  refine ⟨h.order,?_,honly⟩
  intro blk hblk k hk
  by_cases hr : (blk,k) = r
  · rw [hr,setRead_self]
    exact hp
  · rw [setRead_of_ne _ hr]
    exact h.seen blk hblk k hk

/-- No step but the check moves a block behind the scan. -/
theorem step (h : Scanned raw judged s) (hm : Marked raw s) (heff : ScanEffect raw s l s')
    (hl : l ≠ .check) : Scanned raw judged s' := by
  have horder := h.order
  cases heff with
  | initCompletion hpc htodo =>
    rw [hpc,htodo] at horder
    exact ⟨horder,h.seen,h.only⟩
  | @submit blk k hpc =>
    rw [hpc] at horder
    refine ⟨horder,?_,h.only⟩
    intro b hb j hj
    have hne : ((b,j) : RawRead) ≠ (blk,k) := by
      intro heq
      obtain ⟨rfl,-⟩ := Prod.mk.inj heq
      exact h.notMem_judged (by rw [hpc]; rfl) hb
    rw [setRead_of_ne _ hne]
    exact h.seen b hb j hj
  | submitFail hpc | countIssued hpc =>
    rw [hpc] at horder
    refine ⟨?_,h.seen,h.only⟩
    rw [nextRead_block]
    exact horder
  | @mark r t hr hmark =>
    apply h.moveRead (p := .marked) trivial
    intro b m c hbit
    by_cases hbad : raw.bad r = true
    · rw [if_pos hbad] at hmark
      rcases markBbtTbl_only (hm.read_lt r (by simp [hr])) hmark hbit with hold | ⟨rfl,rfl,rfl⟩
      · exact h.only b m c hold
      · rw [← RawBytes.bad_eq]
        exact hbad
    · rw [if_neg hbad] at hmark
      exact h.only b m c (hmark ▸ hbit)
  | countCompleted hr => exact h.moveRead trivial h.only
  | compare hr => exact h.moveRead trivial h.only
  | wake hpc hdone =>
    rw [hpc] at horder
    exact ⟨horder,h.seen,h.only⟩
  | check => exact absurd rfl hl

/-- The check moves the block behind the scan. -/
theorem check (h : Scanned raw judged s) {blk : Nat} {t : SysTbl} (hpc : s.pc = .checking blk)
    (hseen : ∀ k < rblkReads, (s.reads (blk,k)).Seen) (hbbt : ∀ b, (t.bmitbl b).bbt = (s.sys.bmitbl b).bbt) :
    Scanned raw (judged ++ [blk]) { s with pc := .next, sys := t } := by
  have horder := h.order
  rw [hpc] at horder
  refine ⟨?_,?_,?_⟩
  · rw [List.append_assoc]
    exact horder
  · intro b hb k hk
    rcases List.mem_append.mp hb with hb | hb
    · exact h.seen b hb k hk
    · obtain rfl := List.mem_singleton.mp hb
      exact hseen k hk
  · intro b lun ch hbit
    rw [hbbt] at hbit
    exact h.only b lun ch hbit

/-- When the reads of a block are looked at, its bits are the markers. -/
theorem testBit_iff (h : Scanned raw judged s) (hm : Marked raw s) {blk lun ch : Nat}
    (hseen : ∀ k < rblkReads, (s.reads (blk,k)).Seen) (hlun : lun < cfgNandLunNum)
    (hch : ch < cfgNandChannelNum) :
    ((s.sys.bmitbl blk).bbt lun).testBit ch = raw.badCh blk lun ch := by
  rw [Bool.eq_iff_iff]
  constructor
  · exact h.only blk lun ch
  · intro hbad
    -- the read of this LUN and channel
    let r : RawRead := (blk,lun * cfgNandChannelNum + ch)
    have hrlun : r.lun = lun := by
      simp only [RawRead.lun,r,cfgNandChannelNum_eq] at hch ⊢
      omega
    have hrch : r.ch = ch := by
      simp only [RawRead.ch,r,cfgNandChannelNum_eq] at hch ⊢
      omega
    have hk : r.2 < rblkReads := by
      simp only [r,rblkReads,cfgNandLunNum_eq,cfgNandChannelNum_eq] at hlun hch ⊢
      omega
    have hbit := hm.bit r (by rw [RawBytes.bad_eq,hrlun,hrch]; exact hbad) (hseen r.2 hk)
    rw [hrlun,hrch] at hbit
    exact hbit

end Scanned

/-- The bad channels of a LUN, by the markers. -/
def RawBytes.badChannels (raw : RawBytes) (blk lun : Nat) : Nat :=
  ((List.range cfgNandChannelNum).filter fun ch => raw.badCh blk lun ch).length

def RawBytes.kicked (raw : RawBytes) (blk : Nat) : Bool :=
  (List.range cfgNandLunNum).any fun lun => decide (12 < raw.badChannels blk lun)

theorem RawBytes.kicked_eq_false {raw : RawBytes} {blk : Nat} :
    raw.kicked blk = false ↔ ∀ lun < cfgNandLunNum, raw.badChannels blk lun ≤ 12 := by
  simp only [RawBytes.kicked,List.any_eq_false,List.mem_range,decide_eq_true_eq,Nat.not_lt]

theorem Scanned.kicked_eq {raw : RawBytes} {judged : List Nat} {s : BbtScan} (h : Scanned raw judged s)
    (hm : Marked raw s) {blk : Nat} (hseen : ∀ k < rblkReads, (s.reads (blk,k)).Seen) :
    s.sys.kicked blk = raw.kicked blk := by
  have hcount (lun : Nat) (hlun : lun < cfgNandLunNum) : ((List.range cfgNandChannelNum).filter fun ch =>
      ((s.sys.bmitbl blk).bbt lun).testBit ch).length = raw.badChannels blk lun := by
    unfold RawBytes.badChannels
    congr 1
    apply List.filter_congr
    intro ch hch
    exact h.testBit_iff hm hseen hlun (List.mem_range.mp hch)
  unfold SysTbl.kicked RawBytes.kicked
  rw [Bool.eq_iff_iff,List.any_eq_true,List.any_eq_true]
  constructor
  · rintro ⟨lun,hmem,hlt⟩
    exact ⟨lun,hmem,hcount lun (List.mem_range.mp hmem) ▸ hlt⟩
  · rintro ⟨lun,hmem,hlt⟩
    exact ⟨lun,hmem,(hcount lun (List.mem_range.mp hmem)).symm ▸ hlt⟩

/-- The pool and the counters after the blocks `judged`. -/
structure Pooled (raw : RawBytes) (judged : List Nat) (s : PoolScan) : Prop where
  scanned : Scanned raw judged s.scan
  marked : Marked raw s.scan
  pool : Pool s.scan.sys (judged.filter fun b => !raw.kicked b)
  free : ∀ b, (s.scan.sys.bmitbl b).bmstate = .free
  good : s.cnt.good = (judged.filter fun b => !raw.kicked b).length
  bad : s.cnt.bad = (judged.filter raw.kicked).length

theorem pooled_init (raw : RawBytes) : Pooled raw [] PoolScan.init :=
  ⟨scanned_init raw,marked_init raw sysTblInit,pool_init,fun _ => rfl,rfl,rfl⟩

theorem markBbtTbl_frame {t t' : SysTbl} {blk lun ch : Nat} {status : Bool}
    (h : markBbtTbl t blk lun ch status = .ok t') :
    t'.link = t.link ∧ t'.freeBlkPool = t.freeBlkPool ∧
      ∀ b, (t'.bmitbl b).bmstate = (t.bmitbl b).bmstate := by
  unfold markBbtTbl at h
  cases hbmi : getBmiItem blk with
  | error e => simp [hbmi,bind,Except.bind] at h
  | ok bmi =>
    rw [hbmi] at h
    cases h
    refine ⟨rfl,rfl,?_⟩
    intro b
    by_cases hb : b = bmi
    · simp [SysTbl.setBbt,hb]
    · simp [SysTbl.setBbt,Function.update_of_ne hb]

/-- Between the checks nobody touches the pool or a block state. -/
theorem ScanEffect.frame {raw : RawBytes} {s s' : BbtScan} {l : ScanLabel} (heff : ScanEffect raw s l s')
    (hl : l ≠ .check) : s'.sys.link = s.sys.link ∧ s'.sys.freeBlkPool = s.sys.freeBlkPool ∧
      ∀ b, (s'.sys.bmitbl b).bmstate = (s.sys.bmitbl b).bmstate := by
  cases heff with
  | @mark r t hr hmark =>
    by_cases hbad : raw.bad r = true
    · rw [if_pos hbad] at hmark
      exact markBbtTbl_frame hmark
    · rw [if_neg hbad] at hmark
      rw [hmark]
      exact ⟨rfl,rfl,fun _ => rfl⟩
  | check => exact absurd rfl hl
  | _ => exact ⟨rfl,rfl,fun _ => rfl⟩

namespace Pooled

variable {raw : RawBytes} {judged : List Nat} {s s' : PoolScan} {l : ScanLabel}

/-- The check of a block whose reads are looked at: it does not fail, and the block is filed by its
markers. -/
theorem check (h : Pooled raw judged s) {blk : Nat} (hpc : s.scan.pc = .checking blk)
    (hseen : ∀ k < rblkReads, (s.scan.reads (blk,k)).Seen) :
    ∃ t cnt, rblkBbtCheckCounted s.scan.sys s.cnt blk = .ok (t,cnt) ∧
      Pooled raw (judged ++ [blk]) ⟨{ s.scan with pc := .next, sys := t },cnt⟩ := by
  have hblock : s.scan.pc.block = some blk := by rw [hpc]; rfl
  have hkick := h.scanned.kicked_eq h.marked hseen
  have hnot : blk ∉ judged.filter fun b => !raw.kicked b :=
    fun hmem => h.scanned.notMem_judged hblock (List.mem_of_mem_filter hmem)
  obtain ⟨t,hcheck,hpool,hbbt,hfree⟩ := rblkBbtCheckCounted_pool s.cnt h.pool (h.marked.blk_lt hblock) hnot
  have hmarked : Marked raw { s.scan with pc := .next, sys := t } :=
    ((PoolEffect.check hpc hcheck).scanEffect h.marked).marked h.marked
  refine ⟨t,_,hcheck,h.scanned.check hpc hseen hbbt,hmarked,?_,hfree h.free,?_,?_⟩
  · simp only [List.filter_cons,List.filter_nil,hkick] at hpool
    simp only [List.filter_append,List.filter_cons,List.filter_nil]
    exact hpool
  · rw [List.filter_append,List.length_append,← h.good,hkick]
    cases hk : raw.kicked blk <;> simp [RblkCnt.judge,hk]
  · rw [List.filter_append,List.length_append,← h.bad,hkick]
    cases hk : raw.kicked blk <;> simp [RblkCnt.judge,hk]

theorem step (h : Pooled raw judged s) (heff : PoolEffect raw s l s') (hok : readsFirst s l) :
    ∃ judged', Pooled raw judged' s' := by
  cases heff with
  | @other l u hl heff =>
    obtain ⟨hlink,hpool,hstate⟩ := heff.frame hl
    refine ⟨judged,h.scanned.step h.marked heff hl,heff.marked h.marked,⟨?_,h.pool.lt⟩,?_,h.good,h.bad⟩
    · rw [hlink,hpool]
      exact h.pool.holds
    · intro b
      rw [hstate]
      exact h.free b
  | @check blk t cnt hpc hcheck =>
    obtain ⟨t₁,cnt₁,hcheck₁,hnext⟩ := h.check hpc (hok blk hpc)
    cases hcheck.symm.trans hcheck₁
    exact ⟨judged ++ [blk],hnext⟩

end Pooled

theorem pooled_of_reaches {raw : RawBytes} {s : PoolScan}
    (hrun : Reaches (PoolScan.step raw) readsFirst PoolScan.init s) : ∃ judged, Pooled raw judged s :=
  hrun.invariant (fun s => ∃ judged, Pooled raw judged s) ⟨[],pooled_init raw⟩ fun _ _ _ h hok hl =>
    h.elim fun _ h => h.step (step_poolEffect hl) hok

/-- Take `n` blocks from the free list. -/
def takeBlks : Nat → SysTbl → Except Fault (List Nat × SysTbl)
  | 0, t => .ok ([],t)
  | n + 1, t => do
    let (blk,t) ← getBlkFromFreeList t
    let (blks,t) ← takeBlks n t
    return (blk :: blks,t)

/-- The blocks leave the pool in its order, and then it is empty. -/
theorem Pool.take {t : SysTbl} {blks : List Nat} (h : Pool t blks) :
    ∃ t', takeBlks blks.length t = .ok (blks,t') ∧ getBlkFromFreeList t' = .ok (0,t') := by
  induction blks generalizing t with
  | nil => exact ⟨t,rfl,getBlkFromFreeList_empty h⟩
  | cons blk blks ih =>
    obtain ⟨t₁,hget,hpool,-⟩ := getBlkFromFreeList_cons h
    obtain ⟨t',htake,hempty⟩ := ih hpool
    refine ⟨t',?_,hempty⟩
    simp only [List.length_cons,takeBlks,hget,bind,Except.bind,htake,pure,Except.pure]

theorem scanOrder_pairwise : scanOrder.Pairwise (· > ·) :=
  List.pairwise_reverse.mpr List.pairwise_lt_range'

theorem mem_scanOrder_iff {b : Nat} : b ∈ scanOrder ↔ 1 ≤ b ∧ b < cfgNandBlockNum := by
  simp only [scanOrder,List.mem_reverse,List.mem_range'_1,cfgNandBlockNum_eq]

/-- What `fscftl_bbt_discovery` leaves: the markers in the table, the blocks without a LUN of more than
12 bad channels in the pool, by falling block number and free, and every scanned block counted. -/
structure PoolBuilt (raw : RawBytes) (s : PoolScan) : Prop where
  bits : ∀ blk lun ch, 1 ≤ blk → blk < cfgNandBlockNum → lun < cfgNandLunNum → ch < cfgNandChannelNum →
    (((s.scan.sys.bmitbl blk).bbt lun).testBit ch = true ↔
      ∃ i < cfgNandPlaneNum, raw blk lun ch i ≠ 0xff)
  pool : ∃ blks t, Pool s.scan.sys blks ∧ blks.Pairwise (· > ·) ∧
    takeBlks blks.length s.scan.sys = .ok (blks,t) ∧ getBlkFromFreeList t = .ok (0,t) ∧
    (∀ b, b ∈ blks ↔ 1 ≤ b ∧ b < cfgNandBlockNum ∧
      ∀ lun < cfgNandLunNum, raw.badChannels b lun ≤ 12) ∧
    ∀ b ∈ blks, (s.scan.sys.bmitbl b).bmstate = .free
  count : s.cnt.good + s.cnt.bad = cfgNandBlockNum - 1

theorem Pooled.built {raw : RawBytes} {judged : List Nat} {s : PoolScan} (h : Pooled raw judged s)
    (hend : s.Finished) : PoolBuilt raw s := by
  obtain ⟨hpc,htodo⟩ := hend
  obtain rfl : scanOrder = judged := by
    have horder := h.scanned.order
    rw [hpc,htodo] at horder
    simpa [ScanPc.block] using horder
  constructor
  case bits =>
    intro blk lun ch h1 hblk hlun hch
    have hseen := h.scanned.seen blk (mem_scanOrder_iff.mpr ⟨h1,hblk⟩)
    rw [h.scanned.testBit_iff h.marked hseen hlun hch,RawBytes.badCh_iff]
  case pool =>
    obtain ⟨t,htake,hempty⟩ := h.pool.take
    refine ⟨_,t,h.pool,scanOrder_pairwise.filter _,htake,hempty,?_,fun b _ => h.free b⟩
    intro b
    rw [List.mem_filter,mem_scanOrder_iff,Bool.not_eq_true_eq_eq_false,RawBytes.kicked_eq_false,and_assoc]
  case count =>
    rw [h.good,h.bad,Nat.add_comm,← List.length_eq_length_filter_add,scanOrder,List.length_reverse,
      List.length_range']

section Runs

variable {raw : RawBytes} {s : PoolScan} {u : BbtScan} {blk : Nat} {todo : List Nat}

/-- The guard of `Barrier`, for the counted scan. -/
def scanInTurn (s : PoolScan) (l : ScanLabel) : Prop := inTurn s.scan l

theorem scanInTurn_step {s' : PoolScan} {l : ScanLabel}
    (h : (∃ base, Barrier base s.scan) ∧ Marked raw s.scan) (hok : scanInTurn s l)
    (hl : s.step raw l = some s') : (∃ base, Barrier base s'.scan) ∧ Marked raw s'.scan := by
  have heff := (step_poolEffect hl).scanEffect h.2
  exact ⟨h.1.elim fun _ hb => hb.step heff hok,heff.marked h.2⟩

theorem barrier_of_reaches (hrun : Reaches (PoolScan.step raw) scanInTurn PoolScan.init s) :
    (∃ base, Barrier base s.scan) ∧ Marked raw s.scan :=
  hrun.invariant (fun s => (∃ base, Barrier base s.scan) ∧ Marked raw s.scan)
    ⟨⟨0,barrier_init sysTblInit⟩,marked_init raw sysTblInit⟩ fun _ _ _ => scanInTurn_step

/-- When the comparisons are in their turn, the reads of a block come before its check. -/
theorem readsFirst_of_scanInTurn (hrun : Reaches (PoolScan.step raw) scanInTurn PoolScan.init s) :
    Reaches (PoolScan.step raw) readsFirst PoolScan.init s := by
  apply hrun.strengthen (fun s => (∃ base, Barrier base s.scan) ∧ Marked raw s.scan)
    ⟨⟨0,barrier_init sysTblInit⟩,marked_init raw sysTblInit⟩ fun _ _ _ => scanInTurn_step
  intro s l h _
  cases l with
  | check =>
    intro blk hpc k hk
    obtain ⟨base,hb⟩ := h.1
    exact (hb.handled_of_checking hpc hk).seen
  | _ => trivial

/-- A run of the bare scan continues one of the counted scan. -/
theorem reaches_lift (hrun : Reaches (PoolScan.step raw) scanInTurn PoolScan.init s)
    (h : Reaches (BbtScan.step raw) inTurn s.scan u) :
    ∃ cnt, Reaches (PoolScan.step raw) scanInTurn PoolScan.init ⟨u,cnt⟩ := by
  apply h.invariant (fun u => ∃ cnt, Reaches (PoolScan.step raw) scanInTurn PoolScan.init ⟨u,cnt⟩)
  · exact ⟨s.cnt,hrun⟩
  · rintro v l v' ⟨cnt,hv⟩ hok hl
    obtain ⟨cnt',hstep⟩ := lift_step (barrier_of_reaches hv).2 hl
    exact ⟨cnt',hv.tail hok hstep⟩

/-- One round of the loop over the blocks, with all reads issued before the first is handled. -/
theorem scan_block (hrun : Reaches (PoolScan.step raw) scanInTurn PoolScan.init s)
    (hpc : s.scan.pc = .next) (htodo : s.scan.todo = blk :: todo) :
    ∃ s', Reaches (PoolScan.step raw) scanInTurn PoolScan.init s' ∧ s'.scan.pc = .next ∧
      s'.scan.todo = todo := by
  have hblk : blk < cfgNandBlockNum := by
    apply (barrier_of_reaches hrun).2.lt blk
    rw [htodo]
    exact List.mem_append_right _ List.mem_cons_self
  let u₀ : BbtScan := { s.scan with pc := .submit blk 0, todo := todo, done := 0 }
  have hinit : s.scan.step raw .initCompletion = some u₀ := by simp only [BbtScan.step,hpc,htodo,u₀]
  obtain ⟨u₁,hissue,hpc₁,-,hdev,-,htodo₁⟩ := issue_rest raw inTurn (s := u₀) (k := 0) (n := rblkReads)
    (fun _ => trivial) (fun _ => trivial) (Nat.zero_add _) rfl
  obtain ⟨u₂,hhandle,hpc₂,hret,-,htodo₂⟩ := handle_first raw hblk (Nat.le_refl rblkReads) hpc₁
    fun j hj => hdev j (Nat.zero_le j) hj
  obtain ⟨cnt,hrun₂⟩ := reaches_lift hrun
    (((Reaches.single trivial hinit).trans hissue).trans hhandle)
  obtain ⟨base,hb⟩ := (barrier_of_reaches hrun₂).1
  have hwake : u₂.step raw .wake = some { u₂ with pc := .checking blk, done := u₂.done - 1 } := by
    simp only [BbtScan.step,hpc₂,if_pos (hb.done_pos hpc₂ hret)]
  obtain ⟨cnt₃,hrun₃⟩ := reaches_lift hrun₂ (Reaches.single (l := .wake) trivial hwake)
  obtain ⟨judged,hpooled⟩ := pooled_of_reaches (readsFirst_of_scanInTurn hrun₃)
  obtain ⟨t,cnt₄,hcheck,-⟩ := hpooled.check rfl fun k hk => by
    show (u₂.reads (blk,k)).Seen
    rw [hret k hk]
    trivial
  refine ⟨⟨{ u₂ with pc := .next, done := u₂.done - 1, sys := t },cnt₄⟩,hrun₃.tail (l := .check) trivial ?_,rfl,
    htodo₂.trans htodo₁⟩
  simp only [PoolScan.step,hcheck]
  rfl

/-- Whatever the markers are, the scan can come to its end. -/
theorem finished_reached (raw : RawBytes) :
    ∃ s, Reaches (PoolScan.step raw) scanInTurn PoolScan.init s ∧ s.Finished := by
  have hrest (todo : List Nat) : ∀ s, Reaches (PoolScan.step raw) scanInTurn PoolScan.init s →
      s.scan.pc = .next → s.scan.todo = todo →
      ∃ s, Reaches (PoolScan.step raw) scanInTurn PoolScan.init s ∧ s.Finished := by
    induction todo with
    | nil =>
      intro s hrun hpc htodo
      exact ⟨s,hrun,hpc,htodo⟩
    | cons blk todo ih =>
      intro s hrun hpc htodo
      obtain ⟨s',hrun',hpc',htodo'⟩ := scan_block hrun hpc htodo
      exact ih s' hrun' hpc' htodo'
  exact hrest scanOrder PoolScan.init (Reaches.refl _) rfl rfl

end Runs

/-- Manufactory init builds the right free pool: whatever the markers are, every scan in which the reads
of a block are complete before its check ends with the pool built, and there is such a scan. -/
theorem discovery_builds_pool (raw : RawBytes) :
    (∀ s, Reaches (PoolScan.step raw) readsFirst PoolScan.init s → s.Finished → PoolBuilt raw s) ∧
      ∃ s, Reaches (PoolScan.step raw) readsFirst PoolScan.init s ∧ s.Finished := by
  constructor
  · intro s hrun hend
    obtain ⟨judged,hpooled⟩ := pooled_of_reaches hrun
    exact hpooled.built hend
  · obtain ⟨s,hrun,hend⟩ := finished_reached raw
    exact ⟨s,readsFirst_of_scanInTurn hrun,hend⟩

/-- 13 bad channels in the last LUN of block 5, the 13th of them on the last channel, and 12 in that of
block 6. -/
def lastLunMarkers : RawBytes := fun blk lun ch _ =>
  if lun = 7 ∧ (blk = 5 ∧ 3 ≤ ch ∨ blk = 6 ∧ 4 ≤ ch) then 0 else 0xff

theorem discovery_builds_pool_last_lun : ∃ s blks,
    Reaches (PoolScan.step lastLunMarkers) readsFirst PoolScan.init s ∧ s.Finished ∧
      Pool s.scan.sys blks ∧ 5 ∉ blks ∧ 6 ∈ blks := by
  obtain ⟨hbuilt,s,hrun,hend⟩ := discovery_builds_pool lastLunMarkers
  obtain ⟨blks,-,hpool,-,-,-,hmem,-⟩ := (hbuilt s hrun hend).pool
  refine ⟨s,blks,hrun,hend,hpool,?_,?_⟩
  · intro h5
    exact absurd (((hmem 5).mp h5).2.2 7 (by decide)) (by decide)
  · exact (hmem 6).mpr ⟨by decide,by decide,by decide⟩

end Sdssd.Host
