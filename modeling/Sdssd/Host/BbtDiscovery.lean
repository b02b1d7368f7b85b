import Sdssd.Framework.Steps
import Sdssd.Host.ModuleInit

/-!
# The bad-block scan and its completion handlers

`fscftl_bbt_discovery` issues the raw reads of one raid block after another. For each block it waits
for `bbt_completion` and then judges the block, while the completion handlers run beside it. Two
counters that are never reset decide when a handler wakes the waiter.
-/

namespace Sdssd.Host

open Framework

/-- `mark_bbt_tbl`; `status` is `BADB`. The words of `bmi->bbt` have 16 bits. -/
def markBbtTbl (t : SysTbl) (blk lun ch : Nat) (status : Bool) : Except Fault SysTbl := do
  let bmi ← getBmiItem blk
  let bbt := (t.bmitbl bmi).bbt
  let word := if status then bbt lun ||| 1 <<< ch else bbt lun &&& (0xffff ^^^ 1 <<< ch)
  return t.setBbt bmi (Function.update bbt lun word)

/-- One raw read for each channel of each LUN. -/
def rblkReads : Nat := cfgNandLunNum * cfgNandChannelNum

/-- A read of the scan: its block and its number in the loops over LUNs and channels. -/
abbrev RawRead := Nat × Nat

def RawRead.lun (r : RawRead) : Nat := r.2 / cfgNandChannelNum

def RawRead.ch (r : RawRead) : Nat := r.2 % cfgNandChannelNum

/-- The bytes that mark a bad block, by block, LUN, channel and plane. -/
abbrev RawBytes := Nat → Nat → Nat → Nat → Nat

/-- The planes of a read stand for one another: any byte other than `0xff` makes the block bad. -/
def RawBytes.bad (raw : RawBytes) (r : RawRead) : Bool :=
  (List.range cfgNandPlaneNum).any fun i => raw r.1 r.lun r.ch i != 0xff

/-- Progress of a read: not submitted, with the device, and then what `rdpparaw_completion` has done
for it. `counted v` is the time between `atomic_inc_return`, which gave `v`, and the comparison. -/
inductive ReadPc
  | absent
  | device
  | marked
  | counted (v : Nat)
  | returned
  deriving DecidableEq, Repr

/-- Where `fscftl_bbt_discovery` is: at the head of the loop over blocks, before the submission of
read `k`, between its submission and `atomic_inc`, in `wait_for_completion`, or before
`rblk_bbt_check_available`. -/
inductive ScanPc
  | next
  | submit (blk k : Nat)
  | issued (blk k : Nat)
  | waiting (blk : Nat)
  | checking (blk : Nat)
  deriving DecidableEq, Repr

/-- `done` is the count of `bbt_completion`. -/
structure BbtScan where
  todo : List Nat
  pc : ScanPc
  bbtIssuCnt : Nat
  bbtCmplCnt : Nat
  done : Nat
  reads : RawRead → ReadPc
  sys : SysTbl

def BbtScan.init (t : SysTbl) : BbtScan := ⟨scanOrder,.next,0,0,0,fun _ => .absent,t⟩

def BbtScan.setRead (s : BbtScan) (r : RawRead) (p : ReadPc) : BbtScan :=
  { s with reads := Function.update s.reads r p }

/-- The loops over LUNs and channels go on, or end in the wait. -/
def nextRead (blk k : Nat) : ScanPc :=
  if k + 1 < rblkReads then .submit blk (k + 1) else .waiting blk

inductive ScanLabel
  | initCompletion
  | submit
  | submitFail
  | countIssued
  | mark (r : RawRead)
  | countCompleted (r : RawRead)
  | compare (r : RawRead)
  | wake
  | check

/-- One step of the scanning thread or of a completion handler. `submitFail` is a failed
`dma_pool_page_zalloc`, whose result `rblk_bbt_discovery` does not look at. -/
def BbtScan.step (raw : RawBytes) (s : BbtScan) : ScanLabel → Option BbtScan
  | .initCompletion => match s.pc, s.todo with
    | .next, blk :: todo => some { s with pc := .submit blk 0, todo := todo, done := 0 }
    | _, _ => none
  | .submit => match s.pc with
    | .submit blk k => some ({ s with pc := .issued blk k }.setRead (blk,k) .device)
    | _ => none
  | .submitFail => match s.pc with
    | .submit blk k => some { s with pc := nextRead blk k }
    | _ => none
  | .countIssued => match s.pc with
    | .issued blk k => some { s with pc := nextRead blk k, bbtIssuCnt := s.bbtIssuCnt + 1 }
    | _ => none
  | .mark r => match s.reads r with
    | .device =>
      if raw.bad r then
        (markBbtTbl s.sys r.1 r.lun r.ch true).toOption.map fun t => { s with sys := t }.setRead r .marked
      else some (s.setRead r .marked)
    | _ => none
  | .countCompleted r => match s.reads r with
    | .marked => some ({ s with bbtCmplCnt := s.bbtCmplCnt + 1 }.setRead r (.counted (s.bbtCmplCnt + 1)))
    | _ => none
  | .compare r => match s.reads r with
    | .counted v =>
      some ({ s with done := if v = s.bbtIssuCnt then s.done + 1 else s.done }.setRead r .returned)
    | _ => none
  | .wake => match s.pc with
    | .waiting blk => if 0 < s.done then some { s with pc := .checking blk, done := s.done - 1 } else none
    | _ => none
  | .check => match s.pc with
    | .checking blk => (rblkBbtCheckAvailable s.sys blk).toOption.map fun t => { s with pc := .next, sys := t }
    | _ => none

/-- What one step does. -/
inductive ScanEffect (raw : RawBytes) (s : BbtScan) : ScanLabel → BbtScan → Prop
  | initCompletion {blk : Nat} {todo : List Nat} (hpc : s.pc = .next) (htodo : s.todo = blk :: todo) :
      ScanEffect raw s .initCompletion { s with pc := .submit blk 0, todo := todo, done := 0 }
  | submit {blk k : Nat} (hpc : s.pc = .submit blk k) :
      ScanEffect raw s .submit ({ s with pc := .issued blk k }.setRead (blk,k) .device)
  | submitFail {blk k : Nat} (hpc : s.pc = .submit blk k) :
      ScanEffect raw s .submitFail { s with pc := nextRead blk k }
  | countIssued {blk k : Nat} (hpc : s.pc = .issued blk k) :
      ScanEffect raw s .countIssued { s with pc := nextRead blk k, bbtIssuCnt := s.bbtIssuCnt + 1 }
  | mark {r : RawRead} {t : SysTbl} (hr : s.reads r = .device)
      (hmark : if raw.bad r then markBbtTbl s.sys r.1 r.lun r.ch true = .ok t else t = s.sys) :
      ScanEffect raw s (.mark r) ({ s with sys := t }.setRead r .marked)
  | countCompleted {r : RawRead} (hr : s.reads r = .marked) :
      ScanEffect raw s (.countCompleted r)
        ({ s with bbtCmplCnt := s.bbtCmplCnt + 1 }.setRead r (.counted (s.bbtCmplCnt + 1)))
  | compare {r : RawRead} {v : Nat} (hr : s.reads r = .counted v) :
      ScanEffect raw s (.compare r)
        ({ s with done := if v = s.bbtIssuCnt then s.done + 1 else s.done }.setRead r .returned)
  | wake {blk : Nat} (hpc : s.pc = .waiting blk) (hdone : 0 < s.done) :
      ScanEffect raw s .wake { s with pc := .checking blk, done := s.done - 1 }
  | check {blk : Nat} {t : SysTbl} (hpc : s.pc = .checking blk)
      (hcheck : rblkBbtCheckAvailable s.sys blk = .ok t) :
      ScanEffect raw s .check { s with pc := .next, sys := t }

theorem toOption_eq_some {ε β : Type} {x : Except ε β} {b : β} (h : x.toOption = some b) : x = .ok b := by
  cases x with
  | error e => cases h
  | ok a => exact congrArg Except.ok (Option.some.inj h)

theorem step_scanEffect {raw : RawBytes} {s s' : BbtScan} {l : ScanLabel}
    (h : s.step raw l = some s') : ScanEffect raw s l s' := by
  cases l with
  | initCompletion =>
    simp only [BbtScan.step] at h
    split at h
    case h_1 hpc htodo =>
      cases h
      exact .initCompletion hpc htodo
    case h_2 => cases h
  | submit =>
    simp only [BbtScan.step] at h
    split at h
    case h_1 hpc =>
      cases h
      exact .submit hpc
    case h_2 => cases h
  | submitFail =>
    simp only [BbtScan.step] at h
    split at h
    case h_1 hpc =>
      cases h
      exact .submitFail hpc
    case h_2 => cases h
  | countIssued =>
    simp only [BbtScan.step] at h
    split at h
    case h_1 hpc =>
      cases h
      exact .countIssued hpc
    case h_2 => cases h
  | mark r =>
    simp only [BbtScan.step] at h
    split at h
    case h_1 hr =>
      split at h
      case isTrue hbad =>
        obtain ⟨t,ht,rfl⟩ := Option.map_eq_some_iff.mp h
        exact .mark hr (by rw [if_pos hbad]; exact toOption_eq_some ht)
      case isFalse hbad =>
        cases h
        exact .mark hr (t := s.sys) (by rw [if_neg hbad])
    case h_2 => cases h
  | countCompleted r =>
    simp only [BbtScan.step] at h
    split at h
    case h_1 hr =>
      cases h
      exact .countCompleted hr
    case h_2 => cases h
  | compare r =>
    simp only [BbtScan.step] at h
    split at h
    case h_1 hr =>
      cases h
      exact .compare hr
    case h_2 => cases h
  | wake =>
    simp only [BbtScan.step] at h
    split at h
    case h_1 hpc =>
      split at h
      case isTrue hdone =>
        cases h
        exact .wake hpc hdone
      case isFalse => cases h
    case h_2 => cases h
  | check =>
    simp only [BbtScan.step] at h
    split at h
    case h_1 hpc =>
      obtain ⟨t,ht,rfl⟩ := Option.map_eq_some_iff.mp h
      exact .check hpc (toOption_eq_some ht)
    case h_2 => cases h

end Sdssd.Host
