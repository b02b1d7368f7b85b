import Sdssd.Host.AllocSpec

/-!
# The flush of a system table through the write cache

`flush_ftl_internal_systbl` writes a buffer sector by sector under LBAs behind the user area. It
takes its slots from the cache that the `process_write_bio` calls use, while these calls, the writer
thread and the completion interrupts go on.
-/

namespace Sdssd.Host

open Framework

variable {α : Type}

/-- `sizeof(struct bmi_item)`. -/
def bmiItemSize : Nat := 76

def divRoundUp (n d : Nat) : Nat := (n + (d - 1)) / d

def bmitblSecNum : Nat := divRoundUp (cfgNandBlockNum * bmiItemSize) expPpaSize

def vpctblSecNum : Nat := divRoundUp (cfgNandBlockNum * 4) expPpaSize

def l1tblSecNum : Nat := divRoundUp ((usrFtltblSecNum + vpctblSecNum + bmitblSecNum) * 4) expPpaSize

def extendLbaBase : Nat := maxUserLba + 1

def extendLbaUftl : Nat := extendLbaBase

def extendLbaBmitbl : Nat := extendLbaUftl + usrFtltblSecNum

def extendLbaVpctbl : Nat := extendLbaBmitbl + bmitblSecNum

def extendLbaL1tbl : Nat := extendLbaVpctbl + vpctblSecNum

def extendLbaRsvd0 : Nat := extendLbaL1tbl + l1tblSecNum

/-- The LBAs of the system tables. -/
def IsSysLba (lba : Nat) : Prop := extendLbaBase ≤ lba ∧ lba < extendLbaRsvd0

instance (lba : Nat) : Decidable (IsSysLba lba) :=
  inferInstanceAs (Decidable (extendLbaBase ≤ lba ∧ lba < extendLbaRsvd0))

/-- `memcpy` of one page into a slot. -/
def Ftl.putData (f : Ftl α) (slot : Slot) (src : Option α) : Ftl α :=
  f.setEnt slot.1 { f.ent slot.1 with data := Function.update (f.ent slot.1).data slot.2 src }

/-- Count a slot as copied; the last one sends its entity to `full_lun`. -/
def Ftl.countFill (f : Ftl α) (e : Nat) : Ftl α :=
  let x := f.ent e
  if x.fillCnt + 1 = raidLunSecNum then (f.setEnt e { x with fillCnt := 0 }).pushFull e
  else f.setEnt e { x with fillCnt := x.fillCnt + 1 }

/-- One round of the loop in `flush_sysmeta_to_wcb`. -/
def flushSysmetaSlot (f : Ftl α) (src : Option α) (slot : Slot) : Ftl α :=
  (if IsSysLba (f.lbaAt slot) then f.putData slot src else f).countFill slot.1

/-- Where `flush_ftl_internal_systbl` stands. In `flush` the remaining slots and `idx` of
`flush_sysmeta_to_wcb` are kept. -/
inductive FlushPc
  | head
  | retry
  | flush (todo : List Slot) (idx : Nat)
  | done
  deriving DecidableEq, Repr

/-- A sector that was copied: the slot, the LBA found there and the place in the buffer. -/
structure SectorCopy where
  slot : Slot
  lba : Nat
  sector : Nat
  deriving DecidableEq, Repr

/-- The write path with one flush in progress; `databuf` counts sectors from the start of the buffer,
and `copied`, the copies made so far, is history. -/
structure SystblFlush (α : Type) where
  path : WritePath α
  pc : FlushPc
  slba : Nat
  leftPpas : Nat
  databuf : Nat
  copied : List SectorCopy

/-- Who moves: the rest of the driver, or the flush at its loop head, under `wcb_lock`, at one slot or
behind `flush_sysmeta_to_wcb`. -/
inductive FlushLabel (α : Type)
  | host (l : Label α)
  | loopHead
  | wcbSection
  | copySlot
  | advance

/-- Steps of the flush itself. -/
def FlushLabel.Own : FlushLabel α → Prop
  | .host _ => False
  | _ => True

namespace SystblFlush

def budget : Nat := 1

def start (p : WritePath α) (nrPpas slba : Nat) : SystblFlush α := ⟨p,.head,slba,nrPpas,0,[]⟩

def setFtl (s : SystblFlush α) (f : Ftl α) : SystblFlush α := { s with path := { s.path with ftl := f } }

/-- Slots allotted to the flush and not yet copied. -/
def todo (s : SystblFlush α) : List Slot :=
  match s.pc with
  | .flush todo _ => todo
  | _ => []

/-- Slots of the host's calls and of the flush that are allotted and not yet copied. -/
def uncopied (s : SystblFlush α) : List Slot := s.todo ++ s.path.pending

/-- The section under `wcb_lock`; without room the flush sleeps and tries again. -/
def wcbSection (s : SystblFlush α) : Except Fault (SystblFlush α) :=
  (wcbAvailable s.path.ftl budget).bind fun available =>
    if available then
      (allocWcbCore s.path.ftl s.slba budget).map fun r =>
        { s.setFtl r.ftl with pc := .flush (ctxSlots r.ctxs) 0 }
    else .ok s

/-- The sector of `buff` that goes to `slot`. -/
def copySlot (buff : List α) (s : SystblFlush α) (slot : Slot) (todo : List Slot) (idx : Nat) :
    SystblFlush α :=
  let lba := s.path.ftl.lbaAt slot
  let sector := s.databuf + idx
  { s.setFtl (flushSysmetaSlot s.path.ftl buff[sector]? slot) with
    pc := .flush todo (idx + 1)
    copied := if IsSysLba lba then s.copied ++ [⟨slot,lba,sector⟩] else s.copied }

def advance (s : SystblFlush α) : SystblFlush α :=
  { s with
    pc := .head
    slba := (s.slba + budget) % 2^32
    leftPpas := (s.leftPpas + (2^32 - budget)) % 2^32
    databuf := s.databuf + budget }

def step (buff : List α) (s : SystblFlush α) : FlushLabel α → Option (SystblFlush α)
  | .host l => (s.path.step l).map fun p => { s with path := p }
  | .loopHead =>
      match s.pc with
      | .head => some { s with pc := if s.leftPpas = 0 then .done else .retry }
      | _ => none
  | .wcbSection =>
      match s.pc with
      | .retry => s.wcbSection.toOption
      | _ => none
  | .copySlot =>
      match s.pc with
      | .flush (slot :: todo) idx => some (s.copySlot buff slot todo idx)
      | _ => none
  | .advance =>
      match s.pc with
      | .flush [] _ => some s.advance
      | _ => none

/-- The slot that a step copies. -/
def copying (s : SystblFlush α) : FlushLabel α → Option Slot
  | .host (.copySlot i) => s.path.calls[i]?.bind fun c => c.pending.head?
  | .copySlot => s.todo.head?
  | _ => none

/-- Steps of its own that the flush has still to take, those apart in which it only sleeps. -/
def remaining (s : SystblFlush α) : Nat :=
  match s.pc with
  | .head => 4 * s.leftPpas + 1
  | .retry => 4 * s.leftPpas
  | .flush todo _ => 4 * (s.leftPpas - 1) + todo.length + 2
  | .done => 0

/-- Everything a step can do, with the conditions under which it does it. -/
inductive Moves (buff : List α) (s : SystblFlush α) : FlushLabel α → SystblFlush α → Prop
  | host {l : Label α} {p : WritePath α} (h : Effect s.path l p) :
      Moves buff s (.host l) { s with path := p }
  | finish (hpc : s.pc = .head) (hleft : s.leftPpas = 0) :
      Moves buff s .loopHead { s with pc := .done }
  | next (hpc : s.pc = .head) (hleft : s.leftPpas ≠ 0) :
      Moves buff s .loopHead { s with pc := .retry }
  | sleep (hpc : s.pc = .retry) (hav : wcbAvailable s.path.ftl budget = .ok false) :
      Moves buff s .wcbSection s
  | alloc {r : AllocResult α} (hpc : s.pc = .retry) (hav : wcbAvailable s.path.ftl budget = .ok true)
      (hr : allocWcbCore s.path.ftl s.slba budget = .ok r) :
      Moves buff s .wcbSection { s.setFtl r.ftl with pc := .flush (ctxSlots r.ctxs) 0 }
  | copy {slot : Slot} {todo : List Slot} {idx : Nat} (hpc : s.pc = .flush (slot :: todo) idx) :
      Moves buff s .copySlot (s.copySlot buff slot todo idx)
  | advance {idx : Nat} (hpc : s.pc = .flush [] idx) : Moves buff s .advance s.advance

theorem step_moves {buff : List α} {s s' : SystblFlush α} {l : FlushLabel α}
    (h : s.step buff l = some s') : Moves buff s l s' := by
  cases l with
  | host l =>
    obtain ⟨p,hp,rfl⟩ := Option.map_eq_some_iff.mp h
    exact .host (step_effect hp)
  | loopHead =>
    simp only [step] at h
    split at h
    · rename_i hpc
      obtain rfl := Option.some.inj h
      by_cases hleft : s.leftPpas = 0
      · rw [if_pos hleft]
        exact .finish hpc hleft
      · rw [if_neg hleft]
        exact .next hpc hleft
    · cases h
  | wcbSection =>
    simp only [step] at h
    split at h
    · rename_i hpc
      unfold wcbSection at h
      cases hav : wcbAvailable s.path.ftl budget with
      | error x => simp [hav,Except.bind,Except.toOption] at h
      | ok b =>
        cases b with
        | false =>
          simp only [hav,Except.bind,Except.toOption,Bool.false_eq_true,if_false,Option.some.injEq] at h
          exact h ▸ .sleep hpc hav
        | true =>
          cases hr : allocWcbCore s.path.ftl s.slba budget with
          | error x => simp [hav,hr,Except.bind,Except.map,Except.toOption] at h
          | ok r =>
            simp only [hav,hr,Except.bind,Except.map,Except.toOption,if_true,Option.some.injEq] at h
            exact h ▸ .alloc hpc hav hr
    · cases h
  | copySlot =>
    simp only [step] at h
    split at h
    · rename_i hpc
      exact Option.some.inj h ▸ .copy hpc
    · cases h
  | advance =>
    simp only [step] at h
    split at h
    · rename_i hpc
      exact Option.some.inj h ▸ .advance hpc
    · cases h

theorem Moves.step {buff : List α} {s s' : SystblFlush α} {l : FlushLabel α} (h : Moves buff s l s') :
    s.step buff l = some s' := by
  cases h with
  | host h => simp only [SystblFlush.step,h.step,Option.map_some]
  | finish hpc hleft => simp only [SystblFlush.step,hpc,if_pos hleft]
  | next hpc hleft => simp only [SystblFlush.step,hpc,if_neg hleft]
  | sleep hpc hav =>
    simp only [SystblFlush.step,hpc,wcbSection,hav,Except.bind,Bool.false_eq_true,if_false,
      Except.toOption]
  | alloc hpc hav hr =>
    simp only [SystblFlush.step,hpc,wcbSection,hav,hr,Except.bind,Except.map,if_true,Except.toOption]
  | copy hpc => simp only [SystblFlush.step,hpc]
  | advance hpc => simp only [SystblFlush.step,hpc]

end SystblFlush

/-! ### One round of `flush_sysmeta_to_wcb` -/

def emptyBio : Bio α := ⟨0,[],(by decide : 0 * expPpaSize < 2^32)⟩

section Round

variable {f : Ftl α} {pend : List Slot} {infl : List (Nat × Nat)} {pl : Nat → Place} {eq fq : List Nat}
  {e₀ : Nat} {slot : Slot}

theorem extendLbaRsvd0_lt : extendLbaRsvd0 < 2^32 := by
  have h : usrFtltblSecNum = 381301 := by
    rw [usrFtltblSecNum,maxUserLba_eq]
    rfl
  rw [extendLbaRsvd0,extendLbaL1tbl,extendLbaVpctbl,extendLbaBmitbl,extendLbaUftl,extendLbaBase,
    l1tblSecNum,h,maxUserLba_eq]
  decide

theorem IsSysLba.not_user {lba : Nat} (h : IsSysLba lba) : ¬ lba ≤ maxUserLba :=
  Nat.not_le.mpr h.1

theorem putData_frame (f : Ftl α) (slot : Slot) (src : Option α) : Frame f (f.putData slot src) := by
  refine Frame.of_ent slot.1 rfl rfl (fun x hx => ent_setEnt_of_ne f slot.1 _ hx) ?_
  rw [Ftl.putData,ent_setEnt_self]
  exact ⟨rfl,rfl,rfl,rfl⟩

theorem putData_dataAt (f : Ftl α) (slot : Slot) (src : Option α) (x : Slot) :
    (f.putData slot src).dataAt x = if x = slot then src else f.dataAt x := by
  obtain ⟨e,p⟩ := x
  rcases eq_or_ne e slot.1 with rfl | he
  · rw [Ftl.dataAt,Ftl.putData,ent_setEnt_self]
    rcases eq_or_ne p slot.2 with rfl | hp
    · simp
    · rw [if_neg fun heq => hp (congrArg Prod.snd heq)]
      exact Function.update_of_ne hp _ _
  · rw [Ftl.dataAt,Ftl.putData,ent_setEnt_of_ne _ _ _ he,if_neg fun heq => he (congrArg Prod.fst heq)]
    rfl

theorem countFill_dataAt (f : Ftl α) (e : Nat) (x : Slot) : (f.countFill e).dataAt x = f.dataAt x := by
  have hset (n : Nat) : (f.setEnt e { f.ent e with fillCnt := n }).dataAt x = f.dataAt x := by
    rcases eq_or_ne x.1 e with he | he
    · simp only [Ftl.dataAt,he,ent_setEnt_self]
    · simp only [Ftl.dataAt,ent_setEnt_of_ne _ _ _ he]
  unfold Ftl.countFill
  dsimp only
  split
  · exact hset 0
  · exact hset _

theorem Conserved.putData (h : Conserved f pend infl pl eq fq e₀) (slot : Slot) (src : Option α) :
    Conserved (f.putData slot src) pend infl pl eq fq e₀ := by
  refine ⟨h.pool,h.isPart,h.empties,h.fulls,h.empty_iff,h.full_iff,h.open_iff,h.outside_iff,?_,
    h.outstanding⟩
  intro e
  rcases eq_or_ne e slot.1 with rfl | he
  · rw [Ftl.putData,ent_setEnt_self]
    exact (h.ents _).congr rfl rfl rfl
  · rw [Ftl.putData,ent_setEnt_of_ne _ _ _ he]
    exact h.ents e

/-- At a slot of a system table `flush_data_to_wcb` would only count. -/
theorem flushSlot_of_sysLba (bio : Bio α) (adv : Nat) (h : IsSysLba (f.lbaAt slot)) :
    (flushSlot f bio adv slot).1 = f.countFill slot.1 := by
  have hcopy : copyPage (f.ent slot.1) bio adv slot.2 = (f.ent slot.1,adv) := if_neg h.not_user
  unfold flushSlot Ftl.countFill
  rw [hcopy]
  dsimp only
  split <;> rfl

/-- A sector of the table is copied to its slot and to no other one. -/
theorem flushSysmetaSlot_dataAt (src : Option α) (h : IsSysLba (f.lbaAt slot)) (x : Slot) :
    (flushSysmetaSlot f src slot).dataAt x = if x = slot then src else f.dataAt x := by
  rw [flushSysmetaSlot,if_pos h,countFill_dataAt,putData_dataAt]

/-- The round is the round of `flush_data_to_wcb` after the sector was copied. -/
theorem flushSysmetaSlot_eq (src : Option α) (bio : Bio α) (adv : Nat) (h : IsSysLba (f.lbaAt slot)) :
    flushSysmetaSlot f src slot = (flushSlot (f.putData slot src) bio adv slot).1 := by
  have hput : IsSysLba ((f.putData slot src).lbaAt slot) := by rwa [(putData_frame f slot src).lbaAt]
  rw [flushSlot_of_sysLba bio adv hput,flushSysmetaSlot,if_pos h]

theorem Conserved.fill_iff {e p : Nat} (h : Conserved f ((e,p) :: pend) infl pl eq fq e₀) :
    (f.ent e).fillCnt + 1 = raidLunSecNum ↔ (f.ent e).pos = raidLunSecNum ∧ heldBy pend e = [] := by
  obtain ⟨hplace,hfill,-⟩ := h.filling_of_pending (e := e) List.mem_cons_self
  have hsum := hfill.fill
  rw [heldBy_cons_self,List.length_cons] at hsum
  constructor
  · intro hfull
    have hrest := (h.last_copy hfull).2
    rw [hrest,List.length_nil] at hsum
    exact ⟨by omega,hrest⟩
  · rintro ⟨hpos,hrest⟩
    rw [hrest,List.length_nil] at hsum
    omega

/-- A copied slot leaves the uncopied ones, and its entity is queued if it was the last of them. -/
theorem Conserved.copy {e p : Nat} (h : Conserved f ((e,p) :: pend) infl pl eq fq e₀) (bio : Bio α)
    (adv : Nat) : ∃ pl', Conserved (flushSlot f bio adv (e,p)).1 pend infl pl' eq
      (if (f.ent e).pos = raidLunSecNum ∧ heldBy pend e = [] then fq ++ [e] else fq) e₀ := by
  by_cases hfull : (f.ent e).fillCnt + 1 = raidLunSecNum
  · rw [if_pos (h.fill_iff.mp hfull)]
    exact ⟨_,h.copy_filled bio adv hfull⟩
  · rw [if_neg fun hlast => hfull (h.fill_iff.mpr hlast)]
    exact ⟨_,h.copy_unfilled bio adv hfull⟩

theorem Conserved.sysmetaCopy {e p : Nat} (h : Conserved f ((e,p) :: pend) infl pl eq fq e₀)
    (src : Option α) (hlba : IsSysLba (f.lbaAt (e,p))) :
    ∃ pl', Conserved (flushSysmetaSlot f src (e,p)) pend infl pl' eq
      (if (f.ent e).pos = raidLunSecNum ∧ heldBy pend e = [] then fq ++ [e] else fq) e₀ := by
  obtain ⟨pl',hcopy⟩ := (h.putData (e,p) src).copy emptyBio 0
  rw [(putData_frame f (e,p) src).pos] at hcopy
  rw [flushSysmetaSlot_eq src emptyBio 0 hlba]
  exact ⟨pl',hcopy⟩

theorem flushSysmetaSlot_frame (src : Option α) (h : IsSysLba (f.lbaAt slot)) :
    Frame f (flushSysmetaSlot f src slot) := by
  rw [flushSysmetaSlot_eq src emptyBio 0 h]
  exact (putData_frame f slot src).trans (flushSlot_frame _ _ _ _)

end Round

/-! ### The rest of the driver during a flush

To the other steps the slots of the flush are those of one more call, which takes no step. -/

/-- The write path with a further call that has the slots `todo` to copy. -/
def WritePath.beside (s : WritePath α) (todo : List Slot) : WritePath α :=
  { s with calls := ⟨emptyBio,.flush todo 0,[],[]⟩ :: s.calls }

/-- The label with every call one place further back. -/
def Label.further : Label α → Label α
  | .wcbSection i => .wcbSection (i + 1)
  | .copySlot i => .copySlot (i + 1)
  | .l2pSection i => .l2pSection (i + 1)
  | l => l

section Beside

variable {s s' : WritePath α} {l : Label α} {todo : List Slot}

theorem Effect.beside (h : Effect s l s') (todo : List Slot) :
    ∃ t, Effect (s.beside todo) l.further t ∧ t.ftl = s'.ftl ∧ t.calls = (s'.beside todo).calls ∧
      t.inflight = s'.inflight := by
  cases h with
  | begin bio => exact ⟨_,.begin bio,rfl,rfl,rfl⟩
  | @resubmit i c hc hpc hav => exact ⟨_,.resubmit (i := i + 1) hc hpc hav,rfl,rfl,rfl⟩
  | @alloc i c r hc hpc hav hr => exact ⟨_,.alloc (i := i + 1) hc hpc hav hr,rfl,rfl,rfl⟩
  | @copy i c slot td adv hc hpc => exact ⟨_,.copy (i := i + 1) hc hpc,rfl,rfl,rfl⟩
  | @map i c adv f hc hpc hf => exact ⟨_,.map (i := i + 1) hc hpc hf,rfl,rfl,rfl⟩
  | submit hp => exact ⟨_,.submit hp,rfl,rfl,rfl⟩
  | complete hm => exact ⟨_,.complete hm,rfl,rfl,rfl⟩

/-- Only a copy appends to `full_lun`. -/
theorem Shift.fulls_ne (h : Shift s s' l) (hl : ∀ i, l ≠ .copySlot i) (e : Nat) :
    s'.fulls ≠ s.fulls ++ [e] := by
  intro hpush
  have hlen := congrArg List.length hpush
  rw [List.length_append,List.length_singleton] at hlen
  cases h with
  | same l hl hplace hempties hfulls hpart =>
    rw [hfulls] at hlen
    omega
  | alloc i hpc hfulls hplace =>
    rw [hfulls] at hlen
    omega
  | filled i => exact hl i rfl
  | submitted x hfulls =>
    rw [hfulls,List.length_cons] at hlen
    omega
  | emptied x line hflight hplace hempties hfulls =>
    rw [hfulls] at hlen
    omega

theorem Effect.sane_beside (hs : (s.beside todo).Sane) (h : Effect s l s') :
    (s'.beside todo).Sane ∧ ((∀ i, l ≠ .copySlot i) → ∀ e, s'.fulls ≠ s.fulls ++ [e]) := by
  obtain ⟨t,ht,hftl,hcalls,hinfl⟩ := h.beside todo
  obtain ⟨hsane,hshift⟩ := ht.sane hs
  have hpend : t.pending = (s'.beside todo).pending := congrArg (List.flatMap BioCall.pending) hcalls
  constructor
  · have hcons : Conserved t.ftl t.pending t.inflight t.place t.empties t.fulls t.part := hsane
    rw [hftl,hpend,hinfl] at hcons
    exact Conserved.sane (s := s'.beside todo) hcons
  · intro hl e
    have hfulls : t.fulls = s'.fulls := by rw [WritePath.fulls,hftl,WritePath.fulls]
    rw [← hfulls]
    refine hshift.fulls_ne (fun i hi => ?_) e
    cases l with
    | copySlot j => exact hl j rfl
    | begin | wcbSection | l2pSection | submit | complete => cases hi

/-- A slot that waits for its copy keeps its LBA: an allocation hands out other slots. -/
theorem Effect.lbaAt_beside (hs : (s.beside todo).Sane) (h : Effect s l s') {slot : Slot}
    (hm : slot ∈ todo) : s'.ftl.lbaAt slot = s.ftl.lbaAt slot := by
  rcases h.frame with ⟨i,c,r,-,-,-,-,hr,rfl⟩ | hframe
  · obtain ⟨-,-,hall⟩ := allocWcbCore_sound hr
    have hcons : Conserved s.ftl (todo ++ s.pending) s.inflight (s.beside todo).place s.empties s.fulls
      s.part := hs
    obtain ⟨pl',eq',e',hcons',-⟩ := hcons.allotPages hall
    have hnew : slot ∉ ctxSlots r.ctxs := by
      intro hin
      have hold : slot ∈ todo ++ s.pending := List.mem_append_left _ hm
      obtain ⟨-,hfill,-⟩ := hcons'.filling_of_pending (List.mem_append_left _ hold)
      have hnodup := hfill.nodup
      rw [heldBy_append] at hnodup
      exact List.disjoint_of_nodup_append hnodup (mem_heldBy.mpr hold) (mem_heldBy.mpr hin)
    exact ((allotPages_written hcons.ready hall).2.2.2 slot hnew).1
  · exact hframe.lbaAt slot

end Beside

/-! ### Whole flushes -/

namespace SystblFlush

/-- What the variables of the flush say at each place of its code. -/
def AtPc (s : SystblFlush α) : Prop :=
  match s.pc with
  | .head => s.copied.length = s.databuf
  | .retry => s.copied.length = s.databuf ∧ 0 < s.leftPpas
  | .flush todo idx => s.copied.length = s.databuf + idx ∧ 0 < s.leftPpas ∧ todo.length + idx = 1 ∧
      ∀ slot ∈ todo, s.path.ftl.lbaAt slot = s.slba
  | .done => s.copied.length = s.databuf ∧ s.leftPpas = 0

/-- The invariant of a flush of `buff` to the LBAs from `slba` on. -/
structure Flushing (buff : List α) (slba : Nat) (s : SystblFlush α) : Prop where
  sane : (s.path.beside s.todo).Sane
  target : s.slba = slba + s.databuf
  left : s.leftPpas + s.databuf = buff.length
  order : ∀ k c, s.copied[k]? = some c → c.sector = k ∧ c.lba = slba + k
  atPc : s.AtPc

section Run

variable {buff : List α} {slba : Nat} {s s' : SystblFlush α} {l : FlushLabel α}

theorem Flushing.conserved (h : Flushing buff slba s) : Conserved s.path.ftl s.uncopied s.path.inflight
    (s.path.beside s.todo).place s.path.empties s.path.fulls s.path.part :=
  h.sane

theorem flushing_start {p : WritePath α} (hp : p.Sane) : Flushing buff slba (start p buff.length slba) where
  sane := Conserved.sane (s := p.beside []) hp
  target := rfl
  left := rfl
  order := by simp [start]
  atPc := rfl

/-- The sector at hand has an LBA of the system tables, and the `u32` variables do not wrap. -/
theorem Flushing.target_sys (h : Flushing buff slba s) (hrange : ∀ k, k < buff.length → IsSysLba (slba + k))
    (hleft : 0 < s.leftPpas) : IsSysLba s.slba ∧ s.slba + 1 < 2^32 ∧ s.leftPpas < 2^32 := by
  have hk := h.left
  have hsys := hrange s.databuf (by omega)
  have hlast := (hrange (buff.length - 1) (by omega)).2
  have hbound := extendLbaRsvd0_lt
  rw [← h.target] at hsys
  have hlt := hsys.2
  exact ⟨hsys,by omega,by omega⟩

/-- The section under `wcb_lock` hands out one slot, with the LBA of the sector at hand. -/
theorem Flushing.alloc (h : Flushing buff slba s) (hrange : ∀ k, k < buff.length → IsSysLba (slba + k))
    (hpc : s.pc = .retry) {r : AllocResult α} (hr : allocWcbCore s.path.ftl s.slba budget = .ok r) :
    (ctxSlots r.ctxs).length = 1 ∧ (∀ slot ∈ ctxSlots r.ctxs, r.ftl.lbaAt slot = s.slba) ∧
      (∀ x, x ∉ ctxSlots r.ctxs → r.ftl.lbaAt x = s.path.ftl.lbaAt x ∧
        r.ftl.ppaAt x = s.path.ftl.ppaAt x) ∧
      (∀ x, r.ftl.dataAt x = s.path.ftl.dataAt x) ∧
      ∃ pl' eq' e', Conserved r.ftl (ctxSlots r.ctxs ++ s.path.pending) s.path.inflight pl' eq'
        s.path.fulls e' := by
  have hat := h.atPc
  simp only [AtPc,hpc] at hat
  obtain ⟨-,hlt,-⟩ := h.target_sys hrange hat.2
  have hpost := allocWcbCore_post h.conserved.ready (allotCount_of_lt (by decide) (by decide)) hr
  obtain ⟨-,-,hall⟩ := allocWcbCore_sound hr
  obtain ⟨pl',eq',e',hcons,-⟩ := h.conserved.allotPages hall
  rw [uncopied,todo,hpc,List.nil_append] at hcons
  refine ⟨hpost.count,?_,hpost.offSlots,fun x => congrFun (hpost.data x.1) x.2,pl',eq',e',
    hcons.perm List.perm_append_comm (List.Perm.refl _)⟩
  intro slot hslot
  obtain ⟨k,hk⟩ := List.mem_iff_getElem?.mp hslot
  obtain ⟨hlen,-⟩ := List.getElem?_eq_some_iff.mp hk
  rw [hpost.count] at hlen
  obtain rfl : k = 0 := Nat.lt_one_iff.mp hlen
  rw [(hpost.written 0 slot hk).1,Nat.add_zero,Nat.mod_eq_of_lt (Nat.lt_of_succ_lt hlt)]

/-- At its one slot the flush finds the LBA of the sector at hand. -/
theorem Flushing.copy (h : Flushing buff slba s) (hrange : ∀ k, k < buff.length → IsSysLba (slba + k))
    {slot : Slot} {todo : List Slot} {idx : Nat} (hpc : s.pc = .flush (slot :: todo) idx) :
    todo = [] ∧ idx = 0 ∧ s.copied.length = s.databuf ∧ 0 < s.leftPpas ∧
      s.path.ftl.lbaAt slot = s.slba ∧ IsSysLba s.slba := by
  have hat := h.atPc
  simp only [AtPc,hpc] at hat
  obtain ⟨hlen,hleft,hone,hlba⟩ := hat
  rw [List.length_cons] at hone
  have hidx : idx = 0 := by omega
  refine ⟨List.length_eq_zero_iff.mp (by omega),hidx,?_,hleft,hlba slot List.mem_cons_self,
    (h.target_sys hrange hleft).1⟩
  rw [hlen,hidx,Nat.add_zero]

theorem Flushing.copy_conserved (h : Flushing buff slba s) {slot : Slot} (hpc : s.pc = .flush [slot] 0)
    (hsys : IsSysLba (s.path.ftl.lbaAt slot)) (src : Option α) :
    ∃ pl', Conserved (flushSysmetaSlot s.path.ftl src slot) s.path.pending s.path.inflight pl'
      s.path.empties (if (s.path.ftl.ent slot.1).pos = raidLunSecNum ∧ heldBy s.path.pending slot.1 = []
        then s.path.fulls ++ [slot.1] else s.path.fulls) s.path.part := by
  have hcons := h.conserved
  rw [uncopied,todo,hpc] at hcons
  exact hcons.sysmetaCopy src hsys

theorem copySlot_eq {slot : Slot} {todo : List Slot} {idx : Nat} (hlba : s.path.ftl.lbaAt slot = s.slba)
    (hsys : IsSysLba s.slba) : s.copySlot buff slot todo idx =
      { s.setFtl (flushSysmetaSlot s.path.ftl buff[s.databuf + idx]? slot) with
        pc := .flush todo (idx + 1)
        copied := s.copied ++ [⟨slot,s.slba,s.databuf + idx⟩] } := by
  simp only [copySlot,hlba,if_pos hsys]

private theorem order_append {cs : List SectorCopy} {c : SectorCopy}
    (h : ∀ k d, cs[k]? = some d → d.sector = k ∧ d.lba = slba + k)
    (hc : c.sector = cs.length ∧ c.lba = slba + cs.length) :
    ∀ k d, (cs ++ [c])[k]? = some d → d.sector = k ∧ d.lba = slba + k := by
  intro k d hk
  rcases Nat.lt_trichotomy k cs.length with hlt | rfl | hgt
  · rw [List.getElem?_append_left hlt] at hk
    exact h k d hk
  · rw [List.getElem?_concat_length] at hk
    exact Option.some.inj hk ▸ hc
  · rw [List.getElem?_eq_none (by rw [List.length_append,List.length_singleton]; omega)] at hk
    cases hk

theorem Moves.flushing (hrange : ∀ k, k < buff.length → IsSysLba (slba + k)) (h : Flushing buff slba s)
    (hm : Moves buff s l s') : Flushing buff slba s' := by
  have hat := h.atPc
  cases hm with
  | @host l p hl =>
    refine ⟨(hl.sane_beside h.sane).1,h.target,h.left,h.order,?_⟩
    cases hpc : s.pc with
    | flush td idx =>
      simp only [AtPc,hpc] at hat ⊢
      refine ⟨hat.1,hat.2.1,hat.2.2.1,fun slot hslot => ?_⟩
      have htodo : slot ∈ s.todo := by rwa [todo,hpc]
      exact (hl.lbaAt_beside h.sane htodo).trans (hat.2.2.2 slot hslot)
    | head | retry | done => simpa only [AtPc,hpc] using hat
  | finish hpc hleft =>
    have hsane := h.sane
    simp only [AtPc,hpc,todo] at hat hsane
    exact ⟨hsane,h.target,h.left,h.order,hat,hleft⟩
  | next hpc hleft =>
    have hsane := h.sane
    simp only [AtPc,hpc,todo] at hat hsane
    exact ⟨hsane,h.target,h.left,h.order,hat,Nat.pos_of_ne_zero hleft⟩
  | sleep hpc hav => exact h
  | @alloc r hpc hav hr =>
    simp only [AtPc,hpc] at hat
    obtain ⟨hlen,hlba,-,-,pl',eq',e',hcons⟩ := h.alloc hrange hpc hr
    exact ⟨Conserved.sane (s := { s.path with ftl := r.ftl }.beside (ctxSlots r.ctxs)) hcons,h.target,
      h.left,h.order,hat.1,hat.2,hlen,hlba⟩
  | @copy slot todo' idx hpc =>
    obtain ⟨rfl,rfl,hlen,hleft,hlba,hsys⟩ := h.copy hrange hpc
    obtain ⟨pl',hcopy⟩ := h.copy_conserved hpc (hlba.symm ▸ hsys) buff[s.databuf + 0]?
    rw [copySlot_eq hlba hsys]
    refine ⟨Conserved.sane (s := { s.path with ftl := _ }.beside []) hcopy,h.target,h.left,?_,?_,
      hleft,rfl,by simp⟩
    · exact order_append h.order ⟨hlen.symm,h.target.trans (congrArg (slba + ·) hlen.symm)⟩
    · rw [List.length_append,List.length_singleton,hlen]
      rfl
  | @advance idx hpc =>
    simp only [AtPc,hpc,List.length_nil,Nat.zero_add] at hat
    obtain ⟨hlen,hleft,rfl,-⟩ := hat
    obtain ⟨-,hlt,hleft'⟩ := h.target_sys hrange hleft
    have htarget := h.target
    have htotal := h.left
    have hsane := h.sane
    simp only [todo,hpc] at hsane
    refine ⟨hsane,?_,?_,h.order,hlen⟩
    · simp only [SystblFlush.advance,budget]
      omega
    · simp only [SystblFlush.advance,budget]
      omega

theorem Flushing.of_reaches {s₀ : SystblFlush α} (hrange : ∀ k, k < buff.length → IsSysLba (slba + k))
    (h : Flushing buff slba s₀) (hrun : Reaches (step buff) always s₀ s) : Flushing buff slba s :=
  hrun.invariant (Flushing buff slba) h fun _ _ _ ht _ hl => (step_moves hl).flushing hrange ht

/-- A step queues an entity for the writer thread exactly if it copies a slot of it, all slots of the
entity are allotted and none of them, the host's or the flush's, is left to copy. -/
def PushesFilled (s : SystblFlush α) (l : FlushLabel α) (s' : SystblFlush α) : Prop :=
  ∀ e, s'.path.fulls = s.path.fulls ++ [e] ↔ (∃ p, s.copying l = some (e,p)) ∧
    (s.path.ftl.ent e).pos = raidLunSecNum ∧ heldBy s'.uncopied e = []

private theorem pushesFilled_of_copy {slot : Slot} (hslot : s.copying l = some slot)
    (h : s'.path.fulls = if (s.path.ftl.ent slot.1).pos = raidLunSecNum ∧ heldBy s'.uncopied slot.1 = []
      then s.path.fulls ++ [slot.1] else s.path.fulls) : PushesFilled s l s' := by
  intro e
  constructor
  · intro hpush
    split_ifs at h with hlast
    · rw [h,List.append_cancel_left_eq,List.cons.injEq] at hpush
      obtain rfl := hpush.1
      exact ⟨⟨slot.2,hslot⟩,hlast⟩
    · rw [h] at hpush
      simp at hpush
  · rintro ⟨⟨p,hp⟩,hlast⟩
    obtain rfl : slot = (e,p) := Option.some.inj (hslot.symm.trans hp)
    rwa [if_pos hlast] at h

private theorem pushesFilled_of_ne (hslot : s.copying l = none)
    (h : ∀ e, s'.path.fulls ≠ s.path.fulls ++ [e]) : PushesFilled s l s' := by
  intro e
  rw [hslot]
  exact ⟨fun hpush => absurd hpush (h e),fun ⟨⟨_,hp⟩,_⟩ => nomatch hp⟩

private theorem pushesFilled_of_eq (hslot : s.copying l = none) (h : s'.path.fulls = s.path.fulls) :
    PushesFilled s l s' :=
  pushesFilled_of_ne hslot fun e hpush => by simp [h] at hpush

theorem Flushing.host_pushes (h : Flushing buff slba s) {l : Label α} {p : WritePath α}
    (hl : Effect s.path l p) : PushesFilled s (.host l) { s with path := p } := by
  obtain ⟨-,hnone⟩ := hl.sane_beside h.sane
  cases hl with
  | @copy i c slot td adv hc hpc =>
    have hcp : c.pending = slot :: td := by simp [BioCall.pending,hpc]
    obtain ⟨rest,hold,hnew⟩ := pending_set hc
    rw [hcp] at hold
    let p' : WritePath α := { s.path with
      ftl := (flushSlot s.path.ftl c.bio adv slot).1
      calls := s.path.calls.set i { c with pc := .flush td (flushSlot s.path.ftl c.bio adv slot).2 } }
    have hperm : s.uncopied.Perm (slot :: (s.todo ++ (td ++ rest))) :=
      (hold.append_left s.todo).trans List.perm_middle
    obtain ⟨pl',hcopy⟩ := (h.conserved.perm hperm (List.Perm.refl _)).copy c.bio adv
    have hperm' : (s.todo ++ p'.pending).Perm (s.todo ++ (td ++ rest)) := (hnew _).append_left s.todo
    have hheld : heldBy (s.todo ++ (td ++ rest)) slot.1 = [] ↔ heldBy (s.todo ++ p'.pending) slot.1 = [] := by
      rw [← List.length_eq_zero_iff,← List.length_eq_zero_iff,(heldBy_perm hperm' slot.1).length_eq]
    simp only [hheld] at hcopy
    have hslot : s.copying (.host (.copySlot i)) = some slot := by simp [copying,hc,hcp]
    exact pushesFilled_of_copy hslot hcopy.fulls.toList_eq
  | begin | resubmit | alloc | map | submit | complete => exact pushesFilled_of_ne rfl (hnone fun i hi => by cases hi)

theorem Moves.pushesFilled (hrange : ∀ k, k < buff.length → IsSysLba (slba + k))
    (h : Flushing buff slba s) (hm : Moves buff s l s') : PushesFilled s l s' := by
  cases hm with
  | host hl => exact h.host_pushes hl
  | @alloc r hpc hav hr =>
    obtain ⟨-,-,-,-,pl',eq',e',hcons⟩ := h.alloc hrange hpc hr
    exact pushesFilled_of_eq rfl hcons.fulls.toList_eq
  | @copy slot td idx hpc =>
    obtain ⟨rfl,rfl,-,-,hlba,hsys⟩ := h.copy hrange hpc
    obtain ⟨pl',hcopy⟩ := h.copy_conserved hpc (hlba.symm ▸ hsys) buff[s.databuf + 0]?
    have hslot : s.copying .copySlot = some slot := by simp [copying,todo,hpc]
    exact pushesFilled_of_copy hslot hcopy.fulls.toList_eq
  | finish | next | sleep | advance => exact pushesFilled_of_eq rfl rfl

/-- A step of the flush copies nothing, or one sector of the buffer to a slot with the sector's LBA. -/
def WritesSector (buff : List α) (s s' : SystblFlush α) : Prop :=
  (s'.copied = s.copied ∧ ∀ x, s'.path.ftl.dataAt x = s.path.ftl.dataAt x) ∨
    ∃ c page, s'.copied = s.copied ++ [c] ∧ buff[c.sector]? = some page ∧
      s.path.ftl.lbaAt c.slot = c.lba ∧
      ∀ x, s'.path.ftl.dataAt x = if x = c.slot then some page else s.path.ftl.dataAt x

/-- LBA, PPA and data of `x` are as before. -/
def SameSlot (s s' : SystblFlush α) (x : Slot) : Prop :=
  s'.path.ftl.lbaAt x = s.path.ftl.lbaAt x ∧ s'.path.ftl.ppaAt x = s.path.ftl.ppaAt x ∧
    s'.path.ftl.dataAt x = s.path.ftl.dataAt x

theorem Moves.writes (hrange : ∀ k, k < buff.length → IsSysLba (slba + k)) (h : Flushing buff slba s)
    (hown : l.Own) (hm : Moves buff s l s') : WritesSector buff s s' ∧
      ∀ x, x ∉ s.todo → x ∉ s'.todo → SameSlot s s' x := by
  cases hm with
  | host hl => exact hown.elim
  | @alloc r hpc hav hr =>
    obtain ⟨-,-,hoff,hdata,-⟩ := h.alloc hrange hpc hr
    exact ⟨.inl ⟨rfl,hdata⟩,fun x _ hx => ⟨(hoff x hx).1,(hoff x hx).2,hdata x⟩⟩
  | @copy slot td idx hpc =>
    obtain ⟨rfl,rfl,hlen,hleft,hlba,hsys⟩ := h.copy hrange hpc
    have hin : s.databuf + 0 < buff.length := by
      have := h.left
      omega
    have hdata := flushSysmetaSlot_dataAt buff[s.databuf + 0]? (hlba.symm ▸ hsys)
    have hframe := flushSysmetaSlot_frame buff[s.databuf + 0]? (hlba.symm ▸ hsys)
    rw [copySlot_eq hlba hsys]
    constructor
    · refine .inr ⟨_,buff[s.databuf + 0],rfl,List.getElem?_eq_getElem hin,hlba,fun x => ?_⟩
      rw [← List.getElem?_eq_getElem hin]
      exact hdata x
    · intro x hx _
      have hne : x ≠ slot := fun hxs => hx (by simp [todo,hpc,hxs])
      exact ⟨hframe.lbaAt x,hframe.ppaAt x,(hdata x).trans (if_neg hne)⟩
  | finish | next | sleep | advance => exact ⟨.inl ⟨rfl,fun _ => rfl⟩,fun _ _ _ => ⟨rfl,rfl,rfl⟩⟩

/-- The flush never halts before it is done; without room it repeats its locked section. -/
theorem Flushing.runs (h : Flushing buff slba s) (hdone : s.pc ≠ .done) :
    ∃ l s', l.Own ∧ s.step buff l = some s' := by
  cases hpc : s.pc with
  | head =>
    by_cases hleft : s.leftPpas = 0
    · exact ⟨.loopHead,_,trivial,(Moves.finish hpc hleft).step⟩
    · exact ⟨.loopHead,_,trivial,(Moves.next hpc hleft).step⟩
  | retry =>
    have hready := h.conserved.ready
    obtain ⟨free,hpool⟩ := h.conserved.pool
    have hav := wcbAvailable_eq hready (n := budget) (by decide)
    generalize (!_ : Bool) = b at hav
    cases b with
    | false => exact ⟨.wcbSection,_,trivial,(Moves.sleep hpc hav).step⟩
    | true =>
      obtain ⟨r,hr,-⟩ := allocWcbCore_of_ready hready hpool s.slba (by decide) (by decide) hav
      exact ⟨.wcbSection,_,trivial,(Moves.alloc hpc hav hr).step⟩
  | flush td idx =>
    cases td with
    | nil => exact ⟨.advance,_,trivial,(Moves.advance hpc).step⟩
    | cons slot td => exact ⟨.copySlot,_,trivial,(Moves.copy hpc).step⟩
  | done => exact absurd hpc hdone

theorem Moves.remaining (hrange : ∀ k, k < buff.length → IsSysLba (slba + k)) (h : Flushing buff slba s)
    (hown : l.Own) (hm : Moves buff s l s') :
    (s' = s ∧ s.pc = .retry ∧ wcbAvailable s.path.ftl budget = .ok false) ∨
      s'.remaining + 1 = s.remaining := by
  have hat := h.atPc
  cases hm with
  | host hl => exact hown.elim
  | finish hpc hleft =>
    refine .inr ?_
    simp only [SystblFlush.remaining,hpc,hleft]
  | next hpc hleft =>
    refine .inr ?_
    simp only [SystblFlush.remaining,hpc]
  | sleep hpc hav => exact .inl ⟨rfl,hpc,hav⟩
  | @alloc r hpc hav hr =>
    simp only [AtPc,hpc] at hat
    have hone := (h.alloc hrange hpc hr).1
    refine .inr ?_
    simp only [SystblFlush.remaining,hpc,hone,setFtl]
    omega
  | @copy slot td idx hpc =>
    refine .inr ?_
    simp only [SystblFlush.remaining,copySlot,setFtl,hpc,List.length_cons]
    omega
  | @advance idx hpc =>
    simp only [AtPc,hpc] at hat
    obtain ⟨-,-,hleft⟩ := h.target_sys hrange hat.2.1
    refine .inr ?_
    simp only [SystblFlush.remaining,SystblFlush.advance,hpc,budget,List.length_nil]
    omega

theorem Moves.remaining_le (hrange : ∀ k, k < buff.length → IsSysLba (slba + k))
    (h : Flushing buff slba s) (hm : Moves buff s l s') : s'.remaining ≤ s.remaining := by
  by_cases hown : l.Own
  · rcases hm.remaining hrange h hown with ⟨rfl,-⟩ | hless
    · exact Nat.le_refl _
    · omega
  · cases hm with
    | host hl => exact Nat.le_refl _
    | finish | next | sleep | alloc | copy | advance => exact absurd trivial hown

/-- An endless run with the flush in it. Until the flush is done it takes further steps, and again and
again `wcb_available` holds when it asks. -/
structure Fair (buff : List α) (run : Nat → SystblFlush α) (label : Nat → FlushLabel α) : Prop where
  steps : ∀ n, (run n).step buff (label n) = some (run (n + 1))
  served : ∀ n, (run n).pc ≠ .done → ∃ m, n ≤ m ∧ (label m).Own ∧
    ((run m).pc = .retry → wcbAvailable (run m).path.ftl budget = .ok true)

theorem Fair.finishes {run : Nat → SystblFlush α} {label : Nat → FlushLabel α}
    (hrange : ∀ k, k < buff.length → IsSysLba (slba + k)) (hfair : Fair buff run label)
    (h : Flushing buff slba (run 0)) : ∃ n, (run n).pc = .done ∧ Flushing buff slba (run n) := by
  have hinv (n : Nat) : Flushing buff slba (run n) := by
    induction n with
    | zero => exact h
    | succ n ih => exact (step_moves (hfair.steps n)).flushing hrange ih
  have hanti : Antitone fun n => (run n).remaining :=
    antitone_nat_of_succ_le fun n => (step_moves (hfair.steps n)).remaining_le hrange (hinv n)
  -- The measure drops with every step of the flush in which it does not sleep.
  have hdone (r : Nat) : ∀ n, (run n).remaining = r → ∃ n, (run n).pc = .done := by
    induction r using Nat.strong_induction_on with
    | _ r ih =>
      rintro n rfl
      by_cases hpc : (run n).pc = .done
      · exact ⟨n,hpc⟩
      · obtain ⟨m,hnm,hown,hav⟩ := hfair.served n hpc
        have hle : (run m).remaining ≤ (run n).remaining := hanti hnm
        rcases (step_moves (hfair.steps m)).remaining hrange (hinv m) hown with ⟨-,hretry,hno⟩ | hless
        · rw [hav hretry] at hno
          cases hno
        · exact ih _ (by omega) (m + 1) rfl
  obtain ⟨n,hn⟩ := hdone _ 0 rfl
  exact ⟨n,hn,hinv n⟩

end Run

/-- What every state of a flush of `buff` to the LBAs from `slba` on satisfies. -/
structure LosesNoSector (buff : List α) (slba : Nat) (s : SystblFlush α) : Prop where
  /-- The `k`-th copy is that of sector `k`, and its slot has the LBA `slba + k`. -/
  order : ∀ k c, s.copied[k]? = some c → c.sector = k ∧ c.lba = slba + k
  count : s.copied.length ≤ buff.length
  complete : s.pc = .done → s.copied.length = buff.length
  writes : ∀ l s', l.Own → s.step buff l = some s' → WritesSector buff s s'
  /-- A slot that the flush does not hold before or after its step is as before. -/
  others : ∀ l s', l.Own → s.step buff l = some s' → ∀ x, x ∉ s.todo → x ∉ s'.todo → SameSlot s s' x
  host : ∀ l s', s.step buff (.host l) = some s' → s'.copied = s.copied
  pushes : ∀ l s', s.step buff l = some s' → PushesFilled s l s'
  runs : s.pc ≠ .done → ∃ l s', l.Own ∧ s.step buff l = some s'

theorem Flushing.losesNoSector {buff : List α} {slba : Nat} {s : SystblFlush α}
    (hrange : ∀ k, k < buff.length → IsSysLba (slba + k)) (h : Flushing buff slba s) :
    LosesNoSector buff slba s where
  order := h.order
  count := by
    have hat := h.atPc
    have hleft := h.left
    cases hpc : s.pc with
    | head | retry | flush | done =>
      simp only [AtPc,hpc] at hat
      omega
  complete hdone := by
    have hat := h.atPc
    have hleft := h.left
    simp only [AtPc,hdone] at hat
    omega
  writes _ _ hown hl := ((step_moves hl).writes hrange h hown).1
  others _ _ hown hl := ((step_moves hl).writes hrange h hown).2
  host l s' hl := by
    obtain ⟨p,-,rfl⟩ := Option.map_eq_some_iff.mp hl
    rfl
  pushes _ _ hl := (step_moves hl).pushesFilled hrange h
  runs := h.runs

end SystblFlush

/-- Whatever the host, the writer thread and the interrupts do before and during a flush of a system
table: each sector is copied once, in order, to a slot with its LBA, nothing else is written, and an
entity is queued with the last copy of its slots. If `wcb_available` holds again and again, the flush
ends, and then all sectors are copied. -/
theorem systbl_flush_loses_no_sector {mcp : Bool} {d : Discovery} {b : BootPages} {dma : Nat → EntityDma}
    {f₀ : Ftl α} {p : WritePath α} {buff : List α} {slba : Nat} {s : SystblFlush α}
    (hinit : fscftlModuleInit mcp d b dma = .ok (some f₀))
    (hhost : Reaches WritePath.step always (WritePath.init f₀) p)
    (hrange : ∀ k, k < buff.length → IsSysLba (slba + k))
    (hrun : Reaches (SystblFlush.step buff) always (SystblFlush.start p buff.length slba) s) :
    s.LosesNoSector buff slba ∧ ∀ run label, SystblFlush.Fair buff run label → run 0 = s →
      ∃ n, (run n).pc = .done ∧ (run n).copied.length = buff.length := by
  obtain ⟨free,hboot,-,-⟩ := fscftlModuleInit_booted hinit
  have hp := sane_of_reaches (sane_init hboot) hhost
  have hs := (SystblFlush.flushing_start hp).of_reaches hrange hrun
  refine ⟨hs.losesNoSector hrange,?_⟩
  rintro run label hfair rfl
  obtain ⟨n,hdone,hn⟩ := hfair.finishes hrange hs
  exact ⟨n,hdone,(hn.losesNoSector hrange).complete hdone⟩

/-- A table of one sector, flushed to its end. -/
theorem systbl_flush_loses_no_sector_one : ∃ (f₀ : Ftl Nat) (s : SystblFlush Nat),
    fscftlModuleInit true .clean ⟨true,true⟩ (fun _ => ⟨0,0,0⟩) = .ok (some f₀) ∧
    Reaches (SystblFlush.step [7]) always
      (SystblFlush.start (WritePath.init f₀) 1 extendLbaVpctbl) s ∧
    s.pc = .done ∧ s.LosesNoSector [7] extendLbaVpctbl := by
  obtain ⟨f₀,free,hinit,hboot,-⟩ := manufactory_booted (α := Nat) .clean ⟨true,true⟩
    (fun _ => ⟨0,0,0⟩)
  have hrange : ∀ k, k < [7].length → IsSysLba (extendLbaVpctbl + k) := by
    intro k hk
    obtain rfl : k = 0 := Nat.lt_one_iff.mp hk
    have hnum : 1 ≤ vpctblSecNum := by decide
    constructor
    · simp only [extendLbaVpctbl,extendLbaBmitbl,extendLbaUftl]
      omega
    · simp only [extendLbaRsvd0,extendLbaL1tbl]
      omega
  let s₀ : SystblFlush Nat := SystblFlush.start (WritePath.init f₀) 1 extendLbaVpctbl
  let s₁ : SystblFlush Nat := { s₀ with pc := .retry }
  have h₁ : SystblFlush.Moves [7] s₀ .loopHead s₁ := .next rfl Nat.one_ne_zero
  have hs₁ := h₁.flushing hrange (SystblFlush.flushing_start (sane_init hboot))
  have hav : wcbAvailable f₀ SystblFlush.budget = .ok true := by
    refine (wcbAvailable_eq hboot.ready (by decide)).trans ?_
    rw [(hboot.zero 0).1]
    rfl
  obtain ⟨free',hpool⟩ := hs₁.conserved.pool
  obtain ⟨r,hr,-⟩ := allocWcbCore_of_ready hs₁.conserved.ready hpool extendLbaVpctbl (by decide)
    (by decide) hav
  have h₂ : SystblFlush.Moves [7] s₁ .wcbSection _ := .alloc rfl hav hr
  obtain ⟨slot,hslot⟩ := List.length_eq_one_iff.mp (h₂.flushing hrange hs₁).atPc.2.2.1
  rw [hslot] at h₂
  let s₂ : SystblFlush Nat := { s₁.setFtl r.ftl with pc := .flush [slot] 0 }
  let s₃ : SystblFlush Nat := s₂.copySlot [7] slot [] 0
  have h₃ : SystblFlush.Moves [7] s₂ .copySlot s₃ := .copy rfl
  have h₄ : SystblFlush.Moves [7] s₃ .advance s₃.advance := .advance rfl
  have h₅ : SystblFlush.Moves [7] s₃.advance .loopHead { s₃.advance with pc := .done } :=
    .finish rfl (by decide : (1 + (2^32 - 1)) % 2^32 = 0)
  have hrun : Reaches (SystblFlush.step [7]) always s₀ { s₃.advance with pc := .done } :=
    ((((Reaches.single trivial h₁.step).tail trivial h₂.step).tail trivial h₃.step).tail
    trivial h₄.step).tail trivial h₅.step
  exact ⟨f₀,_,hinit,hrun,rfl,(systbl_flush_loses_no_sector hinit (Reaches.refl _) hrange hrun).1⟩

end Sdssd.Host
