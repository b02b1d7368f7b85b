import Sdssd.Framework.Steps
import Sdssd.Host.PageOrder

/-!
# The write path as an interleaving of atomic steps

Any number of `process_write_bio` calls, the writer thread and the completion interrupts share the
write cache. A step is one locked section, the copy of one slot, one submission of a full entity or
one line completion. A step that would run into a `BUG_ON` or a bad pointer does not exist.
-/

namespace Sdssd.Host

open Framework

variable {α : Type}

/-- A write bio of whole pages; `bi_size` is an `unsigned int`. -/
structure Bio (α : Type) where
  biSector : Nat
  pages : List α
  size_lt : pages.length * expPpaSize < 2^32

def getBioSlba (bio : Bio α) : Nat := bio.biSector / secPerPpa

def getBioNppa (bio : Bio α) : Nat := bio.pages.length * expPpaSize / expPpaSize

@[simp] theorem getBioNppa_eq (bio : Bio α) : getBioNppa bio = bio.pages.length :=
  Nat.mul_div_cancel _ (by decide)

/-- The block layer passes only bios inside the capacity that `nvm_create_exns` sets. -/
def Bio.InCapacity (bio : Bio α) : Prop := getBioSlba bio + getBioNppa bio ≤ maxUserLba + 1

inductive BioRet
  | complete
  | resubmit
  deriving DecidableEq, Repr

/-- Where a `process_write_bio` call stands. In `flush` the remaining slots and the number of pages
that `bio_advance` has passed are kept. -/
inductive CallPc
  | start
  | flush (todo : List Slot) (adv : Nat)
  | returned (ret : BioRet)
  deriving DecidableEq, Repr

/-- A call with its on-stack `wcb_resource`; `ppas` records what the allocator wrote for it. -/
structure BioCall (α : Type) where
  bio : Bio α
  pc : CallPc
  wcbResource : List WcbCtx
  ppas : List Nat

def BioCall.slots (c : BioCall α) : List Slot := ctxSlots c.wcbResource

def BioCall.slba (c : BioCall α) : Nat := getBioSlba c.bio

def BioCall.nrPpas (c : BioCall α) : Nat := getBioNppa c.bio

/-- Slots allotted to the call and not yet copied. -/
def BioCall.pending (c : BioCall α) : List Slot :=
  match c.pc with
  | .flush todo _ => todo
  | _ => []

/-- The tables, the calls in the order they began, and the entity and line of every command whose
completion is outstanding. `owner` (call and page offset for which a slot was last allotted) and
`programmed` (stripes submitted so far) are history. -/
structure WritePath (α : Type) where
  ftl : Ftl α
  calls : List (BioCall α)
  inflight : List (Nat × Nat)
  owner : Slot → Option (Nat × Nat)
  programmed : List GeoPpa

def WritePath.init (f : Ftl α) : WritePath α := ⟨f,[],[],fun _ => none,[]⟩

def WritePath.pending (s : WritePath α) : List Slot := s.calls.flatMap BioCall.pending

def WritePath.setCall (s : WritePath α) (i : Nat) (c : BioCall α) : WritePath α :=
  { s with calls := s.calls.set i c }

def Ftl.pushEmpty (f : Ftl α) (e : Nat) : Ftl α :=
  let r := pushLunEntityToFifo f.wcb.emptyLun f.wcb.link e
  f.setEmpty r.1 r.2

def Ftl.pushFull (f : Ftl α) (e : Nat) : Ftl α :=
  let r := pushLunEntityToFifo f.wcb.fullLun f.wcb.link e
  f.setFull r.1 r.2

/-- Copy the bio's current page into slot `pos` and advance the bio, if the slot holds a user LBA. -/
def copyPage (x : WcbLunEntity α) (bio : Bio α) (adv pos : Nat) : WcbLunEntity α × Nat :=
  if x.lba pos ≤ maxUserLba then
    ({ x with data := Function.update x.data pos bio.pages[adv]? },adv + 1)
  else (x,adv)

/-- One round of the loop in `flush_data_to_wcb`: the tables and the advance of the bio. -/
def flushSlot (f : Ftl α) (bio : Bio α) (adv : Nat) (slot : Slot) : Ftl α × Nat :=
  let r := copyPage (f.ent slot.1) bio adv slot.2
  if r.1.fillCnt + 1 = raidLunSecNum then
    ((f.setEnt slot.1 { r.1 with fillCnt := 0 }).pushFull slot.1,r.2)
  else (f.setEnt slot.1 { r.1 with fillCnt := r.1.fillCnt + 1 },r.2)

/-- `set_l2ptbl_write_path`: LBA and PPA are read from the entities again, the PPA cut to a `u32`. -/
def setL2ptblWritePath (f : Ftl α) (wcbResource : List WcbCtx) : Except Fault (Ftl α) :=
  (setL2ptblAll f.map ((ctxSlots wcbResource).map fun s => (f.lbaAt s,BitVec.ofNat 32 (f.ppaAt s)))).map
    fun m => { f with map := m }

/-- One of the NVMe commands of a full entity: bus addresses of the slices and `nlb`. -/
structure PpaCommand where
  idx : Nat
  ppalist : Nat
  metadata : Nat
  databuf : Nat
  nlb : Nat
  deriving DecidableEq, Repr

def lineCommand (x : WcbLunEntity α) (line : Nat) : PpaCommand :=
  { idx := line
    ppalist := x.ppaDma + line * cfgNandChannelNum * 8
    metadata := x.metaDma + line * cfgNandChannelNum * nandMetaSize
    databuf := x.vdata + line * cfgNandChannelNum * expPpaSize
    nlb := cfgNandChannelNum - 1 }

/-- The tables after `nvme_wrppa_lun`, and the commands it submits. -/
def nvmeWrppaLun (f : Ftl α) (e : Nat) : Ftl α × List PpaCommand :=
  let f := { f with wcb := { f.wcb with outstandingLun := f.wcb.outstandingLun + 1 } }
  let f := f.setEnt e { f.ent e with cqeFlag := 0 }
  (f,(List.range cfgDriveLineNum).map (lineCommand (f.ent e)))

/-- `submit_write_backend`; `none` when `full_lun` is empty. -/
def submitWriteBackend (f : Ftl α) : Option (Nat × Ftl α × List PpaCommand) :=
  (pullLunEntityFromFifo f.wcb.fullLun f.wcb.link).map fun (e,q,ln) =>
    (e,nvmeWrppaLun (f.setFull q ln) e)

def bit2Mask (width : Nat) : Nat := 1 <<< width - 1

/-- `cqe_flag` after the completion of line `idx`; a line that completes twice is only reported. -/
def lineFlag (flag idx : Nat) : Nat := if flag.testBit idx then flag else (flag ||| 1 <<< idx) % 2^16

/-- `wrppa_lun_completion` up to the test of the requeue list. -/
def wrppaLunCompletion (f : Ftl α) (e idx : Nat) : Ftl α :=
  let flag := lineFlag (f.ent e).cqeFlag idx
  let f := f.setEnt e { f.ent e with cqeFlag := flag }
  if flag = bit2Mask cfgDriveLineNum % 2^16 then
    let f := f.pushEmpty e
    { f with wcb := { f.wcb with outstandingLun := f.wcb.outstandingLun - 1 } }
  else f

/-- Who moves, and where. -/
inductive Label (α : Type)
  | begin (bio : Bio α)
  | wcbSection (i : Nat)
  | copySlot (i : Nat)
  | l2pSection (i : Nat)
  | submit
  | complete (e line : Nat)

/-- The state after call `i` was allotted its slots. -/
def WritePath.allotted (s : WritePath α) (i : Nat) (c : BioCall α) (r : AllocResult α) : WritePath α :=
  { s with
    ftl := r.ftl
    calls := s.calls.set i ⟨c.bio,.flush (ctxSlots r.ctxs) 0,r.ctxs,r.ppas⟩
    owner := fun slot =>
      match (ctxSlots r.ctxs).idxOf? slot with
      | some j => some (i,j)
      | none => s.owner slot }

/-- The section of `process_write_bio` under `wcb_lock`; the return value of the allocator is not
looked at. -/
def wcbSection (s : WritePath α) (i : Nat) (c : BioCall α) : Except Fault (WritePath α) :=
  (wcbAvailable s.ftl c.nrPpas).bind fun available =>
    if available then
      (allocWcbCore s.ftl c.slba c.nrPpas).map (s.allotted i c)
    else
      (printLunEntitysFifo s.ftl).map fun _ => s.setCall i { c with pc := .returned .resubmit }

def WritePath.step (s : WritePath α) : Label α → Option (WritePath α)
  | .begin bio => some { s with calls := s.calls ++ [⟨bio,.start,[],[]⟩] }
  | .wcbSection i => s.calls[i]?.bind fun c =>
      match c.pc with
      | .start => (wcbSection s i c).toOption
      | _ => none
  | .copySlot i => s.calls[i]?.bind fun c =>
      match c.pc with
      | .flush (slot :: todo) adv =>
        let r := flushSlot s.ftl c.bio adv slot
        some { s with ftl := r.1, calls := s.calls.set i { c with pc := .flush todo r.2 } }
      | _ => none
  | .l2pSection i => s.calls[i]?.bind fun c =>
      match c.pc with
      | .flush [] _ => (setL2ptblWritePath s.ftl c.wcbResource).toOption.map fun f =>
          { s with ftl := f, calls := s.calls.set i { c with pc := .returned .complete } }
      | _ => none
  | .submit => (submitWriteBackend s.ftl).map fun (e,f,cmds) =>
      { s with
        ftl := f
        inflight := s.inflight ++ cmds.map fun cmd => (e,cmd.idx)
        programmed := s.programmed ++ [(s.ftl.ent e).baddr] }
  | .complete e line =>
      if (e,line) ∈ s.inflight then
        some { s with ftl := wrppaLunCompletion s.ftl e line, inflight := s.inflight.erase (e,line) }
      else none

/-- Everything a step can do, with the conditions under which it does it. -/
inductive Effect (s : WritePath α) : Label α → WritePath α → Prop
  | begin (bio : Bio α) : Effect s (.begin bio) { s with calls := s.calls ++ [⟨bio,.start,[],[]⟩] }
  | resubmit {i : Nat} {c : BioCall α} (hc : s.calls[i]? = some c) (hpc : c.pc = .start)
      (hav : wcbAvailable s.ftl c.nrPpas = .ok false) :
      Effect s (.wcbSection i) (s.setCall i { c with pc := .returned .resubmit })
  | alloc {i : Nat} {c : BioCall α} {r : AllocResult α} (hc : s.calls[i]? = some c)
      (hpc : c.pc = .start) (hav : wcbAvailable s.ftl c.nrPpas = .ok true)
      (hr : allocWcbCore s.ftl c.slba c.nrPpas = .ok r) :
      Effect s (.wcbSection i) (s.allotted i c r)
  | copy {i : Nat} {c : BioCall α} {slot : Slot} {todo : List Slot} {adv : Nat}
      (hc : s.calls[i]? = some c) (hpc : c.pc = .flush (slot :: todo) adv) :
      Effect s (.copySlot i) { s with
        ftl := (flushSlot s.ftl c.bio adv slot).1
        calls := s.calls.set i { c with pc := .flush todo (flushSlot s.ftl c.bio adv slot).2 } }
  | map {i : Nat} {c : BioCall α} {adv : Nat} {f : Ftl α} (hc : s.calls[i]? = some c)
      (hpc : c.pc = .flush [] adv) (hf : setL2ptblWritePath s.ftl c.wcbResource = .ok f) :
      Effect s (.l2pSection i) { s with
        ftl := f
        calls := s.calls.set i { c with pc := .returned .complete } }
  | submit {e : Nat} {q : Fifo} {ln : Nat → Link}
      (hp : s.ftl.wcb.fullLun.pull s.ftl.wcb.link = some (e,q,ln)) :
      Effect s .submit { s with
        ftl := (nvmeWrppaLun (s.ftl.setFull q ln) e).1
        inflight := s.inflight ++ (nvmeWrppaLun (s.ftl.setFull q ln) e).2.map fun cmd => (e,cmd.idx)
        programmed := s.programmed ++ [(s.ftl.ent e).baddr] }
  | complete {e line : Nat} (hm : (e,line) ∈ s.inflight) :
      Effect s (.complete e line) { s with
        ftl := wrppaLunCompletion s.ftl e line
        inflight := s.inflight.erase (e,line) }

private theorem wcbAvailable_partial {f : Ftl α} {n : Nat} {b : Bool} (h : wcbAvailable f n = .ok b) :
    ∃ e, f.wcb.partialEntity = some e := by
  cases hp : f.wcb.partialEntity with
  | none => simp [wcbAvailable,hp] at h
  | some e => exact ⟨e,rfl⟩

theorem step_effect {s s' : WritePath α} {l : Label α} (h : s.step l = some s') : Effect s l s' := by
  cases l with
  | begin bio =>
    obtain rfl := Option.some.inj h
    exact .begin bio
  | wcbSection i =>
    obtain ⟨c,hc,h⟩ := Option.bind_eq_some_iff.mp h
    split at h
    · rename_i hpc
      unfold wcbSection at h
      cases hav : wcbAvailable s.ftl c.nrPpas with
      | error x => simp [hav,Except.bind,Except.toOption] at h
      | ok b =>
        cases b with
        | true =>
          cases hr : allocWcbCore s.ftl c.slba c.nrPpas with
          | error x => simp [hav,hr,Except.bind,Except.map,Except.toOption] at h
          | ok r =>
            simp only [hav,hr,Except.bind,Except.map,Except.toOption,if_true,Option.some.injEq] at h
            exact h ▸ .alloc hc hpc hav hr
        | false =>
          obtain ⟨e,he⟩ := wcbAvailable_partial hav
          simp only [hav,Except.bind,Except.map,Except.toOption,Bool.false_eq_true,if_false,
            printLunEntitysFifo,he,Option.some.injEq] at h
          exact h ▸ .resubmit hc hpc hav
    · simp at h
  | copySlot i =>
    obtain ⟨c,hc,h⟩ := Option.bind_eq_some_iff.mp h
    split at h
    · rename_i hpc
      exact Option.some.inj h ▸ .copy hc hpc
    · simp at h
  | l2pSection i =>
    obtain ⟨c,hc,h⟩ := Option.bind_eq_some_iff.mp h
    split at h
    · rename_i hpc
      cases hf : setL2ptblWritePath s.ftl c.wcbResource with
      | error x => simp [hf,Except.toOption] at h
      | ok f =>
        simp only [hf,Except.toOption,Option.map_some,Option.some.injEq] at h
        exact h ▸ .map hc hpc hf
    · simp at h
  | submit =>
    simp only [WritePath.step,submitWriteBackend,pullLunEntityFromFifo,Option.map_map,
      Option.map_eq_some_iff] at h
    obtain ⟨⟨e,q,ln⟩,hp,rfl⟩ := h
    exact .submit hp
  | complete e line =>
    simp only [WritePath.step,Option.ite_none_right_eq_some,Option.some.injEq] at h
    exact h.2 ▸ .complete h.1

theorem Effect.step {s s' : WritePath α} {l : Label α} (h : Effect s l s') : s.step l = some s' := by
  cases h with
  | begin bio => rfl
  | resubmit hc hpc hav =>
    obtain ⟨e,he⟩ := wcbAvailable_partial hav
    simp only [WritePath.step,hc,Option.bind_some,hpc,wcbSection,hav,Except.bind,Except.map,
      Bool.false_eq_true,if_false,printLunEntitysFifo,he,Except.toOption]
  | alloc hc hpc hav hr =>
    simp only [WritePath.step,hc,Option.bind_some,hpc,wcbSection,hav,hr,Except.bind,Except.map,
      if_true,Except.toOption]
  | copy hc hpc => simp only [WritePath.step,hc,Option.bind_some,hpc]
  | map hc hpc hf => simp only [WritePath.step,hc,Option.bind_some,hpc,hf,Except.toOption,Option.map_some]
  | submit hp =>
    simp only [WritePath.step,submitWriteBackend,pullLunEntityFromFifo,hp,Option.map_some]
  | complete hm => simp only [WritePath.step,hm,if_true]

/-! ### What the primitive operations leave alone -/

section Primitives

variable (f : Ftl α) (e : Nat) (bio : Bio α) (adv : Nat) (slot : Slot)

@[simp] theorem ent_pushEmpty (x : Nat) : (f.pushEmpty e).ent x = f.ent x := rfl

@[simp] theorem ent_pushFull (x : Nat) : (f.pushFull e).ent x = f.ent x := rfl

theorem flushSlot_eq : flushSlot f bio adv slot =
    let x := f.ent slot.1
    let r := copyPage x bio adv slot.2
    if x.fillCnt + 1 = raidLunSecNum then
      ((f.setEnt slot.1 { x with data := r.1.data, fillCnt := 0 }).pushFull slot.1,r.2)
    else (f.setEnt slot.1 { x with data := r.1.data, fillCnt := x.fillCnt + 1 },r.2) := by
  unfold flushSlot copyPage
  by_cases h : (f.ent slot.1).lba slot.2 ≤ maxUserLba
  · simp only [h,if_true]
  · simp only [h,if_false]

theorem flushSlot_ent_of_ne {x : Nat} (h : x ≠ slot.1) :
    (flushSlot f bio adv slot).1.ent x = f.ent x := by
  rw [flushSlot_eq]
  dsimp only
  split <;> simp [h]

theorem flushSlot_ent_self : (flushSlot f bio adv slot).1.ent slot.1 = { f.ent slot.1 with
    data := (copyPage (f.ent slot.1) bio adv slot.2).1.data
    fillCnt := if (f.ent slot.1).fillCnt + 1 = raidLunSecNum then 0 else (f.ent slot.1).fillCnt + 1 } := by
  rw [flushSlot_eq]
  dsimp only
  split <;> simp only [ent_pushFull,ent_setEnt_self]

theorem flushSlot_snd : (flushSlot f bio adv slot).2 = (copyPage (f.ent slot.1) bio adv slot.2).2 := by
  rw [flushSlot_eq]
  dsimp only
  split <;> rfl

/-- The queues after a copy: a filled entity is appended to `full_lun`. -/
theorem flushSlot_wcb : (flushSlot f bio adv slot).1.wcb =
    if (f.ent slot.1).fillCnt + 1 = raidLunSecNum then
      { f.wcb with
        lunEntitys := (flushSlot f bio adv slot).1.wcb.lunEntitys
        fullLun := (f.wcb.fullLun.push f.wcb.link slot.1).1
        link := (f.wcb.fullLun.push f.wcb.link slot.1).2 }
    else { f.wcb with lunEntitys := (flushSlot f bio adv slot).1.wcb.lunEntitys } := by
  rw [flushSlot_eq]
  dsimp only
  split <;> rfl

theorem flushSlot_sys : (flushSlot f bio adv slot).1.sys = f.sys := by
  unfold flushSlot
  dsimp only
  split <;> rfl

theorem flushSlot_map : (flushSlot f bio adv slot).1.map = f.map := by
  unfold flushSlot
  dsimp only
  split <;> rfl

theorem wrppaLunCompletion_ent_of_ne {x : Nat} (idx : Nat) (h : x ≠ e) :
    (wrppaLunCompletion f e idx).ent x = f.ent x := by
  unfold wrppaLunCompletion
  dsimp only
  split
  · exact ent_setEnt_of_ne f e _ h
  · exact ent_setEnt_of_ne f e _ h

theorem wrppaLunCompletion_ent_self (idx : Nat) :
    (wrppaLunCompletion f e idx).ent e = { f.ent e with cqeFlag := lineFlag (f.ent e).cqeFlag idx } := by
  unfold wrppaLunCompletion
  dsimp only
  split
  · exact ent_setEnt_self f e _
  · exact ent_setEnt_self f e _

/-- The queues after a completion: with its last line the entity is appended to `empty_lun`. -/
theorem wrppaLunCompletion_wcb (idx : Nat) : (wrppaLunCompletion f e idx).wcb =
    if lineFlag (f.ent e).cqeFlag idx = 255 then
      { f.wcb with
        lunEntitys := (wrppaLunCompletion f e idx).wcb.lunEntitys
        emptyLun := (f.wcb.emptyLun.push f.wcb.link e).1
        link := (f.wcb.emptyLun.push f.wcb.link e).2
        outstandingLun := f.wcb.outstandingLun - 1 }
    else { f.wcb with lunEntitys := (wrppaLunCompletion f e idx).wcb.lunEntitys } := by
  unfold wrppaLunCompletion
  rw [show bit2Mask cfgDriveLineNum % 2^16 = 255 from rfl]
  dsimp only
  split <;> rfl

theorem wrppaLunCompletion_sys (idx : Nat) : (wrppaLunCompletion f e idx).sys = f.sys := by
  unfold wrppaLunCompletion
  dsimp only
  split <;> rfl

theorem wrppaLunCompletion_map (idx : Nat) : (wrppaLunCompletion f e idx).map = f.map := by
  unfold wrppaLunCompletion
  dsimp only
  split <;> rfl

end Primitives

/-- Steps other than an allocation keep stripes, positions, LBAs and PPAs of all entities, the open
entity and the block tables. -/
structure Frame (f f' : Ftl α) : Prop where
  sys : f'.sys = f.sys
  isPart : f'.wcb.partialEntity = f.wcb.partialEntity
  baddr : ∀ e, (f'.ent e).baddr = (f.ent e).baddr
  pos : ∀ e, (f'.ent e).pos = (f.ent e).pos
  lba : ∀ e, (f'.ent e).lba = (f.ent e).lba
  ppa : ∀ e, (f'.ent e).ppa = (f.ent e).ppa

theorem Frame.refl (f : Ftl α) : Frame f f :=
  ⟨rfl,rfl,fun _ => rfl,fun _ => rfl,fun _ => rfl,fun _ => rfl⟩

theorem Frame.trans {f g h : Ftl α} (hfg : Frame f g) (hgh : Frame g h) : Frame f h :=
  ⟨hgh.sys.trans hfg.sys,hgh.isPart.trans hfg.isPart,fun e => (hgh.baddr e).trans (hfg.baddr e),
    fun e => (hgh.pos e).trans (hfg.pos e),fun e => (hgh.lba e).trans (hfg.lba e),
    fun e => (hgh.ppa e).trans (hfg.ppa e)⟩

theorem Frame.lbaAt {f f' : Ftl α} (h : Frame f f') (s : Slot) : f'.lbaAt s = f.lbaAt s := by
  rw [Ftl.lbaAt,h.lba]
  rfl

theorem Frame.ppaAt {f f' : Ftl α} (h : Frame f f') (s : Slot) : f'.ppaAt s = f.ppaAt s := by
  rw [Ftl.ppaAt,h.ppa]
  rfl

theorem Frame.frontier {f f' : Ftl α} {all : List Nat} {k : Nat} (h : Frame f f')
    (hf : Frontier f all k) : Frontier f' all k :=
  hf.congr h.sys h.isPart fun e _ => ⟨h.baddr e,h.pos e⟩

/-- A step that changes one entity is framed when that entity keeps the four fields. -/
theorem Frame.of_ent {f f' : Ftl α} (e : Nat) (hsys : f'.sys = f.sys)
    (hpart : f'.wcb.partialEntity = f.wcb.partialEntity) (hne : ∀ x, x ≠ e → f'.ent x = f.ent x)
    (he : (f'.ent e).baddr = (f.ent e).baddr ∧ (f'.ent e).pos = (f.ent e).pos ∧
      (f'.ent e).lba = (f.ent e).lba ∧ (f'.ent e).ppa = (f.ent e).ppa) : Frame f f' := by
  obtain ⟨hb,hp,hl,hpp⟩ := he
  refine ⟨hsys,hpart,?_,?_,?_,?_⟩ <;> intro x <;> by_cases hx : x = e
  · rw [hx,hb]
  · rw [hne x hx]
  · rw [hx,hp]
  · rw [hne x hx]
  · rw [hx,hl]
  · rw [hne x hx]
  · rw [hx,hpp]
  · rw [hne x hx]

theorem flushSlot_frame (f : Ftl α) (bio : Bio α) (adv : Nat) (slot : Slot) :
    Frame f (flushSlot f bio adv slot).1 := by
  refine Frame.of_ent slot.1 (flushSlot_sys ..) ?_ (fun x hx => flushSlot_ent_of_ne f bio adv slot hx) ?_
  · rw [flushSlot_wcb]
    split <;> rfl
  · rw [flushSlot_ent_self]
    exact ⟨rfl,rfl,rfl,rfl⟩

theorem wrppaLunCompletion_frame (f : Ftl α) (e idx : Nat) : Frame f (wrppaLunCompletion f e idx) := by
  refine Frame.of_ent e (wrppaLunCompletion_sys ..) ?_
    (fun x hx => wrppaLunCompletion_ent_of_ne f e idx hx) ?_
  · rw [wrppaLunCompletion_wcb]
    split <;> rfl
  · rw [wrppaLunCompletion_ent_self]
    exact ⟨rfl,rfl,rfl,rfl⟩

theorem nvmeWrppaLun_ent_of_ne (f : Ftl α) {e x : Nat} (h : x ≠ e) : (nvmeWrppaLun f e).1.ent x = f.ent x :=
  ent_setEnt_of_ne _ e _ h

theorem nvmeWrppaLun_ent_self (f : Ftl α) (e : Nat) :
    (nvmeWrppaLun f e).1.ent e = { f.ent e with cqeFlag := 0 } :=
  ent_setEnt_self _ e _

theorem nvmeWrppaLun_lines (f : Ftl α) (e : Nat) :
    (nvmeWrppaLun f e).2.map (fun cmd => (e,cmd.idx)) =
      (List.range cfgDriveLineNum).map fun line => (e,line) := by
  simp only [nvmeWrppaLun,List.map_map]
  rfl

theorem nvmeWrppaLun_frame (f : Ftl α) (e : Nat) : Frame f (nvmeWrppaLun f e).1 := by
  refine Frame.of_ent e rfl rfl (fun x hx => nvmeWrppaLun_ent_of_ne f hx) ?_
  rw [nvmeWrppaLun_ent_self]
  exact ⟨rfl,rfl,rfl,rfl⟩

theorem setL2ptblWritePath_ok {f f' : Ftl α} {ctxs : List WcbCtx}
    (h : setL2ptblWritePath f ctxs = .ok f') :
    f'.wcb = f.wcb ∧ f'.sys = f.sys ∧ setL2ptblAll f.map
      ((ctxSlots ctxs).map fun s => (f.lbaAt s,BitVec.ofNat 32 (f.ppaAt s))) = .ok f'.map := by
  unfold setL2ptblWritePath at h
  cases hm : setL2ptblAll f.map
      ((ctxSlots ctxs).map fun s => (f.lbaAt s,BitVec.ofNat 32 (f.ppaAt s))) with
  | error x => simp [hm,Except.map] at h
  | ok m =>
    simp only [hm,Except.map,Except.ok.injEq] at h
    subst h
    exact ⟨rfl,rfl,rfl⟩

theorem setL2ptblWritePath_ent {f f' : Ftl α} {ctxs : List WcbCtx}
    (h : setL2ptblWritePath f ctxs = .ok f') (e : Nat) : f'.ent e = f.ent e := by
  rw [Ftl.ent,(setL2ptblWritePath_ok h).1]
  rfl

theorem setL2ptblWritePath_frame {f f' : Ftl α} {ctxs : List WcbCtx}
    (h : setL2ptblWritePath f ctxs = .ok f') : Frame f f' := by
  obtain ⟨hwcb,hsys,-⟩ := setL2ptblWritePath_ok h
  refine ⟨hsys,by rw [hwcb],?_,?_,?_,?_⟩ <;> intro e <;> rw [setL2ptblWritePath_ent h]

theorem submit_frame (f : Ftl α) (q : Fifo) (ln : Nat → Link) (e : Nat) :
    Frame f (nvmeWrppaLun (f.setFull q ln) e).1 := by
  have h := nvmeWrppaLun_frame (f.setFull q ln) e
  exact ⟨h.sys,h.isPart,h.baddr,h.pos,h.lba,h.ppa⟩

theorem nvmeWrppaLun_data (f : Ftl α) (e x : Nat) : ((nvmeWrppaLun f e).1.ent x).data = (f.ent x).data := by
  rcases eq_or_ne x e with rfl | hx
  · rw [nvmeWrppaLun_ent_self]
  · rw [nvmeWrppaLun_ent_of_ne f hx]

theorem wrppaLunCompletion_data (f : Ftl α) (e idx x : Nat) :
    ((wrppaLunCompletion f e idx).ent x).data = (f.ent x).data := by
  rcases eq_or_ne x e with rfl | hx
  · rw [wrppaLunCompletion_ent_self]
  · rw [wrppaLunCompletion_ent_of_ne f e idx hx]

/-- A step is an allocation, or it is framed. -/
theorem Effect.frame {s s' : WritePath α} {l : Label α} (h : Effect s l s') :
    (∃ i c r, l = .wcbSection i ∧ s.calls[i]? = some c ∧ c.pc = .start ∧
      wcbAvailable s.ftl c.nrPpas = .ok true ∧ allocWcbCore s.ftl c.slba c.nrPpas = .ok r ∧
      s' = s.allotted i c r) ∨ Frame s.ftl s'.ftl := by
  cases h with
  | alloc hc hpc hav hr => exact Or.inl ⟨_,_,_,rfl,hc,hpc,hav,hr,rfl⟩
  | begin bio => exact Or.inr (Frame.refl _)
  | resubmit hc hpc hav => exact Or.inr (Frame.refl _)
  | copy hc hpc => exact Or.inr (flushSlot_frame _ _ _ _)
  | map hc hpc hf => exact Or.inr (setL2ptblWritePath_frame hf)
  | submit hp => exact Or.inr (submit_frame _ _ _ _)
  | complete hm => exact Or.inr (wrppaLunCompletion_frame _ _ _)

section Calls

variable {s s' : WritePath α} {l : Label α}

/-- The call of `process_write_bio` that takes the step. -/
def Label.caller : Label α → Option Nat
  | .wcbSection i => some i
  | .copySlot i => some i
  | .l2pSection i => some i
  | _ => none

theorem Effect.call_of_ne (h : Effect s l s') {k : Nat} {c : BioCall α} (hk : l.caller ≠ some k)
    (hc : s.calls[k]? = some c) : s'.calls[k]? = some c := by
  have hset {i : Nat} (hi : some i ≠ some k) (d : BioCall α) : (s.calls.set i d)[k]? = some c :=
    (List.getElem?_set_ne fun he => hi (congrArg some he)).trans hc
  cases h with
  | begin bio => exact (List.getElem?_append_left (List.getElem?_eq_some_iff.mp hc).1).trans hc
  | resubmit => exact hset hk _
  | alloc => exact hset hk _
  | copy => exact hset hk _
  | map => exact hset hk _
  | submit => exact hc
  | complete => exact hc

theorem Effect.call_self (h : Effect s l s') {k : Nat} (hk : l.caller = some k) :
    ∃ c c', s.calls[k]? = some c ∧ s'.calls[k]? = some c' ∧ c'.bio = c.bio ∧
      ∀ ret, c.pc ≠ .returned ret := by
  cases h with
  | begin bio => cases hk
  | resubmit hc hpc =>
    obtain rfl := Option.some.inj hk
    exact ⟨_,_,hc,getElem?_set_of_some hc _,rfl,by simp [hpc]⟩
  | alloc hc hpc =>
    obtain rfl := Option.some.inj hk
    exact ⟨_,_,hc,getElem?_set_of_some hc _,rfl,by simp [hpc]⟩
  | copy hc hpc =>
    obtain rfl := Option.some.inj hk
    exact ⟨_,_,hc,getElem?_set_of_some hc _,rfl,by simp [hpc]⟩
  | map hc hpc =>
    obtain rfl := Option.some.inj hk
    exact ⟨_,_,hc,getElem?_set_of_some hc _,rfl,by simp [hpc]⟩
  | submit => cases hk
  | complete => cases hk

/-- A call that has returned stays as it is. -/
theorem Effect.call_returned (h : Effect s l s') {k : Nat} {c : BioCall α} {ret : BioRet}
    (hc : s.calls[k]? = some c) (hpc : c.pc = .returned ret) : s'.calls[k]? = some c := by
  refine h.call_of_ne (fun hk => ?_) hc
  obtain ⟨d,-,hd,-,-,hret⟩ := h.call_self hk
  obtain rfl : c = d := Option.some.inj (hc.symm.trans hd)
  exact hret ret hpc

theorem Effect.call_bio (h : Effect s l s') {k : Nat} {c : BioCall α} (hc : s.calls[k]? = some c) :
    ∃ c', s'.calls[k]? = some c' ∧ c'.bio = c.bio := by
  by_cases hk : l.caller = some k
  · obtain ⟨d,d',hd,hd',hbio,-⟩ := h.call_self hk
    obtain rfl : c = d := Option.some.inj (hc.symm.trans hd)
    exact ⟨d',hd',hbio⟩
  · exact ⟨c,h.call_of_ne hk hc,rfl⟩

end Calls

end Sdssd.Host
