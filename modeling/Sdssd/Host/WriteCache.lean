import Sdssd.Host.L2pTable

/-!
# Write-cache LUN entities and the page allocator

`wcb-mngr.c` and the allocation half of `bio-wr.c`. An entity buffers the 128 pages of one LUN
stripe; `alloc_wcb_core` hands out its slots in order and opens the next entity, and with it the
next stripe address, whenever one is used up.
-/

namespace Sdssd.Host

open Framework

variable {α : Type}

/-- `struct wcb_lun_entity`. The page contents are abstract, `none` being memory no one has
written; the FIFO links are kept in `WcbLunGctl.link`. -/
structure WcbLunEntity (α : Type) where
  baddr : GeoPpa
  vdata : Nat
  metaDma : Nat
  ppaDma : Nat
  data : Nat → Option α
  ppa : Nat → Nat
  lba : Nat → Nat
  cqeFlag : Nat
  pos : Nat
  fillCnt : Nat

/-- `struct wcb_lun_gctl`: the entity array, the two FIFOs in use and the entity being allotted. -/
structure WcbLunGctl (α : Type) where
  lunEntitys : Nat → WcbLunEntity α
  link : Nat → Link
  emptyLun : Fifo
  fullLun : Fifo
  partialEntity : Option Nat
  outstandingLun : Int

/-- The driver's global tables. -/
structure Ftl (α : Type) where
  wcb : WcbLunGctl α
  sys : SysTbl
  map : L2pTbl

def Ftl.ent (f : Ftl α) (e : Nat) : WcbLunEntity α := f.wcb.lunEntitys e

def Ftl.setEnt (f : Ftl α) (e : Nat) (x : WcbLunEntity α) : Ftl α :=
  { f with wcb := { f.wcb with lunEntitys := Function.update f.wcb.lunEntitys e x } }

def Ftl.setPartial (f : Ftl α) (p : Option Nat) : Ftl α :=
  { f with wcb := { f.wcb with partialEntity := p } }

def Ftl.setEmpty (f : Ftl α) (q : Fifo) (ln : Nat → Link) : Ftl α :=
  { f with wcb := { f.wcb with emptyLun := q, link := ln } }

def Ftl.setFull (f : Ftl α) (q : Fifo) (ln : Nat → Link) : Ftl α :=
  { f with wcb := { f.wcb with fullLun := q, link := ln } }

def pushLunEntityToFifo (fifo : Fifo) (ln : Nat → Link) (e : Nat) : Fifo × (Nat → Link) :=
  fifo.push ln e

def pullLunEntityFromFifo (fifo : Fifo) (ln : Nat → Link) : Option (Nat × Fifo × (Nat → Link)) :=
  fifo.pull ln

/-- `print_lun_entitys_fifo` reads `partial->pos`. -/
def printLunEntitysFifo (f : Ftl α) : Except Fault Unit :=
  match f.wcb.partialEntity with
  | none => .error .nullDeref
  | some _ => .ok ()

/-- `INCRE_BOUNDED` on an unsigned variable of `width` bits. -/
def increBounded (width n bits : Nat) : Nat × Bool :=
  if (n + 1) % 2^width = 2^bits then (0,true) else ((n + 1) % 2^width,false)

/-- `IF_CARRY_THEN_INCRE_BOUNDED`. -/
def ifCarryThenIncreBounded (carry : Bool) (width n bits : Nat) : Nat × Bool :=
  if carry then increBounded width n bits else (n,false)

/-- The stripe after `curppa`: next LUN, else next page, else the first of a fresh block. -/
def getNextEntityBaddr (t : SysTbl) (curppa : GeoPpa) : Except Fault (GeoPpa × SysTbl) :=
  let lun := increBounded 8 (Nand.lun.get curppa) lnBits
  let pg := ifCarryThenIncreBounded lun.2 16 (Nand.pg.get curppa) pgBits
  (if pg.2 then getBlkFromFreeList t else .ok (Nand.blk.get curppa,t)).map fun (blk,t) =>
    (setNandFields curppa 0 0 0 lun.1 pg.1 (blk % 2^16),t)

/-- Pull an empty entity and give it the stripe after `curppa`. When there is none, the partial
pointer is cleared and then dereferenced by the debug print. -/
def getNextLunEntity (f : Ftl α) (curppa : GeoPpa) : Except Fault (Option Nat × Ftl α) :=
  match pullLunEntityFromFifo f.wcb.emptyLun f.wcb.link with
  | none =>
    let f := f.setPartial none
    (printLunEntitysFifo f).map fun _ => (none,f)
  | some (e,q,ln) =>
    (getNextEntityBaddr f.sys curppa).map fun (baddr,sys) =>
      let x := { f.ent e with baddr := baddr, pos := 0, cqeFlag := 0, fillCnt := 0 }
      (some e,{ ((f.setEmpty q ln).setEnt e x).setPartial (some e) with sys := sys })

/-- Pull an empty entity and position it at `startppa`, which may lie inside a stripe. -/
def getLunEntity (f : Ftl α) (startppa : GeoPpa) : Option Nat × Ftl α :=
  match pullLunEntityFromFifo f.wcb.emptyLun f.wcb.link with
  | none => (none,f)
  | some (e,q,ln) =>
    let pos := Nand.ch.get startppa ||| Nand.sec.get startppa <<< chBits |||
      Nand.pl.get startppa <<< (chBits + epBits)
    let baddr := Nand.pl.set (Nand.sec.set (Nand.ch.set startppa 0) 0) 0
    let x := { f.ent e with baddr := baddr, pos := pos, cqeFlag := 0 }
    (some e,((f.setEmpty q ln).setEnt e x).setPartial (some e))

/-- `struct wcb_ctx`: the slots `startPos..endPos` of one entity. -/
structure WcbCtx where
  entity : Nat
  startPos : Nat
  endPos : Nat
  deriving DecidableEq, Repr

/-- An entity and a slot position in it. -/
abbrev Slot := Nat × Nat

/-- The slots that the loops over one context visit, in order. -/
def WcbCtx.slots (c : WcbCtx) : List Slot :=
  (List.range' c.startPos (c.endPos + 1 - c.startPos)).map (fun p => (c.entity,p))

/-- The used part of a `struct wcb_bio_ctx`, in loop order. -/
def ctxSlots (ctxs : List WcbCtx) : List Slot := ctxs.flatMap WcbCtx.slots

/-- `PPA_TYPE`. -/
inductive PpaType
  | usrData
  | dummyData
  | badBlk
  | xorParity
  | firstLog
  | ftlLog
  deriving DecidableEq, Repr

/-- Every check of `sys_get_ppa_type` is commented out. -/
def sysGetPpaType (_ : GeoPpa) : PpaType := .usrData

/-- Undo an allocation: the first entity becomes partial again, the others return to `empty_lun`. -/
def wcbEntityContextRestore (f : Ftl α) (ctxs : List WcbCtx) : Ftl α :=
  match ctxs with
  | [] => f
  | c :: cs =>
    let f := (f.setPartial (some c.entity)).setEnt c.entity { f.ent c.entity with pos := c.startPos }
    cs.foldl (fun f c =>
      let r := pushLunEntityToFifo f.wcb.emptyLun f.wcb.link c.entity
      f.setEmpty r.1 r.2) f

/-- The variables of the loop in `alloc_wcb_core`; `done` are the contexts `bio_wcb[0..num-1]` and
`cur` is `bio_wcb[num]`. -/
structure AllocVars (α : Type) where
  ftl : Ftl α
  entity : Nat
  curppa : GeoPpa
  slba : Nat
  leftLen : Nat
  done : List WcbCtx
  cur : WcbCtx

/-- What `alloc_wcb_core` leaves: its return value, the tables and the filled contexts. -/
structure AllocResult (α : Type) where
  ret : Nat
  ftl : Ftl α
  ctxs : List WcbCtx

/-- Write LBA and PPA into the slot at `pos` and advance `pos`. -/
def Ftl.writeSlot (f : Ftl α) (e lba : Nat) (ppa : GeoPpa) : Ftl α :=
  let x := f.ent e
  f.setEnt e { x with
    lba := Function.update x.lba x.pos (lba % 2^32)
    ppa := Function.update x.ppa x.pos ppa.toNat
    pos := x.pos + 1 }

/-- One pass through the `while` loop: either the variables for the next pass, or the result. A
page type other than `USR_DATA` changes nothing, so the loop comes round with the same page. -/
def allocBody (v : AllocVars α) : Except Fault (AllocVars α ⊕ AllocResult α) :=
  match sysGetPpaType v.curppa with
  | .usrData =>
    let leftLen := u32Dec v.leftLen
    let pos := (v.ftl.ent v.entity).pos
    let cur := { v.cur with endPos := pos }
    let f := v.ftl.writeSlot v.entity v.slba v.curppa
    if pos + 1 = raidLunSecNum then
      (getNextLunEntity f v.curppa).bind fun
        | (none,f) =>
          .ok (.inr ⟨1,wcbEntityContextRestore f (v.done ++ [cur]),v.done ++ [cur]⟩)
        | (some e,f) =>
          if leftLen = 0 then .ok (.inr ⟨0,f,v.done ++ [cur]⟩)
          else if maxUsedWcbEntitys ≤ v.done.length + 1 then .error .ctxOverrun
          else
            let p := (f.ent e).pos
            .ok (.inl ⟨f,e,(f.ent e).baddr,v.slba + 1,leftLen,v.done ++ [cur],⟨e,p,p⟩⟩)
    else if leftLen = 0 then .ok (.inr ⟨0,f,v.done ++ [cur]⟩)
    else .ok (.inl ⟨f,v.entity,v.curppa + 1,v.slba + 1,leftLen,v.done,cur⟩)
  | _ => .ok (.inl v)

def allocLoop : Nat → AllocVars α → Except Fault (AllocResult α)
  | 0, _ => .error .noReturn
  | fuel+1, v => (allocBody v).bind fun
    | .inl v => allocLoop fuel v
    | .inr r => .ok r

/-- `alloc_wcb_core`. The count is a `u32` that is decremented before it is tested, so the loop
makes at most `2^32` passes over user pages. -/
def allocWcbCore (f : Ftl α) (slba nrPpas : Nat) : Except Fault (AllocResult α) :=
  match f.wcb.partialEntity with
  | none => .error .bugOn
  | some e =>
    let pos := (f.ent e).pos
    allocLoop (2^32) ⟨f,e,(f.ent e).baddr + BitVec.ofNat 32 pos,slba,nrPpas % 2^32,[],⟨e,pos,pos⟩⟩

/-- `wcb_available`: a request that may reach the end of the partial entity needs an empty one. -/
def wcbAvailable (f : Ftl α) (nrPpas : Nat) : Except Fault Bool :=
  match f.wcb.partialEntity with
  | none => .error .nullDeref
  | some e =>
    let extra := ((nrPpas >>> 2) + 2) % 2^16
    let left := (raidLunSecNum + 2^16 - (f.ent e).pos) % 2^16
    .ok (!(decide (left ≤ nrPpas + extra) && f.wcb.emptyLun.size == 0))

end Sdssd.Host
