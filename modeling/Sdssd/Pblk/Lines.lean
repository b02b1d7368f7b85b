import Sdssd.Pblk.WriteBuffer

/-!
# Lines

A line is one block of every LUN. `pblk-core.c` keeps for each line which of its sectors have been
mapped and which hold no valid data any more, and keeps every line that is not in use on one list:
the free lines, the bad ones, and the closed ones grouped by how much of them is still valid.
-/

namespace Sdssd.Pblk

open Framework

/-- What `pblk_core_init` and `pblk_lines_init` derive from the geometry, and the size of the ring. -/
structure Config where
  ring : RingSize
  /-- `rl.nr_secs`. -/
  nrSecs : Nat
  minWritePgs : Nat
  maxWritePgs : Nat
  secPerLine : Nat
  emetaSec : Nat
  midThrs : Nat
  highThrs : Nat
  min_pos : 0 < minWritePgs
  min_le_max : minWritePgs ≤ maxWritePgs

/-- `PBLK_LINESTATE_X`. -/
inductive LineState
  | free
  | opened
  | closed
  | gc
  | bad
  | corrupt
  deriving DecidableEq, Repr

/-- `PBLK_LINEGC_X`. -/
inductive GcGroup
  | none
  | empty
  | low
  | mid
  | high
  | full
  deriving DecidableEq, Repr

/-- The lists of `struct pblk_line_mgmt`. -/
inductive LineList
  | free
  | corrupt
  | bad
  | gcHigh
  | gcMid
  | gcLow
  | gcFull
  | gcEmpty
  deriving DecidableEq, Repr

/-- `lbaList` is the part of the end metadata that names the lba of each sector. -/
structure Line where
  state : LineState
  gcGroup : GcGroup
  secInLine : Nat
  mapBitmap : Nat → Bool
  invalidBitmap : Nat → Bool
  lbaList : Nat → Option Nat
  leftMsecs : Int
  leftSsecs : Int
  curSec : Nat
  vsc : Nat
  ref : Nat

/-- `closing` are the lines whose `pblk_line_close` is queued. -/
structure LineMgmt where
  line : Nat → Line
  lists : LineList → List Nat
  dataLine : Option Nat
  dataNext : Option Nat
  closing : List Nat

namespace LineMgmt

variable (m : LineMgmt)

def setLine (i : Nat) (l : Line) : LineMgmt := { m with line := Function.update m.line i l }

def listDel (i : Nat) : LineMgmt := { m with lists := fun k => (m.lists k).erase i }

def listAddTail (i : Nat) (k : LineList) : LineMgmt :=
  { m with lists := Function.update m.lists k (m.lists k ++ [i]) }

def listMoveTail (i : Nat) (k : LineList) : LineMgmt := (m.listDel i).listAddTail i k

end LineMgmt

/-- One less in unsigned arithmetic. -/
def decU32 (n : Nat) : Nat := (n + 2 ^ 32 - 1) % 2 ^ 32

/-- The group a line belongs to by its valid sectors, and the list it has to move to. -/
def pblkLineGcList (cfg : Config) (l : Line) : Line × Option LineList :=
  let move (g : GcGroup) (k : LineList) : Line × Option LineList :=
    if l.gcGroup = g then (l,none) else ({ l with gcGroup := g },some k)
  if l.vsc = 0 then move .full .gcFull
  else if l.vsc < cfg.midThrs then move .high .gcHigh
  else if l.vsc < cfg.highThrs then move .mid .gcMid
  else if l.vsc < l.secInLine then move .low .gcLow
  else if l.vsc = l.secInLine then move .empty .gcEmpty
  else ({ l with state := .corrupt, gcGroup := .none },some .corrupt)

/-- Lines being reclaimed and free lines are left alone; so is a sector that is invalid already. -/
def pblkPageInvalidate (cfg : Config) (m : LineMgmt) (a : DevAddr) : LineMgmt :=
  let l := m.line a.line
  if l.state = .gc ∨ l.state = .free then m
  else if l.invalidBitmap a.paddr then m
  else
    let l' := { l with invalidBitmap := Function.update l.invalidBitmap a.paddr true, vsc := decU32 l.vsc }
    if l.state = .closed then
      match pblkLineGcList cfg l' with
      | (l'',some k) => (m.setLine a.line l'').listMoveTail a.line k
      | (l'',none) => m.setLine a.line l''
    else m.setLine a.line l'

/-- One sector less to sync; the last one queues `pblk_line_close`. -/
def pblkSyncLine (m : LineMgmt) (i : Nat) : LineMgmt :=
  let l := m.line i
  let m' := m.setLine i { l with leftSsecs := l.leftSsecs - 1 }
  if l.leftSsecs - 1 = 0 then { m' with closing := m'.closing ++ [i] } else m'

def pblkPagePadInvalidate (m : LineMgmt) (a : DevAddr) : LineMgmt :=
  let l := m.line a.line
  pblkSyncLine (m.setLine a.line
    { l with invalidBitmap := Function.update l.invalidBitmap a.paddr true, vsc := decU32 l.vsc }) a.line

/-- The first clear bit from `start`, or `size`. -/
def findNextZeroBit (bm : Nat → Bool) (size start : Nat) : Nat :=
  ((List.range' start (size - start)).find? fun i => !bm i).getD size

/-- `__pblk_alloc_page` with its `BUG_ON`. -/
def allocPage (cfg : Config) (l : Line) (nrSecs : Nat) : Option (Line × Nat) :=
  if cfg.secPerLine < l.curSec + nrSecs then none
  else
    let addr := findNextZeroBit l.mapBitmap cfg.secPerLine l.curSec
    some ({ l with
      mapBitmap := fun i => l.mapBitmap i || (decide (addr ≤ i) && decide (i < addr + nrSecs))
      curSec := addr + nrSecs },addr)

def pblkAllocPage (cfg : Config) (l : Line) (nrSecs : Nat) : Option (Line × Nat) :=
  (allocPage cfg l nrSecs).map fun x => ({ x.1 with leftMsecs := x.1.leftMsecs - nrSecs },x.2)

def pblkLineIsFull (l : Line) : Bool := l.leftMsecs = 0

/-- `pblk_line_put`, the release of the last reference. -/
def pblkLinePut (m : LineMgmt) (i : Nat) : Option LineMgmt :=
  let l := m.line i
  if l.state = .gc then
    some ((m.setLine i { l with state := .free, gcGroup := .none }).listAddTail i .free)
  else none

/-- `kref_get`. -/
def krefGet (m : LineMgmt) (i : Nat) : LineMgmt :=
  m.setLine i { m.line i with ref := (m.line i).ref + 1 }

/-- `kref_put` with `pblk_line_put` as the release. -/
def krefPut (m : LineMgmt) (i : Nat) : Option LineMgmt :=
  let m' := m.setLine i { m.line i with ref := (m.line i).ref - 1 }
  if (m.line i).ref - 1 = 0 then pblkLinePut m' i else some m'

/-- `kref_put` by a caller that holds `w_lock`. The release ends in `pblk_rl_free_lines_inc`, which takes
the rate limiter's lock, and that is `w_lock`: it does not return. -/
def krefPutLocked (m : LineMgmt) (i : Nat) : Option LineMgmt :=
  if (m.line i).ref - 1 = 0 then none
  else some (m.setLine i { m.line i with ref := (m.line i).ref - 1 })

end Sdssd.Pblk
