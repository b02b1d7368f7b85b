import Sdssd.Framework.Ring
import Mathlib.Logic.Function.Basic

/-!
# The write buffer of pblk

`pblk-rb.c`: a ring of sectors with four cursors. Callers reserve entries at `mem` and copy their
sectors into them, the write thread takes entries at `subm`, completed requests move `sync`, and
`l2p_update` follows `sync` when entries are about to be reused. A wait of the source on a flag of an
entry, and a `BUG_ON`, is the result `none`.
-/

namespace Sdssd.Pblk

open Framework

variable {δ : Type}

/-- A sector of the device: the line and the sector's address in it. -/
structure DevAddr where
  line : Nat
  paddr : Nat
  deriving DecidableEq, Repr

/-- `struct ppa_addr` as pblk reads it. -/
inductive PpaAddr
  | empty
  | cacheline (pos : Nat)
  | dev (addr : DevAddr)
  deriving DecidableEq, Repr

def nvmAddrInCache : PpaAddr → Bool
  | .cacheline _ => true
  | _ => false

def ppaEmpty : PpaAddr → Bool
  | .empty => true
  | _ => false

/-- `PBLK_IOTYPE_USER` and `PBLK_IOTYPE_GC`. -/
inductive IoType
  | user
  | gc
  deriving DecidableEq, Repr

/-- The bits of `w_ctx.flags`; the type of the I/O is two of them. -/
structure WFlags where
  iotype : Option IoType
  flush : Bool
  written : Bool
  submitted : Bool
  writable : Bool
  deriving DecidableEq, Repr

/-- The value `PBLK_WRITABLE_ENTRY`. -/
def WFlags.writableEntry : WFlags := ⟨none,false,false,false,true⟩

structure WCtx where
  bios : List Nat
  lba : Nat
  ppa : PpaAddr
  flags : WFlags
  deriving DecidableEq, Repr

structure RbEntry (δ : Type) where
  cacheline : PpaAddr
  data : δ
  wCtx : WCtx
  deriving DecidableEq, Repr

/-- `EMPTY_ENTRY` of `sync_point` is `none`. -/
structure Rb (δ : Type) where
  entries : Nat → RbEntry δ
  mem : Nat
  subm : Nat
  sync : Nat
  l2pUpdate : Nat
  syncPoint : Option Nat

/-- The pages are not cleared; the contexts are. -/
def pblkRbInit (pages : Nat → δ) : Rb δ :=
  { entries := fun i => ⟨.cacheline i,pages i,⟨[],0,.dev ⟨0,0⟩,.writableEntry⟩⟩
    mem := 0, subm := 0, sync := 0, l2pUpdate := 0, syncPoint := none }

namespace Rb

def setEntry (rb : Rb δ) (pos : Nat) (e : RbEntry δ) : Rb δ :=
  { rb with entries := Function.update rb.entries pos e }

/-- `pblk_rb_w_ctx` gives a pointer; what is stored through it. -/
def setWCtx (rb : Rb δ) (pos : Nat) (w : WCtx) : Rb δ :=
  rb.setEntry pos { rb.entries pos with wCtx := w }

def setFlags (rb : Rb δ) (pos : Nat) (f : WFlags) : Rb δ :=
  rb.setWCtx pos { (rb.entries pos).wCtx with flags := f }

variable (rb : Rb δ) {pos p : Nat} {e : RbEntry δ} {w : WCtx} {f : WFlags}

theorem entries_setEntry : (rb.setEntry pos e).entries p = if p = pos then e else rb.entries p :=
  Function.update_apply rb.entries pos e p

@[simp] theorem entries_setEntry_self : (rb.setEntry pos e).entries pos = e := by
  simp [entries_setEntry]

theorem entries_setEntry_of_ne (h : p ≠ pos) : (rb.setEntry pos e).entries p = rb.entries p := by
  simp [entries_setEntry,h]

end Rb

section Cursors

variable (r : RingSize) (rb : Rb δ)

def pblkRbSpace : Nat := r.space rb.mem rb.sync

def pblkRbReadCount : Nat := r.count rb.mem rb.subm

def pblkRbReadCommit (nrEntries : Nat) : Rb δ × Nat :=
  ({ rb with subm := r.wrap (rb.subm + nrEntries) },rb.subm)

/-- The loop steps over the entries and touches none of them. -/
def pblkRbSyncAdvance (nrEntries : Nat) : Rb δ :=
  { rb with sync := (fun s => r.wrap (s + 1))^[nrEntries] rb.sync }

/-- The sync point itself counts as a sector to sync. -/
def pblkRbSyncPointCount : Nat :=
  match rb.syncPoint with
  | none => 0
  | some p => r.count p rb.subm + 1

/-- Mark the entry before `pos` as the last one to flush and hang the bio on it. -/
def pblkRbSyncPointSet (bio pos : Nat) : Rb δ × Bool :=
  if pos = rb.subm then (rb,false)
  else
    let p := if pos = 0 then r.cells - 1 else pos - 1
    let w := (rb.entries p).wCtx
    ({ rb.setWCtx p { w with flags := { w.flags with flush := true }, bios := w.bios ++ [bio] } with
        syncPoint := some p },true)

/-- `pblk_rb_tear_down_check`: what is left in the buffer is an error only if the entries are gone. -/
def pblkRbTearDownCheck (entriesFreed : Bool) : Bool :=
  if rb.mem = rb.subm ∧ rb.subm = rb.sync ∧ rb.sync = rb.l2pUpdate ∧ rb.syncPoint = none then false
  else entriesFreed

end Cursors

/-- Waits until the entry has been submitted. -/
def cleanWctx (w : WCtx) : Option WCtx :=
  if w.flags.submitted then some { w with flags := .writableEntry, ppa := .empty } else none

/-- Copy a sector into an entry and give its cacheline; the bios of the context stay. -/
def pblkRbWriteEntry (rb : Rb δ) (data : δ) (lba : Nat) (io : Option IoType) (pos : Nat) :
    Option (Rb δ × PpaAddr) :=
  let e := rb.entries pos
  if e.wCtx.flags.writable then
    some (rb.setEntry pos { e with
      data := data
      wCtx := { e.wCtx with lba := lba, ppa := .empty, flags := ⟨io,false,true,false,false⟩ } },e.cacheline)
  else none

/-- What the write thread takes of one entry. -/
structure Taken (δ : Type) where
  lba : Nat
  data : δ
  iotype : Option IoType
  deriving DecidableEq, Repr

/-- One round of the loop of `pblk_rb_read_to_bio`: wait for the data, take the page, hand over. -/
def readEntry (rb : Rb δ) (pos : Nat) : Option (Rb δ × Taken δ) :=
  let e := rb.entries pos
  let f := e.wCtx.flags
  if f.written then
    let sp := if f.flush ∧ rb.syncPoint = some pos then none else rb.syncPoint
    some ({ rb.setFlags pos { f with flush := false, written := false, submitted := true } with syncPoint := sp },
      ⟨e.wCtx.lba,e.data,f.iotype⟩)
  else none

/-- The round in which the page cannot be added to the bio; the flush bit stays. -/
def readEntryFail (rb : Rb δ) (pos : Nat) : Option (Rb δ) :=
  let f := (rb.entries pos).wCtx.flags
  if f.written then some (rb.setFlags pos { f with written := false, submitted := true }) else none

/-- The loop of `pblk_rb_read_to_bio` over `n` entries from `pos`. -/
def readEntries (r : RingSize) : Nat → Rb δ → Nat → Option (Rb δ × List (Taken δ))
  | 0, rb, _ => some (rb,[])
  | n + 1, rb, pos =>
    match readEntry rb pos with
    | none => none
    | some (rb',t) => (readEntries r n rb' (r.wrap (pos + 1))).map fun x => (x.1,t :: x.2)

/-- Copy from the cache only if the entry still belongs to the lba. -/
def pblkRbCopyToBio (rb : Rb δ) (lba pos : Nat) : Option δ :=
  let w := (rb.entries pos).wCtx
  if w.lba ≠ lba ∨ w.flags.writable then none else some (rb.entries pos).data

end Sdssd.Pblk
