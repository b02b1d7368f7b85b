import Sdssd.Pblk.Lines

/-!
# The translation map

`trans_map` sends an lba to the write buffer or to the device. A write points it at the buffer; when
the entry is about to be reused, `pblk_rb_update_l2p` points it at the sector the entry was written to,
unless the lba has been written or discarded since.
-/

namespace Sdssd.Pblk

open Framework

variable {δ : Type}

/-- `trans_map` with the lines its updates invalidate sectors of. -/
structure Map where
  transMap : Nat → PpaAddr
  lines : LineMgmt

def Map.set (m : Map) (lba : Nat) (ppa : PpaAddr) : Map :=
  { m with transMap := Function.update m.transMap lba ppa }

/-- `pblk_page_invalidate` of an address that may be empty or in the cache. -/
def Map.invalidate (cfg : Config) (m : Map) : PpaAddr → Map
  | .dev a => { m with lines := pblkPageInvalidate cfg m.lines a }
  | _ => m

def pblkUpdateMapCache (cfg : Config) (m : Map) (lba : Nat) (ppa : PpaAddr) : Option Map :=
  if lba < cfg.nrSecs then some ((m.invalidate cfg (m.transMap lba)).set lba ppa) else none

/-- Entries that were updated since the collector looked are not overwritten. -/
def pblkUpdateMapGc (m : Map) (lba : Nat) (ppa : PpaAddr) (gcLine : Nat) : Map :=
  match m.transMap lba with
  | .dev a => if a.line = gcLine then m.set lba ppa else m
  | _ => m

/-- If the map does not name this entry any more, its sector is invalid from the start. -/
def pblkUpdateMapDev (cfg : Config) (m : Map) (lba : Nat) (ppa entryLine : PpaAddr) : Option Map :=
  if lba < cfg.nrSecs then
    if m.transMap lba ≠ entryLine ∧ ppaEmpty ppa = false then some (m.invalidate cfg ppa)
    else some (m.set lba ppa)
  else none

/-- `pblk_invalidate_range`. -/
def pblkInvalidateRange (cfg : Config) (m : Map) (slba : Nat) : Nat → Map
  | 0 => m
  | n + 1 => pblkInvalidateRange cfg ((m.invalidate cfg (m.transMap slba)).set slba .empty) (slba + 1) n

/-- One round of `__pblk_rb_update_l2p`, for the entry at `l2p_update`. -/
def updateL2pEntry (cfg : Config) (rb : Rb δ) (m : Map) : Option (Rb δ × Map) :=
  let e := rb.entries rb.l2pUpdate
  match e.wCtx.ppa with
  | .dev a =>
    (pblkUpdateMapDev cfg m e.wCtx.lba e.wCtx.ppa e.cacheline).bind fun m' =>
    (krefPutLocked m'.lines a.line).bind fun lines =>
    (cleanWctx e.wCtx).map fun w =>
      ({ rb.setWCtx rb.l2pUpdate w with l2pUpdate := cfg.ring.wrap (rb.l2pUpdate + 1) },{ m' with lines := lines })
  | _ => none

/-- `__pblk_rb_update_l2p`. -/
def updateL2p (cfg : Config) : Nat → Rb δ → Map → Option (Rb δ × Map)
  | 0, rb, m => some (rb,m)
  | n + 1, rb, m => (updateL2pEntry cfg rb m).bind fun x => updateL2p cfg n x.1 x.2

/-- Only the entries that are about to be overwritten are moved to the device. -/
def pblkRbUpdateL2p (cfg : Config) (rb : Rb δ) (m : Map) (nrEntries : Nat) : Option (Rb δ × Map) :=
  let space := cfg.ring.space rb.mem rb.l2pUpdate
  if nrEntries < space then some (rb,m) else updateL2p cfg (nrEntries - space) rb m

def pblkRbSyncL2p (cfg : Config) (rb : Rb δ) (m : Map) : Option (Rb δ × Map) :=
  updateL2p cfg (cfg.ring.count rb.sync rb.l2pUpdate) rb m

end Sdssd.Pblk
