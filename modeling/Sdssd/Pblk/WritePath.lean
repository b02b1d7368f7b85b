import Sdssd.Pblk.Translation
import Sdssd.Pblk.RateLimiter
import Sdssd.Framework.Steps

/-!
# The write path of pblk as a system

Callers of `pblk_write_to_cache` and `pblk_write_gc_to_cache` reserve entries under `w_lock` and then
copy one sector after another; the write thread commits entries, reads them, maps them to sectors of
the open line and sends a request; the device answers requests in any order. Every section under a lock
is one step, and so is the copy of one sector with the map update that follows it.
-/

namespace Sdssd.Pblk

open Framework

variable {δ : Type}

/-- Who writes a sector: a user bio, or the collection of a line. -/
inductive Source
  | user
  | gc (line : Nat)
  deriving DecidableEq, Repr

def Source.iotype : Source → IoType
  | .user => .user
  | .gc _ => .gc

structure Sector (δ : Type) where
  lba : Nat
  data : δ
  src : Source
  deriving DecidableEq, Repr

/-- A sector whose entry is reserved and which has not been copied yet. -/
structure Job (δ : Type) where
  pos : Nat
  sector : Sector δ
  deriving DecidableEq, Repr

structure CCtx where
  sentry : Nat
  nrValid : Nat
  nrPadded : Nat
  deriving DecidableEq, Repr

/-- A write request with its context. `sent` is false if the write thread gave up on it. -/
structure WReq (δ : Type) where
  ctx : CCtx
  taken : List (Taken δ)
  ppas : List DevAddr
  sent : Bool
  deriving DecidableEq, Repr

/-- Where the write thread is in `pblk_submit_write`. -/
inductive Writer (δ : Type)
  | idle
  | committed (pos nrSecs count : Nat)
  | mapping (ctx : CCtx) (taken : List (Taken δ)) (ppas : List DevAddr)
  deriving DecidableEq, Repr

/-- How often each cursor has moved since the start. -/
structure Marks where
  l2p : Nat
  sync : Nat
  subm : Nat
  mem : Nat
  deriving DecidableEq, Repr

structure Ftl (δ : Type) where
  rwb : Rb δ
  map : Map
  rl : Rl
  /-- The requests that were answered before an earlier one. -/
  complList : List Nat
  writer : Writer δ
  jobs : List (Job δ)
  /-- The requests in the order in which the write thread made them; the device answered `answered`. -/
  device : List (WReq δ)
  answered : List Nat
  /-- History: the entries in the order in which they were reserved, with the sector they are for. -/
  accepted : List (Option (Sector δ))
  /-- History: the requests that `pblk_complete_write` was called for. -/
  completed : List Nat
  marks : Marks
  /-- History: the bios that wait for a flush, with the number of entries reserved by then. -/
  flushes : List (Nat × Nat)
  ended : List Nat

/-- The start of `pblk_init`, before any I/O. -/
def Ftl.init (pages : Nat → δ) (lines : LineMgmt) (rl : Rl) : Ftl δ :=
  { rwb := pblkRbInit pages, map := ⟨fun _ => .empty,lines⟩, rl := rl, complList := [], writer := .idle
    jobs := [], device := [], answered := [], accepted := [], completed := [], marks := ⟨0,0,0,0⟩
    flushes := [], ended := [] }

/-- A write bio. Without data (`bio_has_data`) no sector is copied. -/
structure Bio (δ : Type) where
  id : Nat
  lba : Nat
  sectors : List δ
  hasData : Bool
  preflush : Bool
  deriving DecidableEq, Repr

def userSectors (lba : Nat) : List δ → List (Sector δ)
  | [] => []
  | d :: ds => ⟨lba,d,.user⟩ :: userSectors (lba + 1) ds

theorem length_userSectors {lba : Nat} {ds : List δ} : (userSectors lba ds).length = ds.length := by
  induction ds generalizing lba with
  | nil => rfl
  | cons d ds ih => simp [userSectors,ih]

theorem src_userSectors {lba : Nat} {ds : List δ} {x : Sector δ} (h : x ∈ userSectors lba ds) : x.src = .user := by
  induction ds generalizing lba with
  | nil => cases h
  | cons d ds ih =>
    rcases List.mem_cons.mp h with rfl | h
    · rfl
    · exact ih h

/-- The lbas that are not `ADDR_EMPTY` with their data. -/
def gcSectors (line : Nat) : List (Option Nat) → List δ → List (Sector δ)
  | none :: lbas, ds => gcSectors line lbas ds
  | some lba :: lbas, d :: ds => ⟨lba,d,.gc line⟩ :: gcSectors line lbas ds
  | _, _ => []

theorem src_gcSectors {line : Nat} {lbas : List (Option Nat)} {ds : List δ} {x : Sector δ}
    (h : x ∈ gcSectors line lbas ds) : x.src = .gc line := by
  induction lbas generalizing ds with
  | nil => cases h
  | cons a lbas ih =>
    cases a with
    | none => exact ih h
    | some lba =>
      cases ds with
      | nil => cases h
      | cons d ds =>
        rcases List.mem_cons.mp h with rfl | h
        · rfl
        · exact ih h

/-- The entries the sectors go to. -/
def place (r : RingSize) (pos : Nat) : List (Sector δ) → List (Job δ)
  | [] => []
  | x :: xs => ⟨r.wrap pos,x⟩ :: place r (pos + 1) xs

variable (cfg : Config)

/-- What `__pblk_rb_may_write` does for a reservation it grants: the entries that are to be overwritten
are moved to the device. -/
def Ftl.makeRoom (s : Ftl δ) (n : Nat) : Option (Ftl δ) :=
  if pblkRbSpace cfg.ring s.rwb < n then none
  else (pblkRbUpdateL2p cfg s.rwb s.map n).map fun x =>
    { s with rwb := x.1, map := x.2,
             marks := { s.marks with l2p := s.marks.l2p + (n - cfg.ring.space s.rwb.mem s.rwb.l2pUpdate) } }

/-- The new position of `mem`, with what is to be copied. -/
def Ftl.reserve (s : Ftl δ) (n : Nat) (xs : List (Sector δ)) (acc : List (Option (Sector δ))) : Ftl δ :=
  { s with
    rwb := { s.rwb with mem := cfg.ring.wrap (s.rwb.mem + n) }
    jobs := s.jobs ++ place cfg.ring s.rwb.mem xs
    accepted := s.accepted ++ acc
    marks := { s.marks with mem := s.marks.mem + n } }

/-- The flush of `pblk_rb_may_write_flush`, before `mem` moves; `true` means that the bio has to wait. -/
def Ftl.flush (s : Ftl δ) (bio n : Nat) : Ftl δ × Bool :=
  match pblkRbSyncPointSet cfg.ring s.rwb bio (cfg.ring.wrap (s.rwb.mem + n)) with
  | (rb,true) => ({ s with rwb := rb, flushes := s.flushes ++ [(bio,s.marks.mem + n)] },true)
  | (rb,false) => ({ s with rwb := rb },false)

/-- `pblk_rb_may_write_user` with the sectors the caller goes on to copy. -/
def Ftl.writeUser (s : Ftl δ) (b : Bio δ) : Option (Ftl δ) :=
  let n := b.sectors.length
  if pblkRlUserMayInsert s.rl n then
    (s.makeRoom cfg n).map fun s₁ =>
      let s₂ := if b.preflush then (s₁.flush cfg b.id n).1 else s₁
      let xs := userSectors b.lba b.sectors
      let s₃ := if b.hasData then s₂.reserve cfg n xs (xs.map some)
        else s₂.reserve cfg n [] (List.replicate n none)
      { s₃ with rl := pblkRlUserIn s.rl n }
  else none

/-- `pblk_rb_may_write_gc` with the sectors the collector goes on to copy. -/
def Ftl.writeGc (s : Ftl δ) (line : Nat) (lbas : List (Option Nat)) (data : List δ) : Option (Ftl δ) :=
  let xs := gcSectors line lbas data
  if pblkRlGcMayInsert s.rl xs.length then
    (s.makeRoom cfg xs.length).map fun s₁ =>
      { s₁.reserve cfg xs.length xs (xs.map some) with rl := pblkRlGcIn s.rl xs.length }
  else none

/-- One round of the copying loops: the entry, then the map. -/
def Ftl.insert (s : Ftl δ) (j : Nat) : Option (Ftl δ) :=
  match s.jobs[j]? with
  | none => none
  | some ⟨pos,x⟩ =>
    (pblkRbWriteEntry s.rwb x.data x.lba (some x.src.iotype) pos).bind fun y =>
      let m := match x.src with
        | .user => pblkUpdateMapCache cfg s.map x.lba y.2
        | .gc line => some (pblkUpdateMapGc s.map x.lba y.2 line)
      m.map fun m => { s with rwb := y.1, map := m, jobs := s.jobs.eraseIdx j }

def pblkCalcSecs (secsAvail secsToFlush : Nat) : Nat :=
  if cfg.maxWritePgs ≤ secsAvail then cfg.maxWritePgs
  else if cfg.minWritePgs ≤ secsAvail then cfg.minWritePgs * (secsAvail / cfg.minWritePgs)
  else if secsToFlush ≠ 0 then cfg.minWritePgs
  else 0

/-- `pblk_submit_write` up to `pblk_rb_read_commit`. -/
def Ftl.commit (s : Ftl δ) : Option (Ftl δ) :=
  match s.writer with
  | .idle =>
    let avail := pblkRbReadCount cfg.ring s.rwb
    let toFlush := pblkRbSyncPointCount cfg.ring s.rwb
    if avail = 0 ∨ toFlush = 0 ∧ avail < cfg.maxWritePgs then none
    else
      let secs := pblkCalcSecs cfg avail toFlush
      let c := pblkRbReadCommit cfg.ring s.rwb (min secs avail)
      some { s with rwb := c.1, writer := .committed c.2 secs avail,
                    marks := { s.marks with subm := s.marks.subm + min secs avail } }
  | _ => none

/-- The context that `pblk_rb_read_to_bio` fills in. -/
def cCtx (pos nrEntries count : Nat) : CCtx := ⟨pos,min nrEntries count,nrEntries - count⟩

def countIo (io : IoType) (taken : List (Taken δ)) : Nat := taken.countP fun t => t.iotype = some io

/-- `pblk_rb_read_to_bio`. -/
def Ftl.read (s : Ftl δ) : Option (Ftl δ) :=
  match s.writer with
  | .committed pos secs count =>
    let c := cCtx pos secs count
    (readEntries cfg.ring c.nrValid s.rwb pos).map fun x =>
      { s with rwb := x.1, writer := .mapping c x.2 [],
               rl := pblkRlOut s.rl (countIo .user x.2) (countIo .gc x.2) }
  | _ => none

/-- `pblk_rb_read_to_bio` when the page of entry `i` cannot be added; nothing more comes of the entries. -/
def Ftl.readFail (s : Ftl δ) (i : Nat) : Option (Ftl δ) :=
  match s.writer with
  | .committed pos secs count =>
    let c := cCtx pos secs count
    if i < c.nrValid then
      (readEntries cfg.ring i s.rwb pos).bind fun x =>
        (readEntryFail x.1 (cfg.ring.wrap (pos + i))).map fun rb =>
          { s with rwb := rb, writer := .idle, device := s.device ++ [⟨c,[],[],false⟩] }
    else none
  | _ => none

/-- The request cannot be set up: the padding, the bitmap or the DMA memory is missing. -/
def Ftl.giveUp (s : Ftl δ) : Option (Ftl δ) :=
  match s.writer with
  | .mapping c taken [] => some { s with writer := .idle, device := s.device ++ [⟨c,taken,[],false⟩] }
  | _ => none

/-- One sector of `pblk_map_page_data`; `i` counts the sectors of the page. -/
def mapSector (r : RingSize) (rb : Rb δ) (lines : LineMgmt) (sentry mapSecs i : Nat) (a : DevAddr) :
    Rb δ × LineMgmt :=
  let lines := krefGet lines a.line
  let l := lines.line a.line
  if i < mapSecs then
    let pos := r.wrap (sentry + i)
    let w := (rb.entries pos).wCtx
    (rb.setWCtx pos { w with ppa := .dev a },
      lines.setLine a.line { l with lbaList := Function.update l.lbaList a.paddr (some w.lba) })
  else
    (rb,pblkPagePadInvalidate
      (lines.setLine a.line { l with lbaList := Function.update l.lbaList a.paddr none }) a)

/-- The loop of `pblk_map_page_data` from sector `i` on. -/
def mapSectors (r : RingSize) (sentry mapSecs line paddr : Nat) : Nat → Nat → Rb δ → LineMgmt → Rb δ × LineMgmt
  | 0, _, rb, lines => (rb,lines)
  | n + 1, i, rb, lines =>
    let x := mapSector r rb lines sentry mapSecs i ⟨line,paddr + i⟩
    mapSectors r sentry mapSecs line paddr n (i + 1) x.1 x.2

/-- One round of `pblk_map_rq`: a page of the open line for the next `min_write_pgs` sectors. -/
def Ftl.mapPage (s : Ftl δ) : Option (Ftl δ) :=
  match s.writer with
  | .mapping c taken ppas =>
    let i := ppas.length
    if c.nrValid + c.nrPadded ≤ i then none
    else match s.map.lines.dataLine with
      | none => none
      | some d =>
        (pblkAllocPage cfg (s.map.lines.line d) cfg.minWritePgs).map fun y =>
          let mapSecs := if c.nrValid < i + cfg.minWritePgs then c.nrValid % cfg.minWritePgs else cfg.minWritePgs
          let x := mapSectors cfg.ring (c.sentry + i) mapSecs d y.2 cfg.minWritePgs 0 s.rwb
            (s.map.lines.setLine d y.1)
          { s with rwb := x.1, map := { s.map with lines := x.2 },
                   writer := .mapping c taken
                     (ppas ++ (List.range cfg.minWritePgs).map fun j => ⟨d,y.2 + j⟩) }
  | _ => none

/-- `pblk_submit_io`, which may fail. -/
def Ftl.send (s : Ftl δ) (ok : Bool) : Option (Ftl δ) :=
  match s.writer with
  | .mapping c taken ppas =>
    if c.nrValid + c.nrPadded ≤ ppas.length then
      some { s with writer := .idle, device := s.device ++ [⟨c,taken,ppas,ok⟩] }
    else none
  | _ => none

/-- The bios of `n` entries from `pos`, taken off. -/
def popBios (r : RingSize) : Nat → Rb δ → Nat → Rb δ × List Nat
  | 0, rb, _ => (rb,[])
  | n + 1, rb, pos =>
    let w := (rb.entries (r.wrap pos)).wCtx
    let x := popBios r n (rb.setWCtx (r.wrap pos) { w with bios := [] }) (pos + 1)
    (x.1,w.bios ++ x.2)

/-- `pblk_end_w_bio`. -/
def Ftl.endWBio (s : Ftl δ) (q : WReq δ) : Ftl δ :=
  let x := popBios cfg.ring q.ctx.nrValid s.rwb q.ctx.sentry
  { s with
    rwb := pblkRbSyncAdvance cfg.ring x.1 q.ctx.nrValid
    map := { s.map with lines := (q.ppas.take q.ctx.nrValid).foldl (fun m a => pblkSyncLine m a.line) s.map.lines }
    ended := s.ended ++ x.2
    marks := { s.marks with sync := s.marks.sync + q.ctx.nrValid } }

/-- The request on `compl_list` that `sync` has come to. -/
def Ftl.nextDone (s : Ftl δ) : Option (Nat × WReq δ) :=
  s.complList.findSome? fun k =>
    (s.device[k]?).bind fun q => if q.ctx.sentry = s.rwb.sync then some (k,q) else none

/-- The loop of `pblk_complete_write` over `compl_list`; each round takes one request off it. -/
def Ftl.drain : Nat → Ftl δ → Ftl δ
  | 0, s => s
  | n + 1, s =>
    match s.nextDone with
    | none => s
    | some (k,q) => drain n (({ s with complList := s.complList.erase k } : Ftl δ).endWBio cfg q)

def Ftl.completeWrite (s : Ftl δ) (k : Nat) (q : WReq δ) : Ftl δ :=
  let s := { s with completed := s.completed ++ [k] }
  if s.rwb.sync = q.ctx.sentry then (s.endWBio cfg q).drain cfg s.complList.length
  else { s with complList := s.complList ++ [k] }

/-- `pblk_rb_sync_scan_entry` walks from `sync` to `subm` and compares nothing. -/
def pblkRbSyncScanEntry (_rb : Rb δ) (_ppa : DevAddr) : Option Nat := none

/-- `pblk_end_w_fail`: whether the request is completed, for the first failed sector `bit`. Without memory
for the recovery context it is not; otherwise the scan finds no entry, which completes the request. -/
def pblkEndWFail (rb : Rb δ) (q : WReq δ) (bit : Nat) (recovery : Bool) : Option Bool :=
  if recovery = false then some false
  else if q.ctx.nrValid < bit then none
  else (q.ppas[bit]?).map fun a => (pblkRbSyncScanEntry rb a).isNone

/-- `pblk_end_io_write`; `failed` is the first failed sector of an answer with an error. -/
def Ftl.answer (s : Ftl δ) (k : Nat) (failed : Option Nat) (recovery : Bool) : Option (Ftl δ) :=
  match s.device[k]? with
  | none => none
  | some q =>
    if q.sent ∧ s.answered.contains k = false then
      let s' := { s with answered := s.answered ++ [k] }
      match failed with
      | none => some (s'.completeWrite cfg k q)
      | some bit => (pblkEndWFail s.rwb q bit recovery).map fun done => if done then s'.completeWrite cfg k q else s'
    else none

inductive Event (δ : Type)
  | writeUser (b : Bio δ)
  | writeGc (line : Nat) (lbas : List (Option Nat)) (data : List δ)
  | insert (j : Nat)
  | commit
  | read
  | readFail (i : Nat)
  | giveUp
  | mapPage
  | send (ok : Bool)
  | answer (k : Nat) (failed : Option Nat) (recovery : Bool)
  | discard (slba n : Nat)
  | syncL2p
  /-- What the line management does besides: it replaces, closes and collects lines. -/
  | lines (m : LineMgmt)
  /-- New rates after `free_blocks` has changed. -/
  | rates (freeBlocks : Nat)
  | userTimer

def step (s : Ftl δ) : Event δ → Option (Ftl δ)
  | .writeUser b => s.writeUser cfg b
  | .writeGc line lbas data => s.writeGc cfg line lbas data
  | .insert j => s.insert cfg j
  | .commit => s.commit cfg
  | .read => s.read cfg
  | .readFail i => s.readFail cfg i
  | .giveUp => s.giveUp
  | .mapPage => s.mapPage cfg
  | .send ok => s.send ok
  | .answer k failed recovery => s.answer cfg k failed recovery
  | .discard slba n => some { s with map := pblkInvalidateRange cfg s.map slba n }
  | .syncL2p => (pblkRbSyncL2p cfg s.rwb s.map).map fun x =>
      { s with rwb := x.1, map := x.2,
               marks := { s.marks with l2p := s.marks.l2p + cfg.ring.count s.rwb.sync s.rwb.l2pUpdate } }
  | .lines m => some { s with map := { s.map with lines := m } }
  | .rates n => (pblkRlUpdateRates { s.rl with freeBlocks := n } s.rl.rbBudget).map fun x => { s with rl := x.1 }
  | .userTimer => some { s with rl := pblkRlUTimer s.rl }

end Sdssd.Pblk
