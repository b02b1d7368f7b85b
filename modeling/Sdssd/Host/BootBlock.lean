import Sdssd.Host.ModuleInit
import Sdssd.Framework.Overwrite

/-!
# Boot pages

`bootblk-mngr.c`, and the functions of `mcp.c` and `power-cycle.c` that write and read the boot pages.
Block 0 holds the bad-block table on channels 0 to 3 and the meta page on channels 4 to 7, each page in
eight copies, one on each LUN. A new version goes to the page after the last one.
-/

namespace Sdssd.Host

open Framework

/-- `enum power_down_flag`, and the zero that `kzalloc` leaves in its place. -/
inductive PowerDownFlag
  | powerDownSafe
  | powerDownUnsafe
  | zeroed
  deriving DecidableEq, Repr

structure BootblkBbtPage where
  magicDw : List Nat
  bbt : Nat → Nat → Nat

structure BootblkMetaPage where
  magicDw : List Nat
  pdf : PowerDownFlag
  bbtPageAddress : GeoPpa
  metaPageAddress : GeoPpa
  bbtChIter : List Nat
  metaChIter : List Nat
  deriving DecidableEq

def bootblkBbtMdw : List Nat := [0x6261646c,0x6c6f636b,0x73626974,0x6d617073]

def bootblkMetaMdw : List Nat := [0x6e657875,0x73707269,0x6d617279,0x626f6f74]

/-- Content of a boot page. -/
inductive BootPage
  | bbtpg (p : BootblkBbtPage)
  | metapg (p : BootblkMetaPage)

/-- `FSCFTL_BBTPG_READ` and `FSCFTL_METAPG_READ`. -/
inductive BootRead
  | bbtpgRead
  | metapgRead

/-- The magic words of the two kinds differ, so a page of the other kind fails. -/
def bootblkPageMdwCheck : BootRead → BootPage → Bool
  | .bbtpgRead, .bbtpg p => p.magicDw == bootblkBbtMdw
  | .metapgRead, .metapg p => p.magicDw == bootblkMetaMdw
  | _, _ => false

/-- The driver's copies of the boot pages, and the tables they are made from. -/
structure BootRam where
  bbtPage : BootblkBbtPage
  metaPage : BootblkMetaPage
  sys : SysTbl

/-- `statetbl_init`, `bootblk_page_init` and `bmitbl_init`. -/
def bootSetup : BootRam where
  bbtPage := ⟨bootblkBbtMdw,fun _ _ => 0⟩
  metaPage := ⟨bootblkMetaMdw,.zeroed,invalidPage,invalidPage,[0,1,2,3],[4,5,6,7]⟩
  sys := sysTblInit

/-- `bootblk_bbt_channel_jmp` and `bootblk_meta_channel_jmp`. -/
def bootblkChannelJmp (chIter : List Nat) (last : Nat) : Except Fault Nat :=
  let i := chIter.idxOf last
  if i = 4 then .error .bugOn else .ok (chIter.getD ((i + 1) % 4) 0)

/-- `bootblk_get_next_bbt_pos` and `bootblk_get_next_meta_pos`. The page is incremented in place, in a
bit-field of nine bits. -/
def bootblkGetNextPos (chIter : List Nat) (curpos : GeoPpa) : Except Fault GeoPpa :=
  if curpos = invalidPage then .ok (Nand.pg.set (Nand.ch.set 0#32 (chIter.getD 0 0)) 0)
  else
    let pg := increBounded Nand.pg.width (Nand.pg.get curpos) pgBits
    let curpos := Nand.pg.set curpos pg.1
    if pg.2 then
      (bootblkChannelJmp chIter (Nand.ch.get curpos)).map fun channel => Nand.ch.set curpos channel
    else .ok curpos

def bootblkGetNextBbtPos (m : BootblkMetaPage) : Except Fault GeoPpa :=
  bootblkGetNextPos m.bbtChIter m.bbtPageAddress

def bootblkGetNextMetaPos (m : BootblkMetaPage) : Except Fault GeoPpa :=
  bootblkGetNextPos m.metaChIter m.metaPageAddress

/-- A boot page position: channel, page and LUN of block 0. -/
abbrev BootPos := Nat × Nat × Nat

/-- The program commands of `bootblk_flush_duplicated`. -/
def bootblkFlushDuplicated (page : BootPage) (bootppa : GeoPpa) : List (BootPos × BootPage) :=
  (List.range cfgNandLunNum).map fun lun => ((Nand.ch.get bootppa,Nand.pg.get bootppa,lun),page)

/-- `bootblk_flush_bbt_page`: the table is copied from `bmi->bbt` before it is written. -/
def bootblkFlushBbtPage (r : BootRam) : Except Fault (BootRam × List (BootPos × BootPage)) :=
  let bbt := fun blk lun =>
    if blk < cfgNandBlockNum ∧ lun < cfgNandLunNum then (r.sys.bmitbl blk).bbt lun
    else r.bbtPage.bbt blk lun
  (bootblkGetNextBbtPos r.metaPage).map fun pos =>
    let page := { r.bbtPage with bbt := bbt }
    ({ r with bbtPage := page, metaPage := { r.metaPage with bbtPageAddress := pos } },
      bootblkFlushDuplicated (.bbtpg page) pos)

def bootblkFlushMetaPage (r : BootRam) (flag : PowerDownFlag) :
    Except Fault (BootRam × List (BootPos × BootPage)) :=
  (bootblkGetNextMetaPos r.metaPage).map fun pos =>
    let page := { r.metaPage with pdf := flag, metaPageAddress := pos }
    ({ r with metaPage := page },bootblkFlushDuplicated (.metapg page) pos)

/-- The two flushes that `do_manufactory_init`, `flush_down_systbl` and `try_recovery_systbl` all end
with. -/
def flushBootPages (r : BootRam) (flag : PowerDownFlag) :
    Except Fault (BootRam × List (BootPos × BootPage)) :=
  (bootblkFlushBbtPage r).bind fun (r,bbtCmds) =>
    (bootblkFlushMetaPage r flag).map fun (r,metaCmds) => (r,bbtCmds ++ metaCmds)

def flushDownSystbl (r : BootRam) : Except Fault (BootRam × List (BootPos × BootPage)) :=
  flushBootPages r .powerDownSafe

/-- `do_manufactory_init` after `sweepup_disk`. -/
def BootRam.doManufactoryInit (r : BootRam) (d : Discovery) :
    Except Fault (BootRam × List (BootPos × BootPage)) :=
  (fscftlBbtDiscovery d r.sys).bind fun sys => flushBootPages { r with sys := sys } .powerDownUnsafe

/-- Block 0, and the positions programmed since it was last erased. -/
structure BootDisk where
  page : BootPos → Option BootPage
  programs : List BootPos

/-- `sweepup_disk` erases all blocks, block 0 last. -/
def BootDisk.erased : BootDisk := ⟨fun _ => none,[]⟩

def BootDisk.program (k : BootDisk) (cmds : List (BootPos × BootPage)) : BootDisk :=
  ⟨overwrite k.page (cmds.map fun c => (c.1,some c.2)),k.programs ++ cmds.map Prod.fst⟩

/-- The search is not written yet: it always answers page 1 of the first meta channel. -/
def binarySearchMetaPage (m : BootblkMetaPage) : GeoPpa :=
  Nand.pg.set (Nand.ch.set 0#32 (m.metaChIter.getD 0 0)) 1

/-- The first copy whose read succeeds and whose magic words are right; `status` tells which reads
succeed. -/
def bootblkGetMirror (k : BootDisk) (cmdtype : BootRead) (status : Nat → Bool) (bootppa : GeoPpa) :
    Option BootPage :=
  (List.range cfgNandLunNum).findSome? fun lun =>
    if status lun then
      (k.page (Nand.ch.get bootppa,Nand.pg.get bootppa,lun)).filter (bootblkPageMdwCheck cmdtype)
    else none

/-- Which copies of the two pages can be read. -/
structure BootReads where
  metaOk : Nat → Bool
  bbtOk : Nat → Bool

def BootReads.all : BootReads := ⟨fun _ => true,fun _ => true⟩

def bootblkRecoveryMetaPage (k : BootDisk) (reads : BootReads) (m : BootblkMetaPage) :
    Option BootblkMetaPage :=
  match bootblkGetMirror k .metapgRead reads.metaOk (binarySearchMetaPage m) with
  | some (.metapg p) => some p
  | _ => none

def bootblkRecoveryBbtPage (k : BootDisk) (reads : BootReads) (m : BootblkMetaPage) :
    Option BootblkBbtPage :=
  match bootblkGetMirror k .bbtpgRead reads.bbtOk m.bbtPageAddress with
  | some (.bbtpg p) => some p
  | _ => none

/-- Which of the two rebuild functions runs. Both are stubs that change nothing. -/
inductive RecoveryPath
  | rebuildSystbl
  | crashRecovery
  deriving DecidableEq, Repr

/-- `try_recovery_systbl`; `none` when a page cannot be read. The power flag is a local variable that
is never loaded from the meta page. -/
def BootRam.tryRecoverySystbl (r : BootRam) (k : BootDisk) (reads : BootReads) :
    Except Fault (Option (BootRam × RecoveryPath × List (BootPos × BootPage))) :=
  match bootblkRecoveryMetaPage k reads r.metaPage with
  | none => .ok none
  | some m =>
    match bootblkRecoveryBbtPage k reads m with
    | none => .ok none
    | some p =>
      let r := { r with metaPage := m, bbtPage := p }
      let powerFlag : PowerDownFlag := .powerDownSafe
      let path? : Option RecoveryPath :=
        match powerFlag with
        | .powerDownSafe => some .rebuildSystbl
        | .powerDownUnsafe => some .crashRecovery
        | .zeroed => none
      match path? with
      | none => .ok none
      | some path => (flushBootPages r .powerDownUnsafe).map fun (r,cmds) => some (r,path,cmds)

section Positions

/-- Page `n` of a channel of block 0. -/
def bootPos (ch n : Nat) : GeoPpa := Nand.pg.set (Nand.ch.set 0#32 ch) n

/-- The address of the last version when `n` versions have been written. -/
def bootAddress (ch : Nat) : Nat → GeoPpa
  | 0 => invalidPage
  | n+1 => bootPos ch n

theorem pg_bootPos (ch : Nat) {n : Nat} (h : n < 512) : Nand.pg.get (bootPos ch n) = n := by
  rw [bootPos,BitField.get_set (by decide : Nand.pg.Fits 32)]
  exact Nat.mod_eq_of_lt h

theorem ch_bootPos {ch : Nat} (h : ch < 16) (n : Nat) : Nand.ch.get (bootPos ch n) = ch := by
  rw [bootPos,BitField.get_set_of_apart (by decide : Nand.pg.Fits 32) (Or.inr (by decide)),
    BitField.get_set (by decide : Nand.ch.Fits 32)]
  exact Nat.mod_eq_of_lt h

theorem bootPos_ne_invalidPage (ch n : Nat) : bootPos ch n ≠ invalidPage := by
  intro h
  have hblk : Nand.blk.get (bootPos ch n) = 0 := by
    rw [bootPos,BitField.get_set_of_apart (by decide : Nand.pg.Fits 32) (Or.inl (by decide)),
      BitField.get_set_of_apart (by decide : Nand.ch.Fits 32) (Or.inl (by decide))]
    rfl
  rw [h] at hblk
  cases hblk

/-- A bit-field of nine bits never reaches `2^9`: the increment wraps without a carry. -/
theorem increBounded_pg (n : Nat) : increBounded Nand.pg.width n pgBits = ((n + 1) % 512,false) := by
  have hlt : (n + 1) % 2^9 ≠ 2^9 := (Nat.mod_lt _ (by decide)).ne
  exact if_neg hlt

/-- The position after the last version, for any number of versions: the channel is never left. -/
theorem bootblkGetNextPos_bootAddress {chIter : List Nat} {ch : Nat} (h : chIter.getD 0 0 = ch)
    (n : Nat) : bootblkGetNextPos chIter (bootAddress ch n) = .ok (bootPos ch n) := by
  cases n with
  | zero =>
    rw [bootAddress,bootblkGetNextPos,if_pos rfl,h]
    rfl
  | succ n =>
    have hfits : Nand.pg.Fits 32 := by decide
    have hpg : Nand.pg.get (bootPos ch n) = n % 512 := BitField.get_set hfits _ n
    have hset : Nand.pg.set (bootPos ch n) ((n % 512 + 1) % 512) = bootPos ch (n + 1) := by
      rw [bootPos,BitField.set_set hfits,Nat.mod_add_mod]
      exact BitField.set_mod Nand.pg _ (n + 1)
    rw [bootAddress,bootblkGetNextPos,if_neg (bootPos_ne_invalidPage ch n)]
    simp only [increBounded_pg,hpg,Bool.false_eq_true,if_false,hset]

end Positions

/-- What the two flushes do when they get through: the copies carry the table of `bmi->bbt`, the new
positions and the flag, and they are the pages written. -/
theorem flushBootPages_ok {r r' : BootRam} {flag : PowerDownFlag} {cmds : List (BootPos × BootPage)}
    (h : flushBootPages r flag = .ok (r',cmds)) :
    r'.sys = r.sys ∧ r'.metaPage.pdf = flag ∧
      (∀ blk, blk < cfgNandBlockNum → ∀ lun, lun < cfgNandLunNum →
        r'.bbtPage.bbt blk lun = (r.sys.bmitbl blk).bbt lun) ∧
      cmds = bootblkFlushDuplicated (.bbtpg r'.bbtPage) r'.metaPage.bbtPageAddress ++
        bootblkFlushDuplicated (.metapg r'.metaPage) r'.metaPage.metaPageAddress := by
  unfold flushBootPages bootblkFlushBbtPage bootblkFlushMetaPage at h
  cases hbbt : bootblkGetNextBbtPos r.metaPage with
  | error x => simp [hbbt,Except.map,Except.bind] at h
  | ok pos =>
    simp only [hbbt,Except.map,Except.bind] at h
    cases hmeta : bootblkGetNextMetaPos { r.metaPage with bbtPageAddress := pos } with
    | error x => simp [hmeta] at h
    | ok pos' =>
      simp only [hmeta,Except.ok.injEq,Prod.mk.injEq] at h
      rw [← h.1,← h.2]
      refine ⟨rfl,rfl,fun blk hblk lun hlun => ?_,rfl⟩
      exact if_pos ⟨hblk,hlun⟩

/-- `try_recovery_systbl` when it succeeds: both pages were found, `rebuild_systbl` ran, and the pages
written at the end are made from the tables as they were. -/
theorem tryRecoverySystbl_ok {r r' : BootRam} {k : BootDisk} {reads : BootReads} {path : RecoveryPath}
    {cmds : List (BootPos × BootPage)}
    (h : r.tryRecoverySystbl k reads = .ok (some (r',path,cmds))) :
    ∃ m p, bootblkRecoveryMetaPage k reads r.metaPage = some m ∧
      bootblkRecoveryBbtPage k reads m = some p ∧ path = .rebuildSystbl ∧
      flushBootPages { r with metaPage := m, bbtPage := p } .powerDownUnsafe = .ok (r',cmds) := by
  unfold BootRam.tryRecoverySystbl at h
  cases hm : bootblkRecoveryMetaPage k reads r.metaPage with
  | none => simp [hm] at h
  | some m =>
    cases hp : bootblkRecoveryBbtPage k reads m with
    | none => simp [hm,hp] at h
    | some p =>
      simp only [hm,hp] at h
      cases hf : flushBootPages { r with metaPage := m, bbtPage := p } .powerDownUnsafe with
      | error x => simp [hf,Except.map] at h
      | ok y =>
        simp only [hf,Except.map,Except.ok.injEq,Option.some.injEq,Prod.mk.injEq] at h
        refine ⟨m,p,rfl,hp,h.2.1.symm,?_⟩
        rw [hf,← h.1,← h.2.2]

/-- The copies after `n` pairs of flushes since `bootblk_page_init`. -/
structure BootRam.Flushed (r : BootRam) (n : Nat) : Prop where
  bbtMagic : r.bbtPage.magicDw = bootblkBbtMdw
  metaMagic : r.metaPage.magicDw = bootblkMetaMdw
  bbtIter : r.metaPage.bbtChIter = [0,1,2,3]
  metaIter : r.metaPage.metaChIter = [4,5,6,7]
  bbtAddress : r.metaPage.bbtPageAddress = bootAddress 0 n
  metaAddress : r.metaPage.metaPageAddress = bootAddress 4 n

theorem bootSetup_flushed : bootSetup.Flushed 0 := ⟨rfl,rfl,rfl,rfl,rfl,rfl⟩

/-- The positions of the `n`-th pair of boot pages. -/
def bootPair (n : Nat) : List BootPos :=
  (List.range cfgNandLunNum).map (fun lun => (0,n,lun)) ++
    (List.range cfgNandLunNum).map (fun lun => (4,n,lun))

theorem bootPair_nodup (n : Nat) : (bootPair n).Nodup := by
  apply List.Nodup.append
  · apply List.nodup_range.map
    intro a b hab
    simpa using hab
  · apply List.nodup_range.map
    intro a b hab
    simpa using hab
  · intro x hx hx'
    simp only [List.mem_map] at hx hx'
    obtain ⟨a,-,rfl⟩ := hx
    obtain ⟨b,-,hb⟩ := hx'
    cases hb

section Flushed

variable {r r' : BootRam} {n : Nat} {flag : PowerDownFlag} {cmds : List (BootPos × BootPage)}

/-- From such a state the flushes get through and write the next pair of positions. -/
theorem flushBootPages_flushed (h : r.Flushed n) (flag : PowerDownFlag) :
    ∃ r' cmds, flushBootPages r flag = .ok (r',cmds) ∧ r'.Flushed (n+1) := by
  have hbbt : bootblkGetNextBbtPos r.metaPage = .ok (bootPos 0 n) := by
    rw [bootblkGetNextBbtPos,h.bbtAddress,h.bbtIter]
    exact bootblkGetNextPos_bootAddress rfl n
  have hmeta (pos : GeoPpa) : bootblkGetNextMetaPos { r.metaPage with bbtPageAddress := pos } =
      .ok (bootPos 4 n) := by
    rw [bootblkGetNextMetaPos,h.metaAddress,h.metaIter]
    exact bootblkGetNextPos_bootAddress rfl n
  unfold flushBootPages bootblkFlushBbtPage bootblkFlushMetaPage
  simp only [hbbt,hmeta,Except.map,Except.bind]
  exact ⟨_,_,rfl,h.bbtMagic,h.metaMagic,h.bbtIter,h.metaIter,rfl,rfl⟩

theorem BootRam.Flushed.next (h : r.Flushed n) (hf : flushBootPages r flag = .ok (r',cmds)) :
    r'.Flushed (n+1) := by
  obtain ⟨r₁,cmds₁,hf₁,hr₁⟩ := flushBootPages_flushed h flag
  rw [hf,Except.ok.injEq,Prod.mk.injEq] at hf₁
  exact hf₁.1 ▸ hr₁

theorem bootblkFlushDuplicated_bootPos {ch : Nat} (hch : ch < 16) (hn : n < 512) (page : BootPage) :
    bootblkFlushDuplicated page (bootPos ch n) =
      (List.range cfgNandLunNum).map fun lun => ((ch,n,lun),page) := by
  rw [bootblkFlushDuplicated,ch_bootPos hch,pg_bootPos ch hn]

/-- The commands of a pair of flushes that left the state flushed `n+1` times. -/
theorem flushBootPages_cmds (h : flushBootPages r flag = .ok (r',cmds)) (hr : r'.Flushed (n+1))
    (hn : n < 512) : cmds = (List.range cfgNandLunNum).map (fun lun => ((0,n,lun),.bbtpg r'.bbtPage)) ++
      (List.range cfgNandLunNum).map (fun lun => ((4,n,lun),.metapg r'.metaPage)) := by
  rw [(flushBootPages_ok h).2.2.2,hr.bbtAddress,hr.metaAddress,bootAddress,bootAddress,
    bootblkFlushDuplicated_bootPos (by decide) hn,bootblkFlushDuplicated_bootPos (by decide) hn]

theorem flushBootPages_positions (h : flushBootPages r flag = .ok (r',cmds)) (hr : r'.Flushed (n+1))
    (hn : n < 512) : cmds.map Prod.fst = bootPair n := by
  rw [flushBootPages_cmds h hr hn,List.map_append,List.map_map,List.map_map]
  rfl

/-- Afterwards all copies of both pages are on the disk. -/
theorem flushBootPages_copies (k : BootDisk) (h : flushBootPages r flag = .ok (r',cmds))
    (hr : r'.Flushed (n+1)) (hn : n < 512) {lun : Nat} (hlun : lun < cfgNandLunNum) :
    (k.program cmds).page (0,n,lun) = some (.bbtpg r'.bbtPage) ∧
      (k.program cmds).page (4,n,lun) = some (.metapg r'.metaPage) := by
  have hnodup : ((cmds.map fun c => (c.1,some c.2)).map Prod.fst).Nodup := by
    rw [List.map_map]
    exact flushBootPages_positions h hr hn ▸ bootPair_nodup n
  have hmem (c : BootPos × BootPage) (hc : c ∈ cmds) : (k.program cmds).page c.1 = some c.2 :=
    overwrite_of_mem hnodup (List.mem_map_of_mem hc)
  have hcmds := flushBootPages_cmds h hr hn
  constructor
  · apply hmem ((0,n,lun),.bbtpg r'.bbtPage)
    rw [hcmds]
    exact List.mem_append_left _ (List.mem_map.mpr ⟨lun,List.mem_range.mpr hlun,rfl⟩)
  · apply hmem ((4,n,lun),.metapg r'.metaPage)
    rw [hcmds]
    exact List.mem_append_right _ (List.mem_map.mpr ⟨lun,List.mem_range.mpr hlun,rfl⟩)

end Flushed

/-- The first copy decides when it can be read and is the right kind of page. -/
theorem bootblkGetMirror_of_copy {k : BootDisk} {cmdtype : BootRead} {status : Nat → Bool} {ch n : Nat}
    {page : BootPage} (hch : ch < 16) (hn : n < 512) (hok : status 0 = true)
    (hpage : k.page (ch,n,0) = some page) (hcheck : bootblkPageMdwCheck cmdtype page = true) :
    bootblkGetMirror k cmdtype status (bootPos ch n) = some page := by
  rw [bootblkGetMirror,ch_bootPos hch,pg_bootPos ch hn]
  show ((0 :: List.range' 1 7).findSome? _) = _
  rw [List.findSome?_cons]
  simp [hok,hpage,Option.filter,hcheck]

/-- The pages of the second pair are the ones a recovery finds. -/
theorem recovery_finds_second {k : BootDisk} {r : BootRam} (reads : BootReads) (h : r.Flushed 2)
    (hmeta : k.page (4,1,0) = some (.metapg r.metaPage))
    (hbbt : k.page (0,1,0) = some (.bbtpg r.bbtPage)) (hm : reads.metaOk 0 = true)
    (hb : reads.bbtOk 0 = true) :
    bootblkRecoveryMetaPage k reads bootSetup.metaPage = some r.metaPage ∧
      bootblkRecoveryBbtPage k reads r.metaPage = some r.bbtPage := by
  have hfindMeta : bootblkGetMirror k .metapgRead reads.metaOk (bootPos 4 1) =
      some (.metapg r.metaPage) := by
    apply bootblkGetMirror_of_copy (by decide) (by decide) hm hmeta
    simp [bootblkPageMdwCheck,h.metaMagic]
  have hfindBbt : bootblkGetMirror k .bbtpgRead reads.bbtOk (bootPos 0 1) =
      some (.bbtpg r.bbtPage) := by
    apply bootblkGetMirror_of_copy (by decide) (by decide) hb hbbt
    simp [bootblkPageMdwCheck,h.bbtMagic]
  have haddr : r.metaPage.bbtPageAddress = bootPos 0 1 := h.bbtAddress
  constructor
  · rw [bootblkRecoveryMetaPage,show binarySearchMetaPage bootSetup.metaPage = bootPos 4 1 from rfl,
      hfindMeta]
  · rw [bootblkRecoveryBbtPage,haddr,hfindBbt]

/-- The boot pages are read back as the driver model of `fscftl_module_init` assumes: the recovery
fails when a page is missing, and otherwise leaves the tables alone. -/
theorem tryRecoverySystbl_sys {r r' : BootRam} {k : BootDisk} {reads : BootReads} {path : RecoveryPath}
    {cmds : List (BootPos × BootPage)}
    (h : r.tryRecoverySystbl k reads = .ok (some (r',path,cmds))) : r'.sys = r.sys := by
  obtain ⟨m,p,-,-,-,hflush⟩ := tryRecoverySystbl_ok h
  exact (flushBootPages_ok hflush).1

/-- A disk after the manufactory scan `d` and a clean shutdown, and a recovery from it: the recovery
finds the table of the scan. -/
theorem recovery_after_manufactory {d : Discovery} {sys : SysTbl}
    (hscan : fscftlBbtDiscovery d sysTblInit = .ok sys) :
    ∃ r₁ cmds₁ r₂ cmds₂ r₃ cmds₃, bootSetup.doManufactoryInit d = .ok (r₁,cmds₁) ∧
      flushDownSystbl r₁ = .ok (r₂,cmds₂) ∧ r₂.Flushed 2 ∧
      bootblkRecoveryMetaPage ((BootDisk.erased.program cmds₁).program cmds₂) .all bootSetup.metaPage =
        some r₂.metaPage ∧
      bootblkRecoveryBbtPage ((BootDisk.erased.program cmds₁).program cmds₂) .all r₂.metaPage =
        some r₂.bbtPage ∧
      bootSetup.tryRecoverySystbl ((BootDisk.erased.program cmds₁).program cmds₂) .all =
        .ok (some (r₃,.rebuildSystbl,cmds₃)) ∧
      ∀ blk, blk < cfgNandBlockNum → ∀ lun, lun < cfgNandLunNum →
        r₂.bbtPage.bbt blk lun = (sys.bmitbl blk).bbt lun := by
  have hsetup : ({ bootSetup with sys := sys } : BootRam).Flushed 0 := ⟨rfl,rfl,rfl,rfl,rfl,rfl⟩
  obtain ⟨r₁,cmds₁,hflush₁,hr₁⟩ := flushBootPages_flushed hsetup .powerDownUnsafe
  obtain ⟨r₂,cmds₂,hflush₂,hr₂⟩ := flushBootPages_flushed hr₁ .powerDownSafe
  have hcopies := flushBootPages_copies (BootDisk.erased.program cmds₁) hflush₂ hr₂ (by decide)
    (by decide : 0 < cfgNandLunNum)
  obtain ⟨hmeta,hbbt⟩ := recovery_finds_second .all hr₂ hcopies.2 hcopies.1 rfl rfl
  have hfound : ({ bootSetup with metaPage := r₂.metaPage, bbtPage := r₂.bbtPage } : BootRam).Flushed 2 :=
    ⟨hr₂.bbtMagic,hr₂.metaMagic,hr₂.bbtIter,hr₂.metaIter,hr₂.bbtAddress,hr₂.metaAddress⟩
  obtain ⟨r₃,cmds₃,hflush₃,-⟩ := flushBootPages_flushed hfound .powerDownUnsafe
  refine ⟨r₁,cmds₁,r₂,cmds₂,r₃,cmds₃,?_,hflush₂,hr₂,hmeta,hbbt,?_,?_⟩
  · rw [BootRam.doManufactoryInit,show bootSetup.sys = sysTblInit from rfl,hscan]
    exact hflush₁
  · simp only [BootRam.tryRecoverySystbl,hmeta,hbbt,hflush₃,Except.map]
  · intro blk hblk lun hlun
    rw [(flushBootPages_ok hflush₂).2.2.1 blk hblk lun hlun,(flushBootPages_ok hflush₁).1]

end Sdssd.Host
