import Sdssd.Host.Allotment

/-!
# Module initialisation

`fscftl_module_init` up to the creation of the disk: table setup, the manufactory scan or the
recovery of the system tables, and `prepare_write_context`, which opens the first block.
-/

namespace Sdssd.Host

open Framework

variable {α : Type}

/-- Addresses that `dma_alloc_coherent` returned for one entity: data, metadata and PPA list. -/
structure EntityDma where
  vdata : Nat
  metaDma : Nat
  ppaDma : Nat

/-- `write_cache_alloc`, every allocation succeeding: entities with zeroed fields, all of them in
`empty_lun` in index order. -/
def writeCacheAlloc (dma : Nat → EntityDma) : WcbLunGctl α :=
  let fifo := (List.range cbEntitysCnt).foldl
    (fun r e => pushLunEntityToFifo r.1 r.2 e) (Fifo.init,fun _ => ⟨noIndex,noIndex⟩)
  { lunEntitys := fun e => ⟨0,(dma e).vdata,(dma e).metaDma,(dma e).ppaDma,fun _ => none,fun _ => 0,
      fun _ => 0,0,0,0⟩
    link := fifo.2
    emptyLun := fifo.1
    fullLun := Fifo.init
    partialEntity := none
    outstandingLun := 0 }

/-- `fscftl_setup`. -/
def fscftlSetup (dma : Nat → EntityDma) : Ftl α :=
  ⟨writeCacheAlloc dma,sysTblInit,l2pTblInit⟩

/-- What the raw reads of the scan deliver: whether its buffers could be allocated, and for every
block the bad-channel words that are in `bmi->bbt` when the block is judged. -/
structure Discovery where
  dmaOk : Bool
  bbt : Nat → Nat → Nat

/-- A scan that finds no bad channel. -/
def Discovery.clean : Discovery := ⟨true,fun _ _ => 0⟩

/-- A block is kicked out when more than 12 channels of some LUN are bad. -/
def rblkBbtCheckAvailable (t : SysTbl) (blk : Nat) : Except Fault SysTbl := do
  let bmi ← getBmiItem blk
  let bad (lun : Nat) : Nat :=
    ((List.range cfgNandChannelNum).filter fun ch => ((t.bmitbl bmi).bbt lun).testBit ch).length
  if (List.range cfgNandLunNum).any fun lun => decide (12 < bad lun) then
    return t
  insertBlkToFreeList t blk

/-- Store the scan result of one block in the block table. -/
def SysTbl.setBbt (t : SysTbl) (blk : Nat) (bbt : Nat → Nat) : SysTbl :=
  { t with bmitbl := Function.update t.bmitbl blk { t.bmitbl blk with bbt := bbt } }

/-- The blocks `CFG_NAND_BLOCK_NUM-1 .. 1` in scan order; block 0 is reserved as boot block. -/
def scanOrder : List Nat := (List.range' 1 (cfgNandBlockNum - 1)).reverse

def fscftlBbtDiscovery (d : Discovery) (t : SysTbl) : Except Fault SysTbl :=
  if d.dmaOk then
    scanOrder.foldlM (fun t blk => rblkBbtCheckAvailable (t.setBbt blk (d.bbt blk)) blk) t
  else .ok t

/-- Erasing the disk and writing the boot pages change none of the modelled tables. -/
def doManufactoryInit (d : Discovery) (f : Ftl α) : Except Fault (Ftl α) :=
  (fscftlBbtDiscovery d f.sys).map fun t => { f with sys := t }

/-- Outcome of reading the two boot pages back. -/
structure BootPages where
  metaOk : Bool
  bbtOk : Bool

/-- `rebuild_systbl` is a stub: a successful recovery leaves every table as `fscftl_setup` made it.
The result is `none` when a boot page cannot be read. -/
def tryRecoverySystbl (b : BootPages) (f : Ftl α) : Option (Ftl α) :=
  if b.metaOk && b.bbtOk then some f else none

/-- Open a block and the entity of its first stripe. -/
def prepareWriteContext (f : Ftl α) : Except Fault (Ftl α) :=
  (getBlkFromFreeList f.sys).bind fun (blk,sys) =>
    let r := getLunEntity { f with sys := sys } (Nand.blk.set 0#32 blk)
    let f := r.2.setPartial r.1
    (printLunEntitysFifo f).map fun _ => f

/-- The tables before `prepare_write_context`; `none` is a failed initialisation. -/
def initSystbl (mcp : Bool) (d : Discovery) (b : BootPages) (dma : Nat → EntityDma) :
    Except Fault (Option (Ftl α)) :=
  let f := fscftlSetup dma
  if mcp then (doManufactoryInit d f).map some else .ok (tryRecoverySystbl b f)

/-- `fscftl_module_init`, up to the point where the disk is created. -/
def fscftlModuleInit (mcp : Bool) (d : Discovery) (b : BootPages) (dma : Nat → EntityDma) :
    Except Fault (Option (Ftl α)) :=
  (initSystbl mcp d b dma).bind fun
    | none => .ok none
    | some f => (prepareWriteContext f).map some

private theorem foldl_push_holds {l : List Nat} {r : Fifo × (Nat → Link)} {m : List Nat}
    (h : Fifo.Holds r.2 r.1 m) (hn : (m ++ l).Nodup) (hno : ∀ i ∈ l, i ≠ noIndex) :
    Fifo.Holds (l.foldl (fun r e => pushLunEntityToFifo r.1 r.2 e) r).2
      (l.foldl (fun r e => pushLunEntityToFifo r.1 r.2 e) r).1 (m ++ l) := by
  induction l generalizing r m with
  | nil => simpa using h
  | cons i l ih =>
    have him : i ∉ m := fun hm => (List.nodup_append.mp hn).2.2 i hm i (by simp) rfl
    have hstep : Fifo.Holds (pushLunEntityToFifo r.1 r.2 i).2 (pushLunEntityToFifo r.1 r.2 i).1
        (m ++ [i]) := h.push him (hno i (by simp))
    have hassoc : m ++ i :: l = (m ++ [i]) ++ l := by simp
    rw [List.foldl_cons,hassoc]
    exact ih hstep (hassoc ▸ hn) (fun j hj => hno j (by simp [hj]))

theorem writeCacheAlloc_empty (dma : Nat → EntityDma) :
    Fifo.Holds (writeCacheAlloc (α := α) dma).link (writeCacheAlloc (α := α) dma).emptyLun
      (List.range cbEntitysCnt) := by
  have h := foldl_push_holds (l := List.range cbEntitysCnt) (r := (Fifo.init,fun _ => ⟨noIndex,noIndex⟩))
    (m := []) (Fifo.holds_init _) (by simpa using List.nodup_range) (by
      intro i hi
      simp only [cbEntitysCnt_eq,List.mem_range] at hi
      unfold noIndex
      omega)
  rwa [List.nil_append] at h

private theorem check_pool {t : SysTbl} {blk : Nat} {l : List Nat} (h : Pool t l)
    (hb : blk < cfgNandBlockNum) (hbl : blk ∉ l) :
    ∃ t' l', rblkBbtCheckAvailable t blk = .ok t' ∧ Pool t' l' ∧ (l' = l ∨ l' = l ++ [blk]) ∧
      ((t.bmitbl blk).bbt = (fun _ => 0) → l' = l ++ [blk]) ∧
      ∀ c, (t'.bmitbl c).bbt = (t.bmitbl c).bbt := by
  unfold rblkBbtCheckAvailable
  simp only [getBmiItem_of_lt hb,bind,Except.bind]
  split
  · rename_i hbad
    refine ⟨t,l,rfl,h,Or.inl rfl,fun hz => ?_,fun _ => rfl⟩
    simp [hz] at hbad
  · obtain ⟨t',ht,hp,hbbt⟩ := insertBlkToFreeList_pool h hb hbl
    exact ⟨t',_,ht,hp,Or.inr rfl,fun _ => rfl,hbbt⟩

private theorem scan_pool (blks : List Nat) {d : Discovery} {t : SysTbl} {l : List Nat} (h : Pool t l)
    (hn : (l ++ blks).Nodup) (hb : ∀ b ∈ blks, b < cfgNandBlockNum) :
    ∃ t' l', blks.foldlM (fun t blk => rblkBbtCheckAvailable (t.setBbt blk (d.bbt blk)) blk) t =
      Except.ok t' ∧ Pool t' l' ∧ l'.Sublist (l ++ blks) ∧ (d = .clean → l' = l ++ blks) ∧
      ∀ c, (t'.bmitbl c).bbt = if c ∈ blks then d.bbt c else (t.bmitbl c).bbt := by
  induction blks generalizing t l with
  | nil => exact ⟨t,l,rfl,h,by simp,by simp,by simp⟩
  | cons b blks ih =>
    have hbl : b ∉ l := fun hm => (List.nodup_append.mp hn).2.2 b hm b (by simp) rfl
    have hset : Pool (t.setBbt b (d.bbt b)) l := ⟨h.holds,h.lt⟩
    obtain ⟨t₁,l₁,hcheck,hp₁,hl₁,hgood,hbbt₁⟩ := check_pool hset (hb b (by simp)) hbl
    have hsub : (l₁ ++ blks).Sublist (l ++ b :: blks) := by
      rcases hl₁ with rfl | rfl
      · exact (List.Sublist.refl _).append (List.sublist_cons_self b blks)
      · simp
    obtain ⟨t₂,l₂,hrest,hp₂,hl₂,hclean,hbbt₂⟩ :=
      ih hp₁ (hn.sublist hsub) (fun c hc => hb c (by simp [hc]))
    refine ⟨t₂,l₂,?_,hp₂,hl₂.trans hsub,?_,fun c => ?_⟩
    · rw [List.foldlM_cons,hcheck]
      exact hrest
    · intro hd
      rw [hclean hd,hgood (by subst hd; simp [SysTbl.setBbt,Discovery.clean]),List.append_assoc]
      rfl
    · rw [hbbt₂ c,hbbt₁ c]
      by_cases hc : c = b
      · simp [hc,SysTbl.setBbt]
      · simp [hc,SysTbl.setBbt]

theorem scanOrder_nodup : scanOrder.Nodup :=
  List.nodup_reverse.mpr List.nodup_range'

theorem mem_scanOrder {b : Nat} (h : b ∈ scanOrder) : b ≠ 0 ∧ b < cfgNandBlockNum := by
  simp only [scanOrder,List.mem_reverse,List.mem_range'_1,cfgNandBlockNum_eq] at h ⊢
  omega

/-- The scan never faults, and the pool it builds is a subsequence of the scanned blocks; without
bad channels it is all of them. It leaves the bad channels it found in the block table. -/
theorem fscftlBbtDiscovery_pool (d : Discovery) :
    ∃ t l, fscftlBbtDiscovery d sysTblInit = .ok t ∧ Pool t l ∧ l.Sublist scanOrder ∧
      (d = .clean → l = scanOrder) ∧
      (d.dmaOk = true → ∀ b, (t.bmitbl b).bbt = if b ∈ scanOrder then d.bbt b else fun _ => 0) := by
  unfold fscftlBbtDiscovery
  split
  · obtain ⟨t,l,ht,hp,hl,hclean,hbbt⟩ := scan_pool scanOrder (d := d) pool_init
      (by simpa using scanOrder_nodup) (fun b hb => (mem_scanOrder hb).2)
    exact ⟨t,l,ht,hp,by simpa using hl,by simpa using hclean,fun _ => hbbt⟩
  · rename_i hd
    exact ⟨_,[],rfl,pool_init,List.nil_sublist _,fun h => absurd (h ▸ rfl) hd,fun h => absurd h hd⟩

private theorem startppa_toNat {blk : Nat} (h : blk < cfgNandBlockNum) :
    (Nand.pl.set (Nand.sec.set (Nand.ch.set (Nand.blk.set 0#32 blk) 0) 0) 0).toNat =
      blk * blockPages := by
  simp only [cfgNandBlockNum_eq] at h
  rw [toNat_stripe,toNat_blk_zero (by omega),blockPages_eq]
  omega

/-- The block that `prepare_write_context` opens, given the pool it finds. -/
def firstBlock (pool : List Nat) : Nat := pool.headD 0

/-- The tables as initialisation leaves them, `free` being the blocks that `prepare_write_context`
found in the pool: entity 0 is open at the first page of the first block, the other entities wait
in `empty_lun`, and no LBA is mapped. -/
structure Booted (f : Ftl α) (free : List Nat) : Prop where
  pool : Pool f.sys free.tail
  ready : Ready f 0 (List.range' 1 (cbEntitysCnt - 1))
  map : f.map = l2pTblInit
  fullLun : f.wcb.fullLun = Fifo.init
  outstandingLun : f.wcb.outstandingLun = 0
  zero : ∀ e, (f.ent e).pos = 0 ∧ (f.ent e).fillCnt = 0
  baddr : (f.ent 0).baddr.toNat = firstBlock free * blockPages
  opened : ∀ b, b ∈ free.head? → (f.sys.bmitbl b).bmstate = .open

theorem prepareWriteContext_booted {f : Ftl α} {pool : List Nat} (dma : Nat → EntityDma)
    (hwcb : f.wcb = writeCacheAlloc dma) (hmap : f.map = l2pTblInit) (hpool : Pool f.sys pool) :
    ∃ f', prepareWriteContext f = .ok f' ∧ Booted f' pool := by
  obtain ⟨sys,hblk,hsys,hst⟩ : ∃ sys, getBlkFromFreeList f.sys = .ok (firstBlock pool,sys) ∧
      Pool sys pool.tail ∧ ∀ b, b ∈ pool.head? → (sys.bmitbl b).bmstate = .open := by
    cases pool with
    | nil => exact ⟨f.sys,getBlkFromFreeList_empty hpool,hpool,by simp⟩
    | cons b l =>
      obtain ⟨t,ht,hp,ho,-⟩ := getBlkFromFreeList_cons hpool
      exact ⟨t,ht,hp,by simpa using ho⟩
  have hlt : firstBlock pool < cfgNandBlockNum := by
    cases pool with
    | nil => decide
    | cons b l => exact hpool.lt b (by simp)
  have hholds := writeCacheAlloc_empty (α := α) dma
  rw [← hwcb,show List.range cbEntitysCnt = 0 :: List.range' 1 (cbEntitysCnt - 1) by decide] at hholds
  obtain ⟨q,ln,hpull,hq,-⟩ := hholds.pull
  have hpos : Nand.ch.get (Nand.blk.set 0#32 (firstBlock pool)) = 0 ∧
      Nand.sec.get (Nand.blk.set 0#32 (firstBlock pool)) = 0 ∧
      Nand.pl.get (Nand.blk.set 0#32 (firstBlock pool)) = 0 := by
    refine ⟨?_,?_,?_⟩ <;>
      rw [BitField.get_set_of_apart (by decide : Nand.blk.Fits 32) (Or.inr (by decide))] <;> decide
  have hfields (e : Nat) : (f.ent e).pos = 0 ∧ (f.ent e).fillCnt = 0 := by
    simp only [Ftl.ent,hwcb]
    exact ⟨rfl,rfl⟩
  simp only [prepareWriteContext,hblk,Except.bind,getLunEntity,pullLunEntityFromFifo,hpull,
    printLunEntitysFifo,Ftl.setPartial,Except.map]
  refine ⟨_,rfl,hsys,⟨rfl,?_,hq,by decide⟩,hmap,?_,?_,?_,?_,hst⟩
  · simp [Ftl.ent,Ftl.setEmpty,Ftl.setEnt,hpos.1,hpos.2.1,hpos.2.2]
  · simp only [Ftl.setEmpty,Ftl.setEnt,hwcb]
    rfl
  · simp only [Ftl.setEmpty,Ftl.setEnt,hwcb]
    rfl
  · intro e
    by_cases he : e = 0
    · subst he
      refine ⟨by simp [Ftl.ent,Ftl.setEmpty,Ftl.setEnt,hpos.1,hpos.2.1,hpos.2.2],?_⟩
      simpa [Ftl.ent,Ftl.setEmpty,Ftl.setEnt] using (hfields 0).2
    · simpa [Ftl.ent,Ftl.setEmpty,Ftl.setEnt,Function.update_of_ne he] using hfields e
  · simp only [Ftl.ent,Ftl.setEmpty,Ftl.setEnt,Function.update_self]
    exact startppa_toNat hlt

/-- The tables that `prepare_write_context` finds, with the free pool `free`. -/
structure Prepared (g : Ftl α) (dma : Nat → EntityDma) (free : List Nat) : Prop where
  wcb : g.wcb = writeCacheAlloc dma
  map : g.map = l2pTblInit
  pool : Pool g.sys free
  scanned : free.Sublist scanOrder

theorem initSystbl_prepared {mcp : Bool} {d : Discovery} {b : BootPages} {dma : Nat → EntityDma}
    {g : Ftl α} (h : initSystbl mcp d b dma = .ok (some g)) :
    ∃ free, Prepared g dma free ∧ (mcp = true → d = .clean → free = scanOrder) := by
  cases mcp with
  | true =>
    obtain ⟨t,free,ht,hp,hl,hclean,-⟩ := fscftlBbtDiscovery_pool d
    have hsys : (fscftlSetup (α := α) dma).sys = sysTblInit := rfl
    simp only [initSystbl,if_true,doManufactoryInit,hsys,ht,Except.map,Except.ok.injEq,
      Option.some.injEq] at h
    subst h
    exact ⟨free,⟨rfl,rfl,hp,hl⟩,fun _ => hclean⟩
  | false =>
    simp only [initSystbl,Bool.false_eq_true,if_false,tryRecoverySystbl,Except.ok.injEq,
      Option.ite_none_right_eq_some,Option.some.injEq] at h
    obtain ⟨-,rfl⟩ := h
    exact ⟨[],⟨rfl,rfl,pool_init,List.nil_sublist _⟩,by simp⟩

/-- The manufactory path always gets through. -/
theorem fscftlModuleInit_manufactory (d : Discovery) (b : BootPages) (dma : Nat → EntityDma) :
    ∃ g f : Ftl α, doManufactoryInit d (fscftlSetup dma) = .ok g ∧
      initSystbl true d b dma = .ok (some g) ∧ prepareWriteContext g = .ok f ∧
      fscftlModuleInit true d b dma = .ok (some f) := by
  obtain ⟨t,-,ht,-,-,-,-⟩ := fscftlBbtDiscovery_pool d
  have hsys : (fscftlSetup (α := α) dma).sys = sysTblInit := rfl
  have hmake : doManufactoryInit d (fscftlSetup (α := α) dma) = .ok { fscftlSetup dma with sys := t } := by
    simp only [doManufactoryInit,hsys,ht,Except.map]
  have hg : initSystbl (α := α) true d b dma = .ok (some { fscftlSetup dma with sys := t }) := by
    simp only [initSystbl,if_true,hmake,Except.map]
  obtain ⟨free,hprep,-⟩ := initSystbl_prepared hg
  obtain ⟨f,hf,-⟩ := prepareWriteContext_booted dma hprep.wcb hprep.map hprep.pool
  exact ⟨_,f,hmake,hg,hf,by simp only [fscftlModuleInit,hg,Except.bind,hf,Except.map]⟩

theorem Prepared.booted {g f : Ftl α} {dma : Nat → EntityDma} {free : List Nat}
    (h : Prepared g dma free) (hf : prepareWriteContext g = .ok f) : Booted f free := by
  obtain ⟨f',hf',hb⟩ := prepareWriteContext_booted dma h.wcb h.map h.pool
  rw [hf,Except.ok.injEq] at hf'
  exact hf' ▸ hb

/-- A successful `fscftl_module_init` ends in a booted state. -/
theorem fscftlModuleInit_booted {mcp : Bool} {d : Discovery} {b : BootPages} {dma : Nat → EntityDma}
    {f : Ftl α} (h : fscftlModuleInit mcp d b dma = .ok (some f)) :
    ∃ free, Booted f free ∧ free.Sublist scanOrder ∧
      (mcp = true → d = .clean → free = scanOrder) := by
  unfold fscftlModuleInit at h
  cases hg : initSystbl (α := α) mcp d b dma with
  | error x => simp [hg,Except.bind] at h
  | ok o =>
    cases o with
    | none => simp [hg,Except.bind] at h
    | some g =>
      obtain ⟨free,hprep,hclean⟩ := initSystbl_prepared hg
      obtain ⟨f',hf',hb⟩ := prepareWriteContext_booted dma hprep.wcb hprep.map hprep.pool
      simp only [hg,Except.bind,hf',Except.map,Except.ok.injEq,Option.some.injEq] at h
      exact ⟨free,h ▸ hb,hprep.scanned,hclean⟩

theorem manufactory_booted (d : Discovery) (b : BootPages) (dma : Nat → EntityDma) :
    ∃ (f : Ftl α) (free : List Nat), fscftlModuleInit true d b dma = .ok (some f) ∧ Booted f free ∧
      free.Sublist scanOrder := by
  obtain ⟨-,f,-,-,-,hinit⟩ := fscftlModuleInit_manufactory (α := α) d b dma
  obtain ⟨free,hboot,hscan,-⟩ := fscftlModuleInit_booted hinit
  exact ⟨f,free,hinit,hboot,hscan⟩

end Sdssd.Host
