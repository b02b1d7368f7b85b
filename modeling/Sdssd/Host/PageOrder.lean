import Sdssd.Host.Frontier

/-!
# The order in which physical pages are handed out

Runs of the allocator: allocations of any size, and between them whatever the copies, the writer
and the completions do to the other entities.
-/

namespace Sdssd.Host

open Framework

variable {α : Type}

/-- The PPAs an allocation wrote, read back from the entities at the slots it recorded. -/
def AllocResult.ppas (r : AllocResult α) : List Nat := (ctxSlots r.ctxs).map r.ftl.ppaAt

/-- What the rest of the driver does between two allocations: it touches neither the block tables
nor the stripe and position of the open entity, and it keeps `empty_lun` a queue that the open
entity is not in. -/
structure Quiet (f f' : Ftl α) : Prop where
  sys : f'.sys = f.sys
  isPart : f'.wcb.partialEntity = f.wcb.partialEntity
  stands : ∀ e, f.wcb.partialEntity = some e →
    (f'.ent e).baddr = (f.ent e).baddr ∧ (f'.ent e).pos = (f.ent e).pos
  queue : ∀ e, f.wcb.partialEntity = some e → ∃ q, Fifo.Holds f'.wcb.link f'.wcb.emptyLun q ∧ e ∉ q

/-- A run of the allocator from `f₀` to `f` in which every block switch finds the pool non-empty,
and the PPAs it has written, in order. -/
inductive AllocRun (f₀ : Ftl α) : List Nat → Ftl α → Prop
  | start : AllocRun f₀ [] f₀
  | alloc {log : List Nat} {f : Ftl α} {slba n : Nat} {r : AllocResult α} (h : AllocRun f₀ log f)
      (hcov : PoolCovers f (allotCount n)) (hr : allocWcbCore f slba n = .ok r) :
      AllocRun f₀ (log ++ r.ppas) r.ftl
  | other {log : List Nat} {f f' : Ftl α} (h : AllocRun f₀ log f) (hq : Quiet f f') :
      AllocRun f₀ log f'

theorem Quiet.ready {f f' : Ftl α} {e : Nat} {q : List Nat} (h : Quiet f f') (hr : Ready f e q) :
    ∃ q', Ready f' e q' := by
  obtain ⟨q',hq,he⟩ := h.queue e hr.isPart
  exact ⟨q',h.isPart.trans hr.isPart,by rw [(h.stands e hr.isPart).2]; exact hr.pos,hq,he⟩

/-- The frontier of a booted driver is the first page of its first block. -/
theorem Booted.frontier {f : Ftl α} {free : List Nat} (h : Booted f free)
    (hs : free.Sublist scanOrder) : Frontier f (firstBlock free :: free.tail) 0 := by
  have hcons : ∀ b ∈ firstBlock free :: free.tail, b = firstBlock free ∨ b ∈ free.tail := by simp
  have hhead : firstBlock free = 0 ∨ firstBlock free ∈ free := by
    cases free with
    | nil => exact Or.inl rfl
    | cons b l => exact Or.inr (by simp [firstBlock])
  have hpart := h.ready.isPart
  refine ⟨by simpa using h.pool,?_,?_,?_,by simp,?_,?_⟩
  · intro b hb hb0
    simp only [Nat.zero_div,Nat.zero_add,List.take_succ_cons,List.take_zero,List.mem_singleton] at hb
    subst hb
    apply h.opened
    cases free with
    | nil => exact absurd rfl hb0
    | cons b l => simp [firstBlock]
  · intro e he
    rw [hpart,Option.some.injEq] at he
    subst he
    rw [h.baddr]
    simp only [blockPages_eq,raidLunSecNum_eq]
    omega
  · simp only [Ftl.cursor,hpart,h.baddr,(h.zero 0).1,pageAt,Nat.zero_div,Nat.zero_mod]
    rfl
  · cases free with
    | nil => simp [firstBlock]
    | cons b l => exact scanOrder_nodup.sublist hs
  · intro b hb
    rcases hcons b hb with rfl | hb
    · rcases hhead with h0 | hm
      · rw [h0]; decide
      · exact (mem_scanOrder (hs.subset hm)).2
    · exact h.pool.lt b hb

/-- Along a run the log is the sequence of pages up to the frontier. -/
theorem AllocRun.frontier {f₀ f : Ftl α} {e : Nat} {q all log : List Nat} (hr : Ready f₀ e q)
    (hf : Frontier f₀ all 0) (h : AllocRun f₀ log f) :
    (∃ e' q', Ready f e' q') ∧ Frontier f all log.length ∧
      log = (List.range log.length).map (pageAt all) := by
  induction h with
  | start => exact ⟨⟨e,q,hr⟩,hf,rfl⟩
  | @alloc log g slba n r _ hcov hcall ih =>
    obtain ⟨⟨x,qs,hg⟩,hgf,hlog⟩ := ih
    obtain ⟨-,-,hall⟩ := allocWcbCore_sound hcall
    obtain ⟨hf',hppa⟩ := allotPages_frontier hg hgf ((hgf.poolCovers_iff _).mp hcov) hall
    obtain ⟨-,e',q',hr',-,-⟩ := allotPages_slots hg hall
    have hlen : r.ppas.length = allotCount n := by
      rw [AllocResult.ppas,List.length_map]
      exact (allotPages_written hg hall).2.1
    refine ⟨⟨e',q',hr'⟩,?_,?_⟩
    · rw [List.length_append,hlen]
      exact hf'
    · rw [List.length_append,hlen,List.range_eq_range',← List.range'_append_1,List.map_append,
        ← List.range_eq_range',← hlog,Nat.zero_add,← hppa]
      rfl
  | other _ hq ih =>
    obtain ⟨⟨x,qs,hg⟩,hgf,hlog⟩ := ih
    obtain ⟨qs',hg'⟩ := hq.ready hg
    exact ⟨⟨x,qs',hg'⟩,hgf.congr hq.sys hq.isPart hq.stands,hlog⟩

private theorem range'_map_digits {all : List Nat} {m pages : Nat} (hm : m < all.length)
    (hpos : 0 < pages) :
    (List.range' (m * pages) pages).map (fun k => all.getD (k / pages) 0 * pages + k % pages) =
      List.range' (all[m] * pages) pages := by
  rw [List.range'_eq_map_range,List.range'_eq_map_range,List.map_map]
  apply List.map_congr_left
  intro j hj
  have hj' : j < pages := List.mem_range.mp hj
  simp only [Function.comp_apply]
  rw [Nat.add_comm (m * pages),Nat.add_mul_div_right _ _ hpos,Nat.add_mul_mod_self_right,
    Nat.div_eq_of_lt hj',Nat.mod_eq_of_lt hj',Nat.zero_add,List.getD_eq_getElem _ _ hm]

-- stated for an arbitrary block size above, so that no check evaluates a range of a whole block
private theorem range'_map_pageAt {all : List Nat} {m : Nat} (hm : m < all.length) :
    (List.range' (m * blockPages) blockPages).map (pageAt all) =
      List.range' (all[m] * blockPages) blockPages :=
  range'_map_digits hm (by decide)

/-- The pages of the first `m` blocks, block by block. -/
theorem range_map_pageAt {all : List Nat} {m : Nat} (hm : m ≤ all.length)
    (hlt : ∀ b ∈ all, b < cfgNandBlockNum) :
    (List.range (m * blockPages)).map (pageAt all) = (all.take m).flatMap blockEnum := by
  induction m with
  | zero => rw [Nat.zero_mul]; rfl
  | succ m ih =>
    have hb : all[m] < 4096 := Nat.lt_of_lt_of_le (hlt _ (List.getElem_mem hm)) (by decide)
    rw [Nat.succ_mul,List.range_eq_range',← List.range'_append_1,List.map_append,
      ← List.range_eq_range',ih (Nat.le_of_lt hm),Nat.zero_add,range'_map_pageAt hm,
      List.take_add_one,List.getElem?_eq_getElem hm,List.flatMap_append,← blockEnum_eq hb]
    simp only [Option.toList_some,List.flatMap_cons,List.flatMap_nil,List.append_nil]

/-- Different positions below the end of the blocks are different pages. -/
theorem pageAt_injOn {all : List Nat} (hn : all.Nodup) {i j : Nat} (hi : i / blockPages < all.length)
    (hj : j / blockPages < all.length) (h : pageAt all i = pageAt all j) : i = j := by
  simp only [pageAt,List.getD_eq_getElem _ _ hi,List.getD_eq_getElem _ _ hj] at h
  have hmod : i % blockPages = j % blockPages := by
    have h' := congrArg (· % blockPages) h
    simpa only [Nat.add_comm,Nat.add_mul_mod_self_right,Nat.mod_mod] using h'
  have hblk : all[i / blockPages] = all[j / blockPages] := by
    rw [hmod] at h
    exact Nat.eq_of_mul_eq_mul_right (by decide : 0 < blockPages) (Nat.add_right_cancel h)
  have hdiv := (hn.getElem_inj_iff).mp hblk
  rw [← Nat.div_add_mod i blockPages,← Nat.div_add_mod j blockPages,hdiv,hmod]

theorem Frontier.log_nodup {f : Ftl α} {all : List Nat} {k : Nat} (h : Frontier f all k) :
    ((List.range k).map (pageAt all)).Nodup := by
  have hin := h.inRange
  have hlt {i : Nat} (hi : i ∈ List.range k) : i / blockPages < all.length :=
    Nat.lt_of_le_of_lt (Nat.div_le_div_right (Nat.le_of_lt (List.mem_range.mp hi))) hin
  refine (List.nodup_map_iff_inj_on List.nodup_range).mpr ?_
  intro i hi j hj he
  exact pageAt_injOn h.nodup (hlt hi) (hlt hj) he

/-- A run goes on with any request that the empty entities and the pool can serve. -/
theorem AllocRun.extend {f₀ f : Ftl α} {e k n : Nat} {q all log : List Nat} (slba : Nat)
    (h : AllocRun f₀ log f) (hr : Ready f e q) (hf : Frontier f all k) (h1 : 1 ≤ n)
    (hcross : ((f.ent e).pos + n - 1) / raidLunSecNum < maxUsedWcbEntitys)
    (hq : ((f.ent e).pos + n) / raidLunSecNum ≤ q.length) (hcov : (k + n) / blockPages < all.length) :
    ∃ r, allocWcbCore f slba n = .ok r ∧ AllocRun f₀ (log ++ r.ppas) r.ftl ∧
      r.ppas = (List.range' k n).map (pageAt all) ∧ Frontier r.ftl all (k + n) ∧
      ∃ e' q', Ready r.ftl e' q' ∧ (e :: q).drop (((f.ent e).pos + n) / raidLunSecNum) = e' :: q' ∧
        (r.ftl.ent e').pos = ((f.ent e).pos + n) % raidLunSecNum := by
  obtain ⟨ss,f',hall⟩ := allotPages_progress slba hr hf.pool hq
  obtain ⟨r,hcall,-,rfl,rfl⟩ := allocWcbCore_complete hr.isPart h1 hr.pos hcross hall
  have hn : n < 2^32 := by
    simp only [raidLunSecNum_eq,maxUsedWcbEntitys_eq] at hcross
    omega
  obtain ⟨hf',hppas⟩ := allotPages_frontier hr hf hcov hall
  refine ⟨r,hcall,h.alloc ?_ hcall,hppas,hf',(allotPages_slots hr hall).2⟩
  rw [allotCount_of_lt h1 hn]
  exact (hf.poolCovers_iff n).mpr hcov

/-- The PPAs handed out since manufactory initialisation are, for each opened block in turn, the
enumeration of all its pages in increasing order, cut off at the pages handed out so far. The blocks
are the first one and then those of the pool in pool order; the pool still holds the others, so a
block leaves it only when the block before it is used up. No page occurs twice. -/
theorem ppas_enumerate_blocks {d : Discovery} {dma : Nat → EntityDma} {g f₀ f : Ftl α}
    {free log : List Nat} (hg : doManufactoryInit d (fscftlSetup dma) = .ok g)
    (hfree : Pool g.sys free) (hf₀ : prepareWriteContext g = .ok f₀) (hrun : AllocRun f₀ log f) :
    ∃ opened rest, opened ++ rest = firstBlock free :: free.tail ∧ Pool f.sys rest ∧
      opened.length = log.length / blockPages + 1 ∧
      log = (opened.flatMap blockEnum).take log.length ∧
      (∀ b ∈ opened, blockEnum b = List.range' (b * blockPages) blockPages) ∧ log.Nodup := by
  have hinit : initSystbl true d ⟨false,false⟩ dma = .ok (some g) := by
    simp only [initSystbl,if_true,hg,Except.map]
  obtain ⟨free',hprep,-⟩ := initSystbl_prepared hinit
  have hsame : free' = free := by
    rw [← hprep.pool.holds.toList_eq,← hfree.holds.toList_eq]
  subst hsame
  have hboot := hprep.booted hf₀
  obtain ⟨-,hfr,hlog⟩ := hrun.frontier hboot.ready (hboot.frontier hprep.scanned)
  refine ⟨_,_,List.take_append_drop _ _,hfr.pool,?_,?_,?_,hlog ▸ hfr.log_nodup⟩
  · rw [List.length_take]
    exact Nat.min_eq_left hfr.inRange
  · have hle : log.length ≤ (log.length / blockPages + 1) * blockPages := by
      simp only [blockPages_eq]
      omega
    rw [← range_map_pageAt hfr.inRange hfr.lt,← List.map_take,List.take_range,Nat.min_eq_left hle]
    exact hlog
  · intro b hb
    exact blockEnum_eq (Nat.lt_of_lt_of_le (hfr.lt b (List.mem_of_mem_take hb)) (by decide))

/-- Two requests of 100 pages, the second of which crosses into the next entity. -/
theorem ppas_enumerate_blocks_crossing : ∃ (g f₀ f : Ftl Unit) (free log : List Nat),
    doManufactoryInit .clean (fscftlSetup fun _ => ⟨0,0,0⟩) = .ok g ∧ Pool g.sys free ∧
    prepareWriteContext g = .ok f₀ ∧ AllocRun f₀ log f ∧ log.length = 200 ∧ log.Nodup := by
  obtain ⟨g,f₀,hmake,hg,hf₀,-⟩ := fscftlModuleInit_manufactory (α := Unit) .clean ⟨true,true⟩
    (fun _ => ⟨0,0,0⟩)
  obtain ⟨free,hprep,-⟩ := initSystbl_prepared hg
  have hboot := hprep.booted hf₀
  have hfr₀ := hboot.frontier hprep.scanned
  have hpos₀ := (hboot.zero 0).1
  have hcov (n : Nat) (hn : n < blockPages) :
      (0 + n) / blockPages < (firstBlock free :: free.tail).length := by
    rw [Nat.zero_add,Nat.div_eq_of_lt hn]
    exact Nat.succ_pos _
  obtain ⟨r₁,-,hrun₁,hp₁,hfr₁,e₁,q₁,hr₁,hdrop,hpos₁⟩ := AllocRun.start.extend 7 hboot.ready hfr₀
    (by decide : 1 ≤ 100) (by rw [hpos₀]; decide) (by rw [hpos₀]; decide) (hcov 100 (by decide))
  rw [hpos₀] at hdrop hpos₁
  have hq₁ : q₁ = List.range' 1 (cbEntitysCnt - 1) := (List.cons.inj hdrop).2.symm
  obtain ⟨r₂,-,hrun₂,hp₂,-⟩ := hrun₁.extend 7 hr₁ hfr₁ (by decide : 1 ≤ 100) (by rw [hpos₁]; decide)
    (by rw [hpos₁,hq₁]; decide) (hcov 200 (by decide))
  obtain ⟨-,-,-,-,-,-,-,hnodup⟩ := ppas_enumerate_blocks hmake hprep.pool hf₀ hrun₂
  exact ⟨g,f₀,r₂.ftl,free,_,hmake,hprep.pool,hf₀,hrun₂,by simp [hp₁,hp₂],hnodup⟩

/-- A block that user data may go to: not the boot block, and opened when it left the pool. -/
def UserBlock (f : Ftl α) (b : Nat) : Prop := b ≠ 0 ∧ (f.sys.bmitbl b).bmstate = .open

private theorem blk_ofNat_pageAt {all : List Nat} {i : Nat} (hi : i / blockPages < all.length)
    (hlt : ∀ b ∈ all, b < cfgNandBlockNum) {w : GeoPpa}
    (hw : w.toNat / blockPages = pageAt all i / blockPages) : Nand.blk.get w = all[i / blockPages] := by
  have hb := hlt _ (List.getElem_mem hi)
  rw [pageAt,List.getD_eq_getElem _ _ hi] at hw
  rw [nand_blk_eq]
  simp only [blockPages_eq,cfgNandBlockNum_eq] at hw hb ⊢
  omega

/-- The condition is on the pool: when it is not empty as `prepare_write_context` opens the first
block, and every block switch finds it non-empty, all pages handed out and the stripe being filled
lie in blocks pulled from it, whichever way the module was initialised. -/
theorem user_pages_in_open_blocks {mcp : Bool} {d : Discovery} {b : BootPages}
    {dma : Nat → EntityDma} {g f₀ f : Ftl α} {log : List Nat}
    (hg : initSystbl mcp d b dma = .ok (some g)) (hfree : g.sys.freeBlkPool.size ≠ 0)
    (hf₀ : prepareWriteContext g = .ok f₀) (hrun : AllocRun f₀ log f) :
    (∀ p ∈ log, UserBlock f (Nand.blk.get (BitVec.ofNat 32 p))) ∧
      ∃ e, f.wcb.partialEntity = some e ∧ UserBlock f (Nand.blk.get (f.ent e).baddr) := by
  obtain ⟨free,hprep,-⟩ := initSystbl_prepared hg
  have hboot := hprep.booted hf₀
  obtain ⟨⟨e,q,hr⟩,hfr,hlog⟩ := hrun.frontier hboot.ready (hboot.frontier hprep.scanned)
  have hall : firstBlock free :: free.tail = free := by
    cases free with
    | nil => exact absurd hprep.pool.holds.size hfree
    | cons b l => rfl
  rw [hall] at hfr hlog
  -- every page up to the frontier, the next one included, is in a used block
  have hused (i : Nat) (hi : i ≤ log.length) {w : GeoPpa}
      (hw : w.toNat / blockPages = pageAt free i / blockPages) : UserBlock f (Nand.blk.get w) := by
    have hdiv : i / blockPages ≤ log.length / blockPages := Nat.div_le_div_right hi
    have hin := Nat.lt_of_le_of_lt hdiv hfr.inRange
    rw [blk_ofNat_pageAt hin hfr.lt hw]
    have hb0 := (mem_scanOrder (hprep.scanned.subset (List.getElem_mem hin))).1
    refine ⟨hb0,hfr.opened _ ?_ hb0⟩
    exact List.mem_take_iff_getElem.mpr ⟨i / blockPages,by omega,rfl⟩
  constructor
  · intro p hp
    rw [hlog] at hp
    obtain ⟨i,hi,rfl⟩ := List.mem_map.mp hp
    refine hused i (Nat.le_of_lt (List.mem_range.mp hi)) ?_
    have hlt := hfr.pageAt_lt i
    simp only [cfgNandBlockNum_eq,blockPages_eq] at hlt
    rw [BitVec.toNat_ofNat,Nat.mod_eq_of_lt (by omega)]
  · refine ⟨e,hr.isPart,hused log.length (Nat.le_refl _) ?_⟩
    obtain ⟨hcur,-,hpos⟩ := hfr.partial_eq hr.isPart hr.pos
    have hs := hfr.stripe e hr.isPart
    have hp := hr.pos
    simp only [raidLunSecNum_eq,blockPages_eq] at hcur hs hp hpos ⊢
    omega

/-- After a clean scan the first page of a write is in a user block. -/
theorem user_pages_in_open_blocks_clean : ∃ (f : Ftl Unit) (r : AllocResult Unit),
    fscftlModuleInit true .clean ⟨true,true⟩ (fun _ => ⟨0,0,0⟩) = .ok (some f) ∧
    allocWcbCore f 0 1 = .ok r ∧ ∀ p ∈ r.ppas, UserBlock r.ftl (Nand.blk.get (BitVec.ofNat 32 p)) := by
  obtain ⟨g,f,-,hg,hf,hinit⟩ := fscftlModuleInit_manufactory (α := Unit) .clean ⟨true,true⟩
    (fun _ => ⟨0,0,0⟩)
  obtain ⟨free,hprep,hclean⟩ := initSystbl_prepared hg
  have hsize : g.sys.freeBlkPool.size ≠ 0 := by
    rw [hprep.pool.holds.size,hclean rfl rfl]
    simp [scanOrder]
  have hboot := hprep.booted hf
  have hpos := (hboot.zero 0).1
  obtain ⟨r,hcall,hrun,-⟩ := AllocRun.start.extend 0 hboot.ready (hboot.frontier hprep.scanned)
    (Nat.le_refl 1) (by rw [hpos]; decide) (by rw [hpos]; decide)
    (by rw [Nat.div_eq_of_lt (by decide)]; exact Nat.succ_pos _)
  exact ⟨f,r,hinit,hcall,(user_pages_in_open_blocks hg hsize hf hrun).1⟩

/-- Recovery leaves the pool empty, so the first write after `mcp=0` gets page 0 of block 0. -/
theorem boot_block_handed_out : ∃ (f : Ftl Unit) (r : AllocResult Unit),
    fscftlModuleInit false .clean ⟨true,true⟩ (fun _ => ⟨0,0,0⟩) = .ok (some f) ∧
    allocWcbCore f 0 1 = .ok r ∧ r.ret = 0 ∧ r.ppas = [0] ∧
    ¬ UserBlock r.ftl (Nand.blk.get (BitVec.ofNat 32 0)) := by
  have hg : initSystbl (α := Unit) false .clean ⟨true,true⟩ (fun _ => ⟨0,0,0⟩) =
      .ok (some (fscftlSetup fun _ => ⟨0,0,0⟩)) := rfl
  obtain ⟨f,hf,hboot⟩ := prepareWriteContext_booted (f := fscftlSetup (α := Unit) fun _ => ⟨0,0,0⟩)
    (fun _ => ⟨0,0,0⟩) rfl rfl pool_init
  have hpos := (hboot.zero 0).1
  obtain ⟨r,hcall,-,hp,-⟩ := AllocRun.start.extend 0 hboot.ready
    (hboot.frontier (List.nil_sublist _)) (Nat.le_refl 1) (by rw [hpos]; decide)
    (by rw [hpos]; decide) (by rw [Nat.div_eq_of_lt (by decide)]; exact Nat.succ_pos _)
  refine ⟨f,r,?_,hcall,(allocWcbCore_sound hcall).1,?_,fun h => h.1 (by decide)⟩
  · simp only [fscftlModuleInit,hg,Except.bind,hf,Except.map]
  · rw [hp]
    simp [pageAt,firstBlock]

end Sdssd.Host
