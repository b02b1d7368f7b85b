import Sdssd.Host.ModuleInit
import Mathlib.Data.List.GetD

/-!
# The write frontier

Where the allocator stands: the blocks it has used up, the block it is in and the page it will
hand out next. The frontier moves through the pages of a block in increasing address order and
takes the next block from the free pool.
-/

namespace Sdssd.Host

open Framework

variable {α : Type}

/-- All pages of a block, channel fastest, then sector, plane, LUN and page. -/
def blockEnum (blk : Nat) : List Nat :=
  (List.range (2^pgBits)).flatMap fun pg => (List.range (2^lnBits)).flatMap fun lun =>
    (List.range (2^plBits)).flatMap fun pl => (List.range (2^epBits)).flatMap fun sec =>
      (List.range (2^chBits)).map fun ch => (setNandFields 0#32 ch sec pl lun pg blk).toNat

private theorem flatMap_range'_mul (a k m : Nat) :
    (List.range m).flatMap (fun i => List.range' (a + i * k) k) = List.range' a (m * k) := by
  induction m with
  | zero => simp
  | succ m ih =>
    rw [List.range_succ,List.flatMap_append,ih,List.flatMap_cons,List.flatMap_nil,List.append_nil,
      Nat.succ_mul,List.range'_append_1]

/-- The nested enumeration is the interval of the block's addresses. -/
theorem blockEnum_eq {blk : Nat} (h : blk < 4096) :
    blockEnum blk = List.range' (blk * blockPages) blockPages := by
  have hch (sec pl lun pg : Nat) (hsec : sec < 4) (hpl : pl < 2) (hlun : lun < 8) (hpg : pg < 512) :
      (List.range 16).map (fun ch => (setNandFields 0#32 ch sec pl lun pg blk).toNat) =
        List.range' (blk * 524288 + pg * 1024 + lun * 128 + pl * 64 + sec * 16) 16 := by
    rw [List.range'_eq_map_range]
    apply List.map_congr_left
    intro ch hmem
    rw [toNat_setNandFields _ _ _ _ _ _ _ (List.mem_range.mp hmem) hsec hpl hlun hpg h]
    simp only [BitVec.toNat_ofNat,Nat.zero_mod,Nat.zero_div,Nat.mul_zero]
    omega
  have level {m : Nat} {g g' : Nat → List Nat} (hg : ∀ i, i < m → g i = g' i) :
      (List.range m).flatMap g = (List.range m).flatMap g' :=
    List.flatMap_congr fun i hi => hg i (List.mem_range.mp hi)
  change (List.range 512).flatMap (fun pg => (List.range 8).flatMap fun lun =>
    (List.range 2).flatMap fun pl => (List.range 4).flatMap fun sec => _) = _
  calc _ = (List.range 512).flatMap (fun pg => List.range' (blk * 524288 + pg * 1024) 1024) := by
        apply level
        intro pg hpg
        rw [show 1024 = 8 * 128 from rfl,← flatMap_range'_mul]
        apply level
        intro lun hlun
        rw [show 128 = 2 * 64 from rfl,← flatMap_range'_mul]
        apply level
        intro pl hpl
        rw [show 64 = 4 * 16 from rfl,← flatMap_range'_mul]
        apply level
        intro sec hsec
        exact hch sec pl lun pg hsec hpl hlun hpg
    _ = _ := flatMap_range'_mul _ _ _

theorem getNextEntityBaddr_within {t : SysTbl} {cur : GeoPpa} (hlt : cur.toNat < 2^31)
    (hin : cur.toNat / 128 % 4096 ≠ 4095) :
    ∃ b : GeoPpa, getNextEntityBaddr t cur = .ok (b,t) ∧ b.toNat = (cur.toNat / 128 + 1) * 128 := by
  have hz : cur.toNat / 2147483648 = 0 := Nat.div_eq_of_lt hlt
  have hl : Nand.lun.get cur = cur.toNat / 128 % 8 := rfl
  have hp : Nand.pg.get cur = cur.toNat / 1024 % 512 := rfl
  have hb : Nand.blk.get cur = cur.toNat / 524288 % 4096 := rfl
  simp only [getNextEntityBaddr,increBounded,ifCarryThenIncreBounded,lnBits,pgBits,hl,hp,hb]
  by_cases h7 : cur.toNat / 128 % 8 = 7
  · have h1 : (cur.toNat / 128 % 8 + 1) % 2^8 = 2^3 := by omega
    have h2 : ¬ (cur.toNat / 1024 % 512 + 1) % 2^16 = 2^9 := by omega
    simp only [h1,h2,if_true,if_false,Except.map,Bool.false_eq_true]
    refine ⟨_,rfl,?_⟩
    rw [toNat_setNandFields _ _ _ _ _ _ _ (by omega) (by omega) (by omega) (by omega) (by omega)
      (by omega)]
    omega
  · have h1 : ¬ (cur.toNat / 128 % 8 + 1) % 2^8 = 2^3 := by omega
    simp only [h1,if_false,Except.map,Bool.false_eq_true]
    refine ⟨_,rfl,?_⟩
    rw [toNat_setNandFields _ _ _ _ _ _ _ (by omega) (by omega) (by omega) (by omega) (by omega)
      (by omega)]
    omega

/-- At the last stripe of a block the pool is asked for the next one. -/
theorem getNextEntityBaddr_cross {t t' : SysTbl} {cur : GeoPpa} {blk : Nat} (hlt : cur.toNat < 2^31)
    (hend : cur.toNat / 128 % 4096 = 4095) (hblk : getBlkFromFreeList t = .ok (blk,t'))
    (hb : blk < cfgNandBlockNum) :
    ∃ b : GeoPpa, getNextEntityBaddr t cur = .ok (b,t') ∧ b.toNat = blk * blockPages := by
  simp only [cfgNandBlockNum_eq] at hb
  have hz : cur.toNat / 2147483648 = 0 := Nat.div_eq_of_lt hlt
  have hl : Nand.lun.get cur = cur.toNat / 128 % 8 := rfl
  have hp : Nand.pg.get cur = cur.toNat / 1024 % 512 := rfl
  have h1 : (cur.toNat / 128 % 8 + 1) % 2^8 = 2^3 := by omega
  have h2 : (cur.toNat / 1024 % 512 + 1) % 2^16 = 2^9 := by omega
  simp only [getNextEntityBaddr,increBounded,ifCarryThenIncreBounded,lnBits,pgBits,hl,hp,h1,h2,if_true,
    hblk,Except.map]
  refine ⟨_,rfl,?_⟩
  rw [toNat_setNandFields _ _ _ _ _ _ _ (by omega) (by omega) (by omega) (by omega) (by omega)
    (by omega),blockPages_eq]
  omega

/-- The address of the LUN after `addr`: the next one of the block, or the first one of the oldest free
block. -/
def nextLun (free : List Nat) (addr : Nat) : Option Nat :=
  if addr / raidLunSecNum % 4096 = 4095 then free.head?.map (· * blockPages)
  else some ((addr / raidLunSecNum + 1) * raidLunSecNum)

theorem getNextEntityBaddr_nextLun {t : SysTbl} {cur : GeoPpa} {free : List Nat}
    (hlt : cur.toNat < 2^31) (hpool : Pool t free) :
    ∃ b t', getNextEntityBaddr t cur = .ok (b,t') ∧ b.toNat = (nextLun free cur.toNat).getD 0 := by
  by_cases hend : cur.toNat / 128 % 4096 = 4095
  · have hnext : nextLun free cur.toNat = free.head?.map (· * blockPages) := if_pos hend
    rw [hnext]
    cases free with
    | nil =>
      obtain ⟨b,hb,haddr⟩ :=
        getNextEntityBaddr_cross hlt hend (getBlkFromFreeList_empty hpool) (by decide)
      exact ⟨b,t,hb,by simpa using haddr⟩
    | cons blk free =>
      obtain ⟨t',hblk,-⟩ := getBlkFromFreeList_cons hpool
      obtain ⟨b,hb,haddr⟩ := getNextEntityBaddr_cross hlt hend hblk (hpool.lt blk List.mem_cons_self)
      exact ⟨b,t',hb,by simpa using haddr⟩
  · have hnext : nextLun free cur.toNat = some ((cur.toNat / 128 + 1) * 128) := if_neg hend
    obtain ⟨b,hb,haddr⟩ := getNextEntityBaddr_within hlt hend
    exact ⟨b,t,hb,by rw [hnext]; exact haddr⟩

/-- Address of the page that the allocator hands out next. -/
def Ftl.cursor (f : Ftl α) : Nat :=
  match f.wcb.partialEntity with
  | none => 0
  | some e => (f.ent e).baddr.toNat + (f.ent e).pos

/-- The `k`-th page of the blocks `all`, taken one after another. -/
def pageAt (all : List Nat) (k : Nat) : Nat :=
  all.getD (k / blockPages) 0 * blockPages + k % blockPages

/-- The allocator has handed out `k` pages of the blocks `all`: the used blocks and the current one
come first, and the free pool holds the others. Block 0 among them stands for a pool that was empty
when the first block was opened. -/
structure Frontier (f : Ftl α) (all : List Nat) (k : Nat) : Prop where
  pool : Pool f.sys (all.drop (k / blockPages + 1))
  opened : ∀ b ∈ all.take (k / blockPages + 1), b ≠ 0 → (f.sys.bmitbl b).bmstate = .open
  stripe : ∀ e, f.wcb.partialEntity = some e → (f.ent e).baddr.toNat % raidLunSecNum = 0
  cursor : f.cursor = pageAt all k
  inRange : k / blockPages < all.length
  nodup : all.Nodup
  lt : ∀ b ∈ all, b < cfgNandBlockNum

theorem Frontier.pageAt_lt {f : Ftl α} {all : List Nat} {k : Nat} (h : Frontier f all k) (j : Nat) :
    pageAt all j < cfgNandBlockNum * blockPages := by
  have hlt : all.getD (j / blockPages) 0 < cfgNandBlockNum := by
    by_cases hj : j / blockPages < all.length
    · rw [List.getD_eq_getElem _ _ hj]
      exact h.lt _ (List.getElem_mem hj)
    · rw [List.getD_eq_default _ _ (Nat.not_lt.mp hj)]
      decide
  simp only [pageAt,blockPages_eq,cfgNandBlockNum_eq] at hlt ⊢
  omega

/-- Where the open entity stands. -/
theorem Frontier.partial_eq {f : Ftl α} {all : List Nat} {k e : Nat} (h : Frontier f all k)
    (he : f.wcb.partialEntity = some e) (hpos : (f.ent e).pos < raidLunSecNum) :
    (f.ent e).baddr.toNat + (f.ent e).pos = pageAt all k ∧ (f.nextPpa e).toNat = pageAt all k ∧
      (f.ent e).pos = k % raidLunSecNum := by
  have hc := h.cursor
  have hs := h.stripe e he
  have hlt := h.pageAt_lt k
  simp only [Ftl.cursor,he] at hc
  simp only [raidLunSecNum_eq,cfgNandBlockNum_eq,blockPages_eq,pageAt] at *
  refine ⟨hc,?_,by omega⟩
  rw [Ftl.nextPpa,BitVec.toNat_add,BitVec.toNat_ofNat]
  omega

/-- The frontier depends on the block tables and on where the open entity stands. -/
theorem Frontier.congr {f f' : Ftl α} {all : List Nat} {k : Nat} (h : Frontier f all k)
    (hsys : f'.sys = f.sys) (hpart : f'.wcb.partialEntity = f.wcb.partialEntity)
    (hstands : ∀ e, f.wcb.partialEntity = some e →
      (f'.ent e).baddr = (f.ent e).baddr ∧ (f'.ent e).pos = (f.ent e).pos) : Frontier f' all k := by
  refine ⟨hsys ▸ h.pool,hsys ▸ h.opened,?_,?_,h.inRange,h.nodup,h.lt⟩
  · intro e he
    rw [hpart] at he
    rw [(hstands e he).1]
    exact h.stripe e he
  · rw [← h.cursor,Ftl.cursor,Ftl.cursor,hpart]
    cases he : f.wcb.partialEntity with
    | none => rfl
    | some e => simp only [(hstands e he).1,(hstands e he).2]

/-- One allotment uses the page at the frontier and moves it on by one page; a block that is used
up is followed by the oldest block of the pool. -/
theorem Allot.frontier {f f' : Ftl α} {e e' lba k : Nat} {q q' all : List Nat} (hr : Ready f e q)
    (h : Frontier f all k) (hcov : (k + 1) / blockPages < all.length)
    (ha : Allot f e q lba f' e' q') : Frontier f' all (k + 1) := by
  obtain ⟨hcur,hnext,hpos⟩ := h.partial_eq hr.isPart hr.pos
  have hs := h.stripe e hr.isPart
  have hlt := h.pageAt_lt k
  cases ha with
  | room hroom =>
    have hb : (k + 1) / blockPages = k / blockPages := by
      simp only [raidLunSecNum_eq,blockPages_eq] at hroom hpos ⊢
      omega
    refine ⟨hb ▸ h.pool,hb ▸ h.opened,?_,?_,hcov,h.nodup,h.lt⟩
    · intro x hx
      rw [partial_writeSlot,hr.isPart,Option.some.injEq] at hx
      subst hx
      rwa [ent_writeSlot_self]
    · simp only [Ftl.cursor,partial_writeSlot,hr.isPart,ent_writeSlot_self,pageAt,hb]
      simp only [raidLunSecNum_eq,blockPages_eq,pageAt] at hb hcur hroom hpos ⊢
      omega
  | last hlast hq hbaddr hqueue hlink =>
    rename_i baddr fifo ln sys
    have hlt31 : (f.nextPpa e).toNat < 2^31 := by
      simp only [cfgNandBlockNum_eq,blockPages_eq] at hlt
      omega
    suffices hsuff : Pool sys (all.drop ((k + 1) / blockPages + 1)) ∧
        (∀ b ∈ all.take ((k + 1) / blockPages + 1), b ≠ 0 → (sys.bmitbl b).bmstate = .open) ∧
        baddr.toNat = pageAt all (k + 1) by
      refine ⟨hsuff.1,hsuff.2.1,?_,?_,hcov,h.nodup,h.lt⟩
      · intro x hx
        rw [partial_openEnt,Option.some.injEq] at hx
        subst hx
        rw [ent_openEnt_self]
        simp only [hsuff.2.2,pageAt]
        simp only [raidLunSecNum_eq,blockPages_eq] at hlast hpos ⊢
        omega
      · simp only [Ftl.cursor,partial_openEnt,ent_openEnt_self,hsuff.2.2,Nat.add_zero]
    by_cases hend : (f.nextPpa e).toNat / 128 % 4096 = 4095
    · -- the last stripe of the block: the next block comes from the pool
      have hk : (k + 1) / blockPages = k / blockPages + 1 ∧ (k + 1) % blockPages = 0 := by
        simp only [raidLunSecNum_eq,blockPages_eq,pageAt] at hnext hlast hpos ⊢
        omega
      rw [hk.1] at hcov
      have hpool := h.pool
      rw [List.drop_eq_getElem_cons hcov] at hpool
      obtain ⟨t,ht,hpt,hopen,hsame⟩ := getBlkFromFreeList_cons hpool
      obtain ⟨b,hb,hbn⟩ := getNextEntityBaddr_cross hlt31 hend ht (h.lt _ (List.getElem_mem hcov))
      rw [hbaddr,Except.ok.injEq,Prod.mk.injEq] at hb
      obtain ⟨rfl,rfl⟩ := hb
      rw [pageAt,hk.1,hk.2,List.getD_eq_getElem _ _ hcov]
      refine ⟨hpt,?_,by simp only [hbn,Nat.add_zero]⟩
      intro c hc hc0
      by_cases hnew : c = all[k / blockPages + 1]
      · rw [hnew]
        exact hopen
      · rw [hsame c hnew]
        rw [List.take_add_one,List.getElem?_eq_getElem hcov,List.mem_append] at hc
        rcases hc with hc | hc
        · exact h.opened c hc hc0
        · exact absurd (by simpa using hc) hnew
    · obtain ⟨b,hb,hbn⟩ := getNextEntityBaddr_within (t := f.sys) hlt31 hend
      rw [hbaddr,Except.ok.injEq,Prod.mk.injEq] at hb
      obtain ⟨rfl,rfl⟩ := hb
      have hk : (k + 1) / blockPages = k / blockPages := by
        simp only [raidLunSecNum_eq,blockPages_eq,pageAt] at hnext hlast hpos hend ⊢
        omega
      rw [pageAt,hk,hbn]
      refine ⟨h.pool,h.opened,?_⟩
      simp only [raidLunSecNum_eq,blockPages_eq,pageAt] at hk hnext hlast hpos hs ⊢
      omega

/-- Number of free blocks that `n` further pages use up. -/
def blockSwitches (f : Ftl α) (n : Nat) : Nat := (f.cursor % blockPages + n) / blockPages

/-- Every block switch of an allocation of `n` pages finds the free pool non-empty. -/
def PoolCovers (f : Ftl α) (n : Nat) : Prop := blockSwitches f n ≤ f.sys.freeBlkPool.size

theorem Frontier.poolCovers_iff {f : Ftl α} {all : List Nat} {k : Nat} (h : Frontier f all k) (n : Nat) :
    PoolCovers f n ↔ (k + n) / blockPages < all.length := by
  have hsize := h.pool.holds.size
  have hin := h.inRange
  rw [List.length_drop] at hsize
  rw [PoolCovers,blockSwitches,h.cursor,hsize,pageAt,Nat.mul_comm,Nat.mul_add_mod]
  simp only [blockPages_eq] at hin ⊢
  omega

/-- An allocation whose block switches are covered hands out the pages from the frontier on. -/
theorem allotPages_frontier {f f' : Ftl α} {e lba n k : Nat} {q all : List Nat} {ss : List Slot}
    (hr : Ready f e q) (hf : Frontier f all k) (hcov : (k + n) / blockPages < all.length)
    (h : allotPages n f lba = .ok (ss,f')) :
    Frontier f' all (k + n) ∧ ss.map f'.ppaAt = (List.range' k n).map (pageAt all) := by
  let P (ss : List Slot) (g : Ftl α) (x : Nat) (qs : List Nat) : Prop :=
    Frontier g all (k + ss.length) ∧ Behind ss g x qs ∧
      ss.map g.ppaAt = (List.range' k ss.length).map (pageAt all)
  have h0 : P [] f e q := ⟨hf,by simp [Behind],rfl⟩
  suffices hstep : ∀ ss g x qs g' x' qs', ss.length < n → Ready g x qs → P ss g x qs →
      Allot g x qs (lba + ss.length) g' x' qs' → P (ss ++ [(x,(g.ent x).pos)]) g' x' qs' by
    obtain ⟨hlen,e',q',-,hf',-,hppa⟩ := allotPages_induct P hr h0 hstep h
    rw [hlen] at hf' hppa
    exact ⟨hf',hppa⟩
  rintro ss g x qs g' x' qs' hlt hg ⟨hgf,hb,hppa⟩ hall
  have hcov' : (k + ss.length + 1) / blockPages < all.length :=
    Nat.lt_of_le_of_lt (Nat.div_le_div_right (by omega)) hcov
  have hold : ss.map g'.ppaAt = ss.map g.ppaAt :=
    List.map_congr_left fun s hs => (hall.off_slot (fun he => hb.notMem (he ▸ hs))).2
  simp only [P,List.length_append,List.length_singleton]
  refine ⟨hall.frontier hg hgf hcov',hall.behind hg hb,?_⟩
  rw [List.map_append,hold,hppa,List.range'_1_concat,List.map_append,List.map_singleton,
    List.map_singleton,hall.at_slot.2,(hgf.partial_eq hg.isPart hg.pos).2.1]

end Sdssd.Host
