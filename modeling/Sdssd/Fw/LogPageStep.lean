import Sdssd.Fw.Geometry
import Sdssd.Fw.RblockList

/-!
# Stepping from log page to log page

A log page is found two pages after the one before it, and behind the end of a block in the block of
the band that was opened next. The blocks of a band are linked by `push_to_rblk_dlist`, whose `prev`
leads to the block pushed later.
-/

namespace Sdssd.Fw

open Framework

/-- `get_prev_log_page_ppa`. `PG_NUM`, which is not defined anywhere, is a parameter; the field takes
`PG_NUM - 1` modulo its width. -/
def getPrevLogPagePpa (bmi : BmiLinks) (pgNum : Nat) (ppa : Ppa) : Ppa :=
  if Nand.pg.get ppa < 2 then
    Nand.pg.set (Nand.blk.set ppa (bmi (Nand.blk.get ppa)).prev) (pgNum + (2^pgBits - 1))
  else Nand.pg.set ppa (Nand.pg.get ppa - 2)

/-- What `get_next_log_page_ppa` makes of its parameter. -/
def nextLogPagePpa (bmi : BmiLinks) (pgNum : Nat) (ppa : Ppa) : Ppa :=
  if pgNum < Nand.pg.get ppa + 3 then Nand.pg.set (Nand.blk.set ppa (bmi (Nand.blk.get ppa)).next) 2
  else Nand.pg.set ppa (Nand.pg.get ppa + 2)

/-- `get_next_log_page_ppa` ends without a `return`: the parameter it has changed is lost, and a caller
gets what happens to be in the return register. -/
def getNextLogPagePpa (register : Ppa) (_bmi : BmiLinks) (_pgNum : Nat) (_ppa : Ppa) : Ppa := register

/-- Two functions step between the log pages of a band as they should, at the page `p` of a block that
was opened after the block `older` and before `newer`. -/
structure StepsInvert (prev next : Ppa → Ppa) (older newer : Nat) (p : Ppa) : Prop where
  next_prev : next (prev p) = p
  prev_next : prev (next p) = p
  prev_older : Nand.blk.get (prev p) ≠ Nand.blk.get p → Nand.blk.get (prev p) = older
  next_newer : Nand.blk.get (next p) ≠ Nand.blk.get p → Nand.blk.get (next p) = newer

/-- The links of a block between two others of the list. -/
theorem linked_neighbours {bmi : BmiLinks} {d : Dlist} {above below : List Nat} {older blk newer : Nat}
    (h : Fifo.Linked bmi d (above ++ older :: blk :: newer :: below)) :
    (bmi blk).prev = newer ∧ (bmi blk).next = older ∧ older ≠ blk ∧ newer ≠ blk ∧ older ≠ newer := by
  have hchain := (List.isChain_append.mp h.chain).2.1
  have hback := (List.isChain_append.mp h.back.tail).2.1
  have hnodup := (List.nodup_append.mp h.nodup).2.1
  rw [List.isChain_cons_cons,List.isChain_cons_cons] at hchain
  rw [List.isChain_cons_cons] at hback
  simp only [List.nodup_cons,List.mem_cons,not_or] at hnodup
  exact ⟨hchain.2.1,hback.1,hnodup.1.1,Ne.symm hnodup.2.1.1,hnodup.1.2.1⟩

section Steps

variable {bmi : BmiLinks} {pgNum : Nat} {ppa : Ppa}

theorem pg_fits : Nand.pg.Fits 32 := by decide

theorem blk_fits : Nand.blk.Fits 32 := by decide

@[simp] theorem pg_get_pg_set (v : Nat) : Nand.pg.get (Nand.pg.set ppa v) = v % 2^8 :=
  BitField.get_set pg_fits ppa v

@[simp] theorem blk_get_pg_set (v : Nat) : Nand.blk.get (Nand.pg.set ppa v) = Nand.blk.get ppa :=
  BitField.get_set_of_apart pg_fits (by decide) ppa v

@[simp] theorem blk_get_blk_set (v : Nat) : Nand.blk.get (Nand.blk.set ppa v) = v % 2^10 :=
  BitField.get_set blk_fits ppa v

/-- Inside a block a step back moves two pages. -/
theorem getPrev_inside (bmi : BmiLinks) (pgNum : Nat) (h : 2 ≤ Nand.pg.get ppa) :
    getPrevLogPagePpa bmi pgNum ppa = Nand.pg.set ppa (Nand.pg.get ppa - 2) :=
  if_neg (Nat.not_lt.mpr h)

theorem next_inside (bmi : BmiLinks) (h : Nand.pg.get ppa + 3 ≤ pgNum) :
    nextLogPagePpa bmi pgNum ppa = Nand.pg.set ppa (Nand.pg.get ppa + 2) :=
  if_neg (Nat.not_lt.mpr h)

/-- A step back from the first pages follows `prev`. -/
theorem getPrev_blk (bmi : BmiLinks) (pgNum : Nat) (h : Nand.pg.get ppa < 2) : Nand.blk.get (getPrevLogPagePpa bmi pgNum ppa) =
    (bmi (Nand.blk.get ppa)).prev % 2^10 := by
  rw [getPrevLogPagePpa,if_pos h,blk_get_pg_set,blk_get_blk_set]

theorem next_blk (bmi : BmiLinks) (h : pgNum < Nand.pg.get ppa + 3) : Nand.blk.get (nextLogPagePpa bmi pgNum ppa) =
    (bmi (Nand.blk.get ppa)).next % 2^10 := by
  rw [nextLogPagePpa,if_pos h,blk_get_pg_set,blk_get_blk_set]

/-- Two pages back and two pages forward again, as long as both stay inside the block. -/
theorem stepsInvert_inside {older newer : Nat} (hfirst : 2 ≤ Nand.pg.get ppa)
    (hlast : Nand.pg.get ppa + 3 ≤ pgNum) (hwidth : Nand.pg.get ppa + 2 < 2^8) :
    StepsInvert (getPrevLogPagePpa bmi pgNum) (nextLogPagePpa bmi pgNum) older newer ppa := by
  have hprev := getPrev_inside bmi pgNum hfirst
  have hnext := next_inside bmi hlast
  have hback : Nand.pg.get (Nand.pg.set ppa (Nand.pg.get ppa - 2)) = Nand.pg.get ppa - 2 := by
    rw [pg_get_pg_set,Nat.mod_eq_of_lt (by omega)]
  have hforth : Nand.pg.get (Nand.pg.set ppa (Nand.pg.get ppa + 2)) = Nand.pg.get ppa + 2 := by
    rw [pg_get_pg_set,Nat.mod_eq_of_lt hwidth]
  refine ⟨?_,?_,?_,?_⟩
  · rw [hprev,next_inside bmi (by omega),hback,BitField.set_set pg_fits,Nat.sub_add_cancel hfirst,
      BitField.set_get pg_fits]
  · rw [hnext,getPrev_inside bmi pgNum (by omega),hforth,BitField.set_set pg_fits,Nat.add_sub_cancel,
      BitField.set_get pg_fits]
  · rw [hprev,blk_get_pg_set]
    exact fun h => absurd rfl h
  · rw [hnext,blk_get_pg_set]
    exact fun h => absurd rfl h

/-- No register content can be relied on, so the steps are never inverse to each other. With the missing
`return` they would be inside a block, between its first and last pages and where the page number fits
into its field; over the border of a block both follow the wrong link. -/
theorem log_page_steps_never_inverse {d : Dlist} {above below : List Nat} {older newer : Nat}
    (hlist : Fifo.Linked bmi d (above ++ older :: Nand.blk.get ppa :: newer :: below))
    (hblk : ∀ blk ∈ above ++ older :: Nand.blk.get ppa :: newer :: below, blk < cfgNandBlkNum) (pgNum : Nat) :
    (¬ ∀ register, StepsInvert (getPrevLogPagePpa bmi pgNum) (getNextLogPagePpa register bmi pgNum)
      older newer ppa) ∧
    (StepsInvert (getPrevLogPagePpa bmi pgNum) (nextLogPagePpa bmi pgNum) older newer ppa ↔
      2 ≤ Nand.pg.get ppa ∧ Nand.pg.get ppa + 3 ≤ pgNum ∧ Nand.pg.get ppa + 2 < 2^8) := by
  obtain ⟨hprev,hnext,holder,hnewer,hne⟩ := linked_neighbours hlist
  have hfit (blk : Nat) (hmem : blk ∈ [older,Nand.blk.get ppa,newer]) : blk % 2^10 = blk := by
    have hlt := hblk blk (by simp at hmem ⊢; tauto)
    rw [cfgNandBlkNum_eq] at hlt
    omega
  constructor
  · intro h
    -- two contents of the register give two results for one step
    have heq : (0 : Ppa) = 1 := (h 0).next_prev.trans (h 1).next_prev.symm
    exact absurd heq (by decide)
  · constructor
    · intro h
      have hfirst : 2 ≤ Nand.pg.get ppa := by
        by_contra hlt
        have hto := getPrev_blk bmi pgNum (Nat.lt_of_not_le hlt)
        rw [hprev,hfit newer (by simp)] at hto
        have holder' := h.prev_older (by rw [hto]; exact hnewer)
        exact hne (holder'.symm.trans hto)
      have hlast : Nand.pg.get ppa + 3 ≤ pgNum := by
        by_contra hlt
        have hto := next_blk bmi (Nat.lt_of_not_le hlt)
        rw [hnext,hfit older (by simp)] at hto
        have hnewer' := h.next_newer (by rw [hto]; exact holder)
        exact hne (hto.symm.trans hnewer')
      refine ⟨hfirst,hlast,?_⟩
      by_contra hwide
      -- the page number wraps, and the step back then leaves the block
      have hpg : Nand.pg.get ppa < 2^8 := Nand.pg.get_lt ppa
      have hwrap : Nand.pg.get (nextLogPagePpa bmi pgNum ppa) < 2 := by
        rw [next_inside bmi hlast,pg_get_pg_set]
        omega
      have hto := getPrev_blk bmi pgNum hwrap
      rw [h.prev_next,next_inside bmi hlast,blk_get_pg_set,hprev,hfit newer (by simp)] at hto
      exact hnewer hto.symm
    · rintro ⟨hfirst,hlast,hwidth⟩
      exact stepsInvert_inside hfirst hlast hwidth

end Steps

/-- Three blocks pushed in the order 5, 7, 9. -/
def threeBlocks : Dlist × BmiLinks :=
  let r := pushToRblkDlist dlinkListInit (fun _ => ⟨0,0⟩) 5
  let r := pushToRblkDlist r.1 r.2 7
  pushToRblkDlist r.1 r.2 9

theorem threeBlocks_linked : Fifo.Linked threeBlocks.2 threeBlocks.1 [5,7,9] := by
  have h5 := (Fifo.linked_init fun _ => ⟨0,0⟩).push (i := 5) (by decide) (by decide)
  have h7 := h5.push (i := 7) (by decide) (by decide)
  exact h7.push (i := 9) (by decide) (by decide)

theorem log_page_steps_never_inverse_three :
    ¬ ∀ register, StepsInvert (getPrevLogPagePpa threeBlocks.2 cfgNandPgNum)
      (getNextLogPagePpa register threeBlocks.2 cfgNandPgNum) 5 9 (NandAddr.store ⟨7,100,0,0,0,0⟩ 0) := by
  have hlist : Fifo.Linked threeBlocks.2 threeBlocks.1
      ([] ++ 5 :: Nand.blk.get (NandAddr.store ⟨7,100,0,0,0,0⟩ 0) :: 9 :: []) := threeBlocks_linked
  exact (log_page_steps_never_inverse hlist (by decide) cfgNandPgNum).1

/-- From page 0 of block 7 the step back goes to block 9, which was opened later, and the register holds
another page than the one the steps started from. -/
theorem log_page_steps_wrong_block :
    Nand.blk.get (getPrevLogPagePpa threeBlocks.2 cfgNandPgNum (NandAddr.store ⟨7,0,0,0,0,0⟩ 0)) = 9 ∧
    getNextLogPagePpa 0 threeBlocks.2 cfgNandPgNum (getPrevLogPagePpa threeBlocks.2 cfgNandPgNum
      (NandAddr.store ⟨7,0,0,0,0,0⟩ 0)) ≠ NandAddr.store ⟨7,0,0,0,0,0⟩ 0 := by
  decide +kernel

end Sdssd.Fw
