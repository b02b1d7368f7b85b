import Sdssd.Framework.Ranking
import Sdssd.Fw.Geometry

/-!
# Page types of an R-block

Every die of an R-block has a page type: bad, parity of its RAIF protection unit (RPU), log page, or
normal. The table is built from the bad-block bitmap; when a die goes bad the roles are handed out
again without resetting the others.
-/

namespace Sdssd.Fw

open Framework

/-- `enum pg_type`. -/
inductive PgType
  | normalPage
  | badblkPage
  | firstPage
  | ftlLogPage
  | raif1Page
  | raif2Page
  | invalidPage
  deriving DecidableEq, Repr

/-- The macros `RAIF_MODE` and `RPU_DIES_NUM_CFG`. -/
structure RaifCfg where
  raifMode : Nat
  rpuDiesNum : Nat

/-- What belongs to one R-block: the rows of the bad-block bitmap from `get_blk_bbt_base` on, and the
entries of `pgtype[lun][ch]` by die. Rows from 16 on are those of the next blocks, and entries from
192 on stand for the memory behind `pgtype`. -/
structure Rblk where
  bbt : Nat → BitVec 16
  pgtype : Nat → PgType

namespace Rblk

/-- `__get_bbt`. -/
def getBbtAt (r : Rblk) (lun ch : Nat) : Bool := (r.bbt lun).getLsbD ch

/-- `__set_bbt`. -/
def setBbtAt (r : Rblk) (lun ch : Nat) : Rblk :=
  { r with bbt := Function.update r.bbt lun (r.bbt lun ||| 1#16 <<< ch) }

/-- `__set_page_type`. -/
def setPageTypeAt (r : Rblk) (lun ch : Nat) (type : PgType) : Rblk :=
  { r with pgtype := Function.update r.pgtype (lun * cfgNandChNum + ch) type }

/-- The block's `set_bbt`. -/
def setBbt (r : Rblk) (ppa : Ppa) : Rblk := r.setBbtAt (Nand.lun.get ppa) (Nand.ch.get ppa)

/-- The block's `set_page_type`. -/
def setPageType (r : Rblk) (ppa : Ppa) (type : PgType) : Rblk :=
  r.setPageTypeAt (Nand.lun.get ppa) (Nand.ch.get ppa) type

/-- The inner loop of `get_lastn_good_die_within_range`; `break` leaves this loop only. -/
def scanChs (r : Rblk) (n lun : Nat) : List Nat → List Nat → List Nat
  | [], dies => dies
  | ch :: chs, dies =>
    if r.getBbtAt lun ch then r.scanChs n lun chs dies
    else if (dies ++ [lunchToDie lun ch]).length = n then dies ++ [lunchToDie lun ch]
    else r.scanChs n lun chs (dies ++ [lunchToDie lun ch])

/-- From `last` down to `first`. -/
def downTo (first last : Nat) : List Nat := (List.range' first (last + 1 - first)).reverse

/-- What is written to `dies`, and the return value. -/
def getLastnGoodDieWithinRange (r : Rblk) (startLun startCh endLun endCh n : Nat) : List Nat × Bool :=
  let dies := (downTo startLun endLun).foldl
    (fun dies lun => r.scanChs n lun (downTo startCh endCh) dies) []
  (dies,dies.length == n)

/-- The last `n` good dies from `startDie` to `endDie`. -/
def lastGood (r : Rblk) (startDie endDie n : Nat) : List Nat :=
  (r.getLastnGoodDieWithinRange (dieToLun startDie) (dieToCh startDie) (dieToLun endDie)
    (dieToCh endDie) n).1

/-- `end_die`, a `u8`. -/
def endDie (cfg : RaifCfg) (startDie : Nat) : Nat := (startDie + cfg.rpuDiesNum + 255) % 256

/-- `__set_page_type` for the LUN and the channel of a die. -/
def setDieType (r : Rblk) (die : Nat) (type : PgType) : Rblk :=
  r.setPageTypeAt (dieToLun die) (dieToCh die) type

/-- The loop body of `raif_die_recalibrate`; there is no result when an entry of `last_dies` is used
that has not been written. -/
def raifRpu (cfg : RaifCfg) (r : Rblk) (startDie : Nat) : Option Rblk :=
  let lastDies := r.lastGood startDie (endDie cfg startDie) cfg.raifMode
  if cfg.raifMode = 1 then lastDies[0]?.map fun die => r.setDieType die .raif1Page
  else if cfg.raifMode = 2 then
    lastDies[0]?.bind fun die => lastDies[1]?.map fun die' =>
      (r.setDieType die .raif2Page).setDieType die' .raif1Page
  else some r

/-- The values `for_each_rpu` gives to the `u8` variable, if it leaves the range within so many steps. -/
def rpuStarts (cfg : RaifCfg) : Nat → Nat → Option (List Nat)
  | 0, _ => none
  | fuel+1, die =>
    if die < cfgNandDieNum then
      (rpuStarts cfg fuel ((die + cfg.rpuDiesNum) % 256)).map (die :: ·)
    else some []

/-- A `u8` takes 256 values, so a loop that has not ended by then never does. -/
def raifDieRecalibrate (cfg : RaifCfg) (r : Rblk) : Option Rblk :=
  (rpuStarts cfg 257 0).bind fun starts => starts.foldlM (raifRpu cfg) r

def ftlLogPageDieRecalibrate (cfg : RaifCfg) (r : Rblk) : Option Rblk :=
  let startDie := (cfgNandDieNum + 256 - cfg.rpuDiesNum % 256) % 256
  let dies := r.lastGood startDie (endDie cfg startDie) (cfg.raifMode + 1)
  dies[cfg.raifMode]?.map fun die => r.setDieType die .ftlLogPage

def blockDistRecalibrate (cfg : RaifCfg) (r : Rblk) : Option Rblk :=
  (r.raifDieRecalibrate cfg).bind (ftlLogPageDieRecalibrate cfg)

/-- The types according to the bitmap, before roles are given. -/
def typesFromBbt (r : Rblk) : Rblk :=
  (List.range cfgNandLunNum).foldl (fun r lun => (List.range cfgNandChNum).foldl (fun r ch =>
    r.setPageTypeAt lun ch (if r.getBbtAt lun ch then .badblkPage else .normalPage)) r) r

/-- The loop body of `sys_build_page_type`. -/
def buildPageType (cfg : RaifCfg) (r : Rblk) : Option Rblk := r.typesFromBbt.blockDistRecalibrate cfg

/-- A grown bad die: bitmap, page type, then the roles. -/
def growBad (cfg : RaifCfg) (r : Rblk) (die : Nat × Nat) : Option Rblk :=
  ((r.setBbtAt die.1 die.2).setPageTypeAt die.1 die.2 .badblkPage).blockDistRecalibrate cfg

/-- The same for the address of a die in the block. -/
def growBadPpa (cfg : RaifCfg) (r : Rblk) (ppa : Ppa) : Option Rblk :=
  ((r.setBbt ppa).setPageType ppa .badblkPage).blockDistRecalibrate cfg

theorem growBadPpa_eq (cfg : RaifCfg) (r : Rblk) (ppa : Ppa) :
    r.growBadPpa cfg ppa = r.growBad cfg (Nand.lun.get ppa,Nand.ch.get ppa) := rfl

/-- The bitmap bit of a die. -/
def bad (r : Rblk) (die : Nat) : Bool := r.getBbtAt (die / cfgNandChNum) (die % cfgNandChNum)

/-- The good ones of `cnt` dies, the last first. -/
def goods (r : Rblk) (first cnt : Nat) : List Nat :=
  ((List.range' first cnt).filter fun die => !r.bad die).reverse

section Scan

variable (r : Rblk) (n : Nat)

theorem scanChs_agree (lun : Nat) (chs dies : List Nat) :
    AgreeUpTo n (r.scanChs n lun chs dies)
      (dies ++ (chs.filter fun ch => !r.getBbtAt lun ch).map (lunchToDie lun)) := by
  induction chs generalizing dies with
  | nil =>
    rw [scanChs,List.filter_nil,List.map_nil,List.append_nil]
    exact AgreeUpTo.refl n dies
  | cons ch chs ih =>
    rw [scanChs]
    by_cases hbad : r.getBbtAt lun ch = true
    · rw [if_pos hbad,List.filter_cons_of_neg (by simp [hbad])]
      exact ih dies
    · rw [if_neg hbad,List.filter_cons_of_pos (by simp [hbad]),List.map_cons,
        List.append_cons dies (lunchToDie lun ch) (List.map _ _)]
      by_cases hlen : (dies ++ [lunchToDie lun ch]).length = n
      · -- the `break`: the entries that count are there
        rw [if_pos hlen]
        exact Or.inr ⟨hlen.ge,(List.take_append_of_le_length hlen.ge).symm⟩
      · rw [if_neg hlen]
        exact ih _

theorem scanLuns_agree (luns chs dies : List Nat) :
    AgreeUpTo n (luns.foldl (fun dies lun => r.scanChs n lun chs dies) dies)
      (dies ++ luns.flatMap fun lun =>
        (chs.filter fun ch => !r.getBbtAt lun ch).map (lunchToDie lun)) := by
  induction luns generalizing dies with
  | nil =>
    rw [List.flatMap_nil,List.append_nil]
    exact AgreeUpTo.refl n dies
  | cons lun luns ih =>
    rw [List.foldl_cons,List.flatMap_cons,← List.append_assoc]
    exact (ih _).trans ((r.scanChs_agree n lun chs dies).append _)

end Scan

/-- The dies of consecutive LUNs are consecutive. -/
theorem flatMap_luns (s k : Nat) :
    (List.range' s k).flatMap (fun lun => (List.range' 0 12).map fun ch => lun * 12 + ch) =
      List.range' (12 * s) (12 * k) := by
  induction k generalizing s with
  | zero => rfl
  | succ k ih =>
    have hfirst : ((List.range' 0 12).map fun ch => s * 12 + ch) = List.range' (12 * s) 12 := by
      rw [List.map_add_range']
      congr 1
      omega
    have hsplit : List.range' s (k + 1) = s :: List.range' (s + 1) k := List.range'_succ
    rw [hsplit,List.flatMap_cons,ih,hfirst,Nat.mul_succ 12 s,List.range'_append_1]
    congr 1
    omega

/-- All that the scan of whole LUNs can find are their good dies, the last first. -/
theorem scanned_eq_goods (r : Rblk) {s k : Nat} (hs : s + k ≤ 16) :
    ((List.range' s k).reverse.flatMap fun lun =>
      ((List.range' 0 12).reverse.filter fun ch => !r.getBbtAt lun ch).map (lunchToDie lun)) =
      r.goods (12 * s) (12 * k) := by
  have hlun (lun : Nat) (hmem : lun ∈ List.range' s k) :
      ((List.range' 0 12).filter fun ch => !r.getBbtAt lun ch).map (lunchToDie lun) =
        ((List.range' 0 12).map fun ch => lun * 12 + ch).filter fun die => !r.bad die := by
    rw [List.filter_map]
    have hlt : lun < 16 := by
      rw [List.mem_range'_1] at hmem
      omega
    have hfilter : (List.range' 0 12).filter (fun ch => !r.getBbtAt lun ch) =
        (List.range' 0 12).filter ((fun die => !r.bad die) ∘ fun ch => lun * 12 + ch) := by
      apply List.filter_congr
      intro ch hch
      rw [List.mem_range'_1] at hch
      have hdiv : (lun * 12 + ch) / 12 = lun := by omega
      have hmod : (lun * 12 + ch) % 12 = ch := by omega
      simp only [Function.comp,bad,cfgNandChNum_eq,hdiv,hmod]
    rw [← hfilter]
    apply List.map_congr_left
    intro ch hch
    have hch := List.mem_range'_1.mp (List.mem_of_mem_filter hch)
    simp only [lunchToDie,cfgNandChNum_eq]
    omega
  rw [goods,← flatMap_luns,List.filter_flatMap,List.reverse_flatMap]
  apply List.flatMap_congr
  intro lun hmem
  rw [Function.comp,← hlun lun (List.mem_reverse.mp hmem),List.filter_reverse,List.map_reverse]

/-- Of whole LUNs `get_lastn_good_die_within_range` returns the last good dies. -/
theorem lastGood_take (r : Rblk) {s k : Nat} (hs : s + k ≤ 16) (hk : 1 ≤ k) (n : Nat) :
    (r.lastGood (12 * s) (12 * (s + k) - 1) n).take n = (r.goods (12 * s) (12 * k)).take n := by
  have hgeo : dieToLun (12 * s) = s ∧ dieToCh (12 * s) = 0 ∧ dieToLun (12 * (s + k) - 1) = s + k - 1 ∧
      dieToCh (12 * (s + k) - 1) = 11 := by
    simp only [dieToLun,dieToCh,cfgNandChNum_eq]
    omega
  have hluns : downTo s (s + k - 1) = (List.range' s k).reverse := by
    rw [downTo]
    congr 2
    omega
  rw [lastGood,hgeo.1,hgeo.2.1,hgeo.2.2.1,hgeo.2.2.2,getLastnGoodDieWithinRange,hluns]
  have hagree := r.scanLuns_agree n (List.range' s k).reverse (List.range' 0 12).reverse []
  rw [List.nil_append,r.scanned_eq_goods hs] at hagree
  exact hagree.take_eq

end Rblk

end Sdssd.Fw
