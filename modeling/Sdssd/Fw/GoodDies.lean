import Sdssd.Fw.PageType

/-!
# The search for the last good dies

`get_lastn_good_die_within_range` leaves only its inner loop when it has found the dies it looks for.
The loop over the LUNs goes on, and every good die of a lower LUN is still written to `dies`.
-/

namespace Sdssd.Fw

open Framework

namespace Rblk

variable (r : Rblk) (n : Nat)

/-- The good dies of a LUN on these channels, as `LUNCH_TO_DIE` numbers them. -/
def goodsOn (lun : Nat) (chs : List Nat) : List Nat :=
  (chs.filter fun ch => !r.getBbtAt lun ch).map (lunchToDie lun)

theorem goodsOn_cons_bad {lun ch : Nat} (h : r.getBbtAt lun ch = true) (chs : List Nat) :
    r.goodsOn lun (ch :: chs) = r.goodsOn lun chs := by
  rw [goodsOn,List.filter_cons_of_neg (by simp [h])]
  rfl

theorem goodsOn_cons_good {lun ch : Nat} (h : ¬ r.getBbtAt lun ch = true) (chs : List Nat) :
    r.goodsOn lun (ch :: chs) = lunchToDie lun ch :: r.goodsOn lun chs := by
  rw [goodsOn,List.filter_cons_of_pos (by simp [h])]
  rfl

/-- Before the last die is found the inner loop stops with it. -/
theorem scanChs_of_lt (lun : Nat) {dies : List Nat} (h : dies.length < n) (chs : List Nat) :
    r.scanChs n lun chs dies = (dies ++ r.goodsOn lun chs).take n := by
  induction chs generalizing dies with
  | nil =>
    rw [scanChs,goodsOn,List.filter_nil,List.map_nil,List.append_nil,
      List.take_of_length_le (Nat.le_of_lt h)]
  | cons ch chs ih =>
    rw [scanChs]
    by_cases hbad : r.getBbtAt lun ch = true
    · rw [if_pos hbad,r.goodsOn_cons_bad hbad]
      exact ih h
    · rw [if_neg hbad,r.goodsOn_cons_good hbad,
        List.append_cons dies (lunchToDie lun ch) (r.goodsOn lun chs)]
      by_cases hlen : (dies ++ [lunchToDie lun ch]).length = n
      · rw [if_pos hlen,List.take_append_of_le_length (Nat.le_of_eq hlen.symm),
          List.take_of_length_le (Nat.le_of_eq hlen)]
      · rw [if_neg hlen]
        apply ih
        rw [List.length_append,List.length_singleton] at hlen ⊢
        omega

/-- After that the counter never equals `n` again, and the inner loop takes every good die. -/
theorem scanChs_of_le (lun : Nat) {dies : List Nat} (h : n ≤ dies.length) (chs : List Nat) :
    r.scanChs n lun chs dies = dies ++ r.goodsOn lun chs := by
  induction chs generalizing dies with
  | nil => rw [scanChs,goodsOn,List.filter_nil,List.map_nil,List.append_nil]
  | cons ch chs ih =>
    rw [scanChs]
    by_cases hbad : r.getBbtAt lun ch = true
    · rw [if_pos hbad,r.goodsOn_cons_bad hbad]
      exact ih h
    · have hlen : n < (dies ++ [lunchToDie lun ch]).length := by
        rw [List.length_append,List.length_singleton]
        omega
      rw [if_neg hbad,r.goodsOn_cons_good hbad,if_neg (Nat.ne_of_gt hlen),
        List.append_cons dies (lunchToDie lun ch) (r.goodsOn lun chs)]
      exact ih (Nat.le_of_lt hlen)

theorem scanLuns_of_le (chs luns : List Nat) {dies : List Nat} (h : n ≤ dies.length) :
    luns.foldl (fun dies lun => r.scanChs n lun chs dies) dies =
      dies ++ luns.flatMap fun lun => r.goodsOn lun chs := by
  induction luns generalizing dies with
  | nil => rw [List.foldl_nil,List.flatMap_nil,List.append_nil]
  | cons lun luns ih =>
    have hnext : n ≤ (dies ++ r.goodsOn lun chs).length := by
      rw [List.length_append]
      omega
    rw [List.foldl_cons,r.scanChs_of_le n lun h,ih hnext,List.flatMap_cons,List.append_assoc]

/-- What the whole search writes, seen from the LUN in which the last die is found. -/
theorem scanLuns_split (chs luns dies : List Nat) (hlt : dies.length < n)
    (hle : n ≤ (dies ++ luns.flatMap fun lun => r.goodsOn lun chs).length) :
    ∃ above lun below, luns = above ++ lun :: below ∧
      (dies ++ above.flatMap fun lun => r.goodsOn lun chs).length < n ∧
      n ≤ (dies ++ (above ++ [lun]).flatMap fun lun => r.goodsOn lun chs).length ∧
      luns.foldl (fun dies lun => r.scanChs n lun chs dies) dies =
        (dies ++ (above ++ [lun]).flatMap fun lun => r.goodsOn lun chs).take n ++
          below.flatMap fun lun => r.goodsOn lun chs := by
  induction luns generalizing dies with
  | nil =>
    rw [List.flatMap_nil,List.append_nil] at hle
    omega
  | cons lun luns ih =>
    rw [List.flatMap_cons,← List.append_assoc] at hle
    by_cases hfound : n ≤ (dies ++ r.goodsOn lun chs).length
    · refine ⟨[],lun,luns,rfl,?_,?_,?_⟩
      · rw [List.flatMap_nil,List.append_nil]
        exact hlt
      · rw [List.nil_append,List.flatMap_singleton]
        exact hfound
      · have htake : n ≤ ((dies ++ r.goodsOn lun chs).take n).length := by
          rw [List.length_take_of_le hfound]
        rw [List.foldl_cons,r.scanChs_of_lt n lun hlt,r.scanLuns_of_le n chs luns htake,
          List.nil_append,List.flatMap_singleton]
    · have hmore : (dies ++ r.goodsOn lun chs).length < n := Nat.lt_of_not_le hfound
      obtain ⟨above,x,below,rfl,hbefore,hafter,hfold⟩ := ih _ hmore hle
      refine ⟨lun :: above,x,below,rfl,?_,?_,?_⟩
      · rw [List.flatMap_cons,← List.append_assoc]
        exact hbefore
      · rw [List.cons_append,List.flatMap_cons,← List.append_assoc]
        exact hafter
      · rw [List.foldl_cons,r.scanChs_of_lt n lun hlt,List.take_of_length_le (Nat.le_of_lt hmore),hfold,
          List.cons_append,List.flatMap_cons,← List.append_assoc]

end Rblk

/-- The search does what its header comment says: it succeeds if there are `n` good dies, these are the
last ones in descending order, and no entry behind them is written. -/
structure FindsLastGood (r : Rblk) (startLun endLun n : Nat) : Prop where
  found : (r.getLastnGoodDieWithinRange startLun 0 endLun (cfgNandChNum - 1) n).2 = true ↔
    n ≤ (r.goods (12 * startLun) (12 * (endLun + 1 - startLun))).length
  dies : (r.getLastnGoodDieWithinRange startLun 0 endLun (cfgNandChNum - 1) n).2 = true →
    (r.getLastnGoodDieWithinRange startLun 0 endLun (cfgNandChNum - 1) n).1.take n =
      (r.goods (12 * startLun) (12 * (endLun + 1 - startLun))).take n
  bounded : (r.getLastnGoodDieWithinRange startLun 0 endLun (cfgNandChNum - 1) n).1.length ≤ n

/-- No good die of the range lies in a LUN below that of the `n`-th last one. -/
def EndsInLowestLun (r : Rblk) (startLun endLun n : Nat) : Prop :=
  ∀ last, (r.goods (12 * startLun) (12 * (endLun + 1 - startLun)))[n-1]? = some last →
    ∀ die ∈ r.goods (12 * startLun) (12 * (endLun + 1 - startLun)),
      last / cfgNandChNum ≤ die / cfgNandChNum

section Search

variable {r : Rblk} {startLun endLun n : Nat}

/-- All that the search can find in a range of LUNs. -/
theorem goodsOn_downTo (r : Rblk) (hle : startLun ≤ endLun) (hlun : endLun < cfgNandLunNum) :
    ((Rblk.downTo startLun endLun).flatMap fun lun => r.goodsOn lun (Rblk.downTo 0 (cfgNandChNum - 1))) =
      r.goods (12 * startLun) (12 * (endLun + 1 - startLun)) := by
  rw [cfgNandLunNum_eq] at hlun
  exact r.scanned_eq_goods (by omega)

theorem mem_goodsOn {lun die : Nat} (hlun : lun < cfgNandLunNum)
    (hdie : die ∈ r.goodsOn lun (Rblk.downTo 0 (cfgNandChNum - 1))) : die / cfgNandChNum = lun := by
  obtain ⟨ch,hch,rfl⟩ := List.mem_map.mp hdie
  have hch := List.mem_of_mem_filter hch
  rw [Rblk.downTo,List.mem_reverse,List.mem_range'_1] at hch
  simp only [cfgNandLunNum_eq,cfgNandChNum_eq,lunchToDie] at hlun hch ⊢
  rw [Nat.mod_eq_of_lt (by omega : ch + lun * 12 < 2^8)]
  omega

theorem downTo_pairwise (first last : Nat) : (Rblk.downTo first last).Pairwise (· > ·) := by
  rw [Rblk.downTo,List.pairwise_reverse]
  exact List.pairwise_lt_range'

/-- What is found below a LUN are the dies with a smaller LUN number. -/
theorem mem_below {g : Nat → List Nat} {lunOf : Nat → Nat} {above below : List Nat} {lun : Nat}
    (hsorted : (above ++ lun :: below).Pairwise (· > ·))
    (hof : ∀ l ∈ above ++ lun :: below, ∀ die ∈ g l, lunOf die = l) (die : Nat) :
    die ∈ below.flatMap g ↔ die ∈ (above ++ lun :: below).flatMap g ∧ lunOf die < lun := by
  obtain ⟨-,hbelow,habove⟩ := List.pairwise_append.mp hsorted
  have hbelow := (List.pairwise_cons.mp hbelow).1
  constructor
  · intro hdie
    obtain ⟨l,hl,hmem⟩ := List.mem_flatMap.mp hdie
    have hin : l ∈ above ++ lun :: below := by simp [hl]
    refine ⟨List.mem_flatMap.mpr ⟨l,hin,hmem⟩,?_⟩
    rw [hof l hin die hmem]
    exact hbelow l hl
  · rintro ⟨hdie,hlt⟩
    obtain ⟨l,hin,hmem⟩ := List.mem_flatMap.mp hdie
    rw [hof l hin die hmem] at hlt
    rcases List.mem_append.mp hin with hl | hl
    · have hgt := habove l hl lun List.mem_cons_self
      omega
    · rcases List.mem_cons.mp hl with rfl | hl
      · omega
      · exact List.mem_flatMap.mpr ⟨l,hl,hmem⟩

/-- With enough good dies the search writes the last `n` of them and, behind these, all good dies of the
LUNs below the one of the last die it looked for. -/
theorem search_writes (hle : startLun ≤ endLun) (hlun : endLun < cfgNandLunNum) (hn : 1 ≤ n)
    (henough : n ≤ (r.goods (12 * startLun) (12 * (endLun + 1 - startLun))).length) :
    ∃ extra last, (r.getLastnGoodDieWithinRange startLun 0 endLun (cfgNandChNum - 1) n).1 =
        (r.goods (12 * startLun) (12 * (endLun + 1 - startLun))).take n ++ extra ∧
      (r.goods (12 * startLun) (12 * (endLun + 1 - startLun)))[n-1]? = some last ∧
      ∀ die, die ∈ extra ↔ die ∈ r.goods (12 * startLun) (12 * (endLun + 1 - startLun)) ∧
        die / cfgNandChNum < last / cfgNandChNum := by
  obtain ⟨g,hg⟩ : ∃ g : Nat → List Nat, g = fun lun => r.goodsOn lun (Rblk.downTo 0 (cfgNandChNum - 1)) :=
    ⟨_,rfl⟩
  have hsorted := downTo_pairwise startLun endLun
  have hof : ∀ lun ∈ Rblk.downTo startLun endLun, ∀ die ∈ g lun, die / cfgNandChNum = lun := by
    intro lun hmem die hdie
    rw [Rblk.downTo,List.mem_reverse,List.mem_range'_1] at hmem
    rw [hg] at hdie
    exact mem_goodsOn (by omega) hdie
  rw [← goodsOn_downTo r hle hlun] at henough ⊢
  obtain ⟨above,lun,below,hsplit,hbefore,hafter,hfold⟩ := r.scanLuns_split n
    (Rblk.downTo 0 (cfgNandChNum - 1)) (Rblk.downTo startLun endLun) [] hn henough
  rw [List.nil_append,← hg] at hbefore hafter hfold
  rw [Rblk.getLastnGoodDieWithinRange,hfold,← hg]
  rw [hsplit] at hsorted hof ⊢
  have hbelow := mem_below hsorted hof
  have hlun := hof lun (by simp)
  rw [List.flatMap_append,List.flatMap_singleton] at hafter
  have hall : (above ++ lun :: below).flatMap g = (above.flatMap g ++ g lun) ++ below.flatMap g := by
    rw [List.flatMap_append,List.flatMap_cons,List.append_assoc]
  have hidx : n - 1 < (above.flatMap g ++ g lun).length := by omega
  have hlast : (above.flatMap g ++ g lun)[n-1] ∈ g lun := by
    rw [List.getElem_append_right (by omega)]
    exact List.getElem_mem _
  refine ⟨below.flatMap g,(above.flatMap g ++ g lun)[n-1],?_,?_,?_⟩
  · rw [hall,List.take_append_of_le_length hafter,List.flatMap_append,List.flatMap_singleton]
  · rw [hall,List.getElem?_append_left hidx,List.getElem?_eq_getElem hidx]
  · intro die
    rw [hlun _ hlast]
    exact hbelow die

/-- With too few good dies all of them are written. -/
theorem search_writes_all (hle : startLun ≤ endLun) (hlun : endLun < cfgNandLunNum)
    (hfew : (r.goods (12 * startLun) (12 * (endLun + 1 - startLun))).length < n) :
    (r.getLastnGoodDieWithinRange startLun 0 endLun (cfgNandChNum - 1) n).1 =
      r.goods (12 * startLun) (12 * (endLun + 1 - startLun)) := by
  have hagree := r.scanLuns_agree n (Rblk.downTo startLun endLun) (Rblk.downTo 0 (cfgNandChNum - 1)) []
  have hgoods := goodsOn_downTo r hle hlun
  simp only [Rblk.goodsOn] at hgoods
  rw [List.nil_append,hgoods] at hagree
  rcases hagree with heq | ⟨hlen,htake⟩
  · exact heq
  · have hlength := congrArg List.length htake
    rw [List.length_take_of_le hlen,List.length_take] at hlength
    omega

/-- The search keeps to its description exactly if it has no LUN left to visit, or none with a good die,
when it finds the last die it looks for. -/
theorem finds_last_good_iff (hle : startLun ≤ endLun) (hlun : endLun < cfgNandLunNum) (hn : 1 ≤ n) :
    FindsLastGood r startLun endLun n ↔ EndsInLowestLun r startLun endLun n := by
  rcases Nat.lt_or_ge (r.goods (12 * startLun) (12 * (endLun + 1 - startLun))).length n with hfew | henough
  · have hwrites := search_writes_all hle hlun hfew
    have hret : (r.getLastnGoodDieWithinRange startLun 0 endLun (cfgNandChNum - 1) n).2 = true ↔
        (r.goods (12 * startLun) (12 * (endLun + 1 - startLun))).length = n := by
      rw [← hwrites]
      exact beq_iff_eq
    refine iff_of_true ⟨?_,?_,?_⟩ ?_
    · rw [hret]
      omega
    · intro _
      rw [hwrites]
    · rw [hwrites]
      omega
    · intro last hlast
      rw [List.getElem?_eq_none (by omega)] at hlast
      cases hlast
  · obtain ⟨extra,last,hwrites,hlast,hextra⟩ := search_writes hle hlun hn henough
    have hlen : (r.getLastnGoodDieWithinRange startLun 0 endLun (cfgNandChNum - 1) n).1.length =
        n + extra.length := by
      rw [hwrites,List.length_append,List.length_take_of_le henough]
    have hret : (r.getLastnGoodDieWithinRange startLun 0 endLun (cfgNandChNum - 1) n).2 = true ↔
        (r.getLastnGoodDieWithinRange startLun 0 endLun (cfgNandChNum - 1) n).1.length = n := beq_iff_eq
    constructor
    · intro h last' hlast' die hdie
      obtain rfl : last = last' := Option.some.inj (hlast.symm.trans hlast')
      have hbounded := h.bounded
      have hnil : extra = [] := List.eq_nil_of_length_eq_zero (by omega)
      have hnot := hextra die
      rw [hnil] at hnot
      exact Nat.le_of_not_lt fun hlt => List.not_mem_nil (hnot.mpr ⟨hdie,hlt⟩)
    · intro h
      have hnil : extra = [] := List.eq_nil_iff_forall_not_mem.mpr fun die hdie =>
        Nat.not_lt.mpr (h last hlast die ((hextra die).mp hdie).1) ((hextra die).mp hdie).2
      rw [hnil,List.length_nil,Nat.add_zero] at hlen
      refine ⟨?_,?_,?_⟩
      · exact iff_of_true (hret.mpr hlen) henough
      · intro _
        rw [hwrites,hnil,List.append_nil,List.take_take,Nat.min_self]
      · exact Nat.le_of_eq hlen

/-- A block with all dies good. -/
def allGood : Rblk := ⟨fun _ => 0,fun _ => .normalPage⟩

/-- In one LUN the search is right. -/
theorem finds_last_good_one_lun : FindsLastGood allGood 3 3 2 := by
  refine (finds_last_good_iff (by decide) (by decide) (by decide)).mpr ?_
  intro last hlast die hdie
  have hgoods : allGood.goods (12 * 3) (12 * (3 + 1 - 3)) = (List.range' 36 12).reverse := by decide
  rw [hgoods] at hlast hdie
  obtain rfl : 46 = last := Option.some.inj hlast
  rw [List.mem_reverse,List.mem_range'_1] at hdie
  rw [cfgNandChNum_eq]
  omega

/-- Over two good LUNs the search for one die writes thirteen entries and reports that it found none. -/
theorem finds_last_good_two_luns : ¬ FindsLastGood allGood 0 1 1 ∧
    (allGood.getLastnGoodDieWithinRange 0 0 1 11 1).1.length = 13 ∧
    (allGood.getLastnGoodDieWithinRange 0 0 1 11 1).2 = false := by
  refine ⟨?_,by decide,by decide⟩
  intro h
  exact absurd h.bounded (by decide)

end Search

end Sdssd.Fw
