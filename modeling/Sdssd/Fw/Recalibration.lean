import Sdssd.Fw.PageType

/-!
# Recalibration of the page types equals rebuilding them

A role is held by a die because of the number of good dies behind it in its RPU. That number only
falls when dies go bad, so a die that has no role any more never had one, and overwriting the new role
holders is enough.
-/

namespace Sdssd.Fw

open Framework

/-- The RPUs are whole LUNs and divide the block, and RAIF is enabled. -/
structure RaifCfg.Valid (cfg : RaifCfg) : Prop where
  mode : cfg.raifMode = 1 ∨ cfg.raifMode = 2
  channels : cfgNandChNum ∣ cfg.rpuDiesNum
  divides : cfg.rpuDiesNum ∣ cfgNandDieNum

namespace RaifCfg

/-- LUNs of one RPU. -/
def luns (cfg : RaifCfg) : Nat := cfg.rpuDiesNum / cfgNandChNum

/-- First dies of the RPUs. -/
def starts (cfg : RaifCfg) : List Nat :=
  (List.range (cfgNandLunNum / cfg.luns)).map fun i => 12 * (cfg.luns * i)

/-- First die of the RPU of a die. -/
def startOf (cfg : RaifCfg) (die : Nat) : Nat := 12 * (cfg.luns * (die / cfg.rpuDiesNum))

/-- The parity roles of an RPU, for its last good dies from the end. -/
def roles (cfg : RaifCfg) : List PgType :=
  if cfg.raifMode = 1 then [.raif1Page] else if cfg.raifMode = 2 then [.raif2Page,.raif1Page] else []

/-- All roles of the RPU that starts at this die; the last one has the log page too. -/
def rolesAt (cfg : RaifCfg) (start : Nat) : List PgType :=
  if start + cfg.rpuDiesNum = cfgNandDieNum then cfg.roles ++ [.ftlLogPage] else cfg.roles

/-- Every RPU has a good die for each of its roles. -/
def Enough (cfg : RaifCfg) (r : Rblk) : Prop :=
  ∀ start ∈ cfg.starts, (cfg.rolesAt start).length ≤ (r.goods start cfg.rpuDiesNum).length

namespace Valid

variable {cfg : RaifCfg} (h : cfg.Valid)

include h

theorem rpu_eq : cfg.rpuDiesNum = 12 * cfg.luns := (Nat.mul_div_cancel' h.channels).symm

theorem luns_dvd : cfg.luns ∣ 16 := by
  have hdvd := h.divides
  rw [h.rpu_eq] at hdvd
  exact Nat.dvd_of_mul_dvd_mul_left (by decide : 0 < 12) hdvd

theorem luns_pos : 1 ≤ cfg.luns := Nat.pos_of_dvd_of_pos h.luns_dvd (by decide)

theorem length_roles : cfg.roles.length = cfg.raifMode := by
  rcases h.mode with hm | hm <;> rw [roles,hm] <;> rfl

theorem roles_le (start : Nat) : cfg.raifMode ≤ (cfg.rolesAt start).length := by
  rw [rolesAt]
  split
  · rw [List.length_append,h.length_roles]
    exact Nat.le_add_right _ _
  · rw [h.length_roles]

omit h in
/-- An RPU consists of `luns` LUNs inside the block. -/
theorem start_cases {cfg : RaifCfg} {start : Nat} (hmem : start ∈ cfg.starts) :
    ∃ s, start = 12 * s ∧ s + cfg.luns ≤ 16 := by
  obtain ⟨i,hi,rfl⟩ := List.mem_map.mp hmem
  apply Exists.intro (cfg.luns * i)
  apply And.intro rfl
  have hi : i < 16 / cfg.luns := List.mem_range.mp hi
  calc cfg.luns * i + cfg.luns = cfg.luns * (i + 1) := (Nat.mul_succ _ _).symm
    _ ≤ cfg.luns * (16 / cfg.luns) := Nat.mul_le_mul_left _ hi
    _ ≤ 16 := Nat.mul_div_le 16 cfg.luns

theorem startOf_bounds (die : Nat) :
    cfg.startOf die ≤ die ∧ die < cfg.startOf die + cfg.rpuDiesNum := by
  have hpos : 0 < cfg.rpuDiesNum := by
    have hk := h.luns_pos
    rw [h.rpu_eq]
    omega
  have hstart : cfg.startOf die = cfg.rpuDiesNum * (die / cfg.rpuDiesNum) := by
    rw [startOf,← Nat.mul_assoc,← h.rpu_eq]
  rw [hstart]
  exact ⟨Nat.mul_div_le _ _,Nat.lt_mul_div_succ die hpos⟩

theorem startOf_mem {die : Nat} (hdie : die < cfgNandDieNum) : cfg.startOf die ∈ cfg.starts := by
  apply List.mem_map.mpr
  refine ⟨die / cfg.rpuDiesNum,?_,rfl⟩
  rw [List.mem_range,Nat.div_lt_iff_lt_mul (by have := h.luns_pos; rw [h.rpu_eq]; omega)]
  have hmul : 16 / cfg.luns * cfg.rpuDiesNum = 192 := by
    rw [h.rpu_eq,Nat.mul_left_comm,Nat.div_mul_cancel h.luns_dvd]
  rw [cfgNandLunNum_eq,hmul]
  exact hdie

theorem starts_nodup : cfg.starts.Nodup := by
  apply List.Nodup.map _ List.nodup_range
  intro i j hij
  have hij : 12 * (cfg.luns * i) = 12 * (cfg.luns * j) := hij
  exact Nat.eq_of_mul_eq_mul_left h.luns_pos (by omega)

/-- RPUs that share a die are the same. -/
theorem startOf_eq {start die : Nat} (hmem : start ∈ cfg.starts) (hle : start ≤ die)
    (hlt : die < start + cfg.rpuDiesNum) : cfg.startOf die = start := by
  obtain ⟨i,-,rfl⟩ := List.mem_map.mp hmem
  have hi : 12 * (cfg.luns * i) = i * cfg.rpuDiesNum := by
    rw [← Nat.mul_assoc,← h.rpu_eq,Nat.mul_comm]
  have hdiv : die / cfg.rpuDiesNum = i := by
    rw [hi] at hle hlt
    apply Nat.div_eq_of_lt_le hle
    rw [Nat.succ_mul]
    exact hlt
  rw [startOf,hdiv]

omit h in
/-- With `j` RPUs left the loop visits those and ends. -/
private theorem rpuStarts_from {m j fuel : Nat} (hm : cfg.rpuDiesNum * m = 192) (hj : j ≤ m)
    (hfuel : j < fuel) : Rblk.rpuStarts cfg fuel (cfg.rpuDiesNum * (m - j)) =
      some ((List.range' (m - j) j).map fun i => cfg.rpuDiesNum * i) := by
  induction j generalizing fuel with
  | zero =>
    obtain ⟨fuel,rfl⟩ := Nat.exists_eq_succ_of_ne_zero (Nat.ne_of_gt hfuel)
    rw [Nat.sub_zero,hm]
    rfl
  | succ j ih =>
    obtain ⟨fuel,rfl⟩ := Nat.exists_eq_succ_of_ne_zero (Nat.ne_of_gt (Nat.zero_lt_of_lt hfuel))
    have hnext : cfg.rpuDiesNum * (m - (j + 1)) + cfg.rpuDiesNum = cfg.rpuDiesNum * (m - j) := by
      rw [← Nat.mul_succ]
      congr 1
      omega
    have hle : cfg.rpuDiesNum * (m - j) ≤ 192 := hm ▸ Nat.mul_le_mul_left _ (Nat.sub_le m j)
    have hpos : 0 < cfg.rpuDiesNum := Nat.pos_of_mul_pos_right (hm ▸ (by decide : 0 < 192))
    have hsucc : m - (j + 1) + 1 = m - j := by omega
    rw [Rblk.rpuStarts,if_pos (by rw [cfgNandDieNum_eq]; omega),hnext,Nat.mod_eq_of_lt (by omega),
      ih (Nat.le_of_succ_le hj) (Nat.lt_of_succ_lt_succ hfuel),List.range'_succ,hsucc]
    rfl

/-- The loop over the RPUs visits these dies and ends. -/
theorem rpuStarts_eq : Rblk.rpuStarts cfg 257 0 = some cfg.starts := by
  have hm : cfg.rpuDiesNum * (16 / cfg.luns) = 192 := by
    rw [h.rpu_eq,Nat.mul_assoc,Nat.mul_div_cancel' h.luns_dvd]
  have hle : 16 / cfg.luns ≤ 16 := Nat.div_le_self _ _
  have hfrom := rpuStarts_from hm (Nat.le_refl _) (show 16 / cfg.luns < 257 by omega)
  rw [Nat.sub_self,Nat.mul_zero,← List.range_eq_range'] at hfrom
  rw [hfrom,starts,cfgNandLunNum_eq]
  congr 2
  funext i
  rw [h.rpu_eq,Nat.mul_assoc]

end Valid

end RaifCfg

namespace Rblk

variable {cfg : RaifCfg} {r : Rblk}

theorem mem_goods {first cnt die : Nat} :
    die ∈ r.goods first cnt ↔ first ≤ die ∧ die < first + cnt ∧ r.bad die = false := by
  rw [goods,List.mem_reverse,List.mem_filter,List.mem_range'_1,and_assoc]
  simp

theorem bad_of_bbt {r' : Rblk} (h : r'.bbt = r.bbt) : r'.bad = r.bad := by
  funext die
  rw [bad,bad,getBbtAt,getBbtAt,h]

theorem goods_of_bbt {r' : Rblk} (h : r'.bbt = r.bbt) : r'.goods = r.goods := by
  funext first cnt
  rw [goods,goods,bad_of_bbt h]

theorem goods_nodup (first cnt : Nat) : (r.goods first cnt).Nodup :=
  List.nodup_reverse.mpr (List.Nodup.filter _ List.nodup_range')

/-- Writes to the page types by die. -/
def writeTypes (r : Rblk) (ws : List (Nat × PgType)) : Rblk := { r with pgtype := overwrite r.pgtype ws }

theorem writeTypes_append (ws us : List (Nat × PgType)) :
    (r.writeTypes ws).writeTypes us = r.writeTypes (ws ++ us) := by
  simp only [writeTypes,overwrite_append]

theorem setDieType_eq {die : Nat} (h : die < 192) (type : PgType) :
    r.setDieType die type = r.writeTypes [(die,type)] := by
  have hdie : dieToLun die * cfgNandChNum + dieToCh die = die := by
    simp only [dieToLun,dieToCh,cfgNandChNum_eq]
    omega
  rw [setDieType,setPageTypeAt,hdie]
  rfl

/-- The entries of `dies` that are used are the last good dies of the RPU. -/
theorem lastGood_getElem {s n i : Nat} (h : cfg.Valid) (hs : s + cfg.luns ≤ 16) (hi : i < n) :
    (r.lastGood (12 * s) (endDie cfg (12 * s)) n)[i]? = (r.goods (12 * s) cfg.rpuDiesNum)[i]? := by
  have hpos := h.luns_pos
  have hend : endDie cfg (12 * s) = 12 * (s + cfg.luns) - 1 := by
    rw [endDie,h.rpu_eq]
    omega
  rw [hend,h.rpu_eq,← List.getElem?_take_of_lt hi,r.lastGood_take hs hpos,List.getElem?_take_of_lt hi]

theorem goods_lt {s die : Nat} (h : cfg.Valid) (hs : s + cfg.luns ≤ 16)
    (hdie : die ∈ r.goods (12 * s) cfg.rpuDiesNum) : die < 192 := by
  have hlt := (mem_goods.mp hdie).2.1
  rw [h.rpu_eq] at hlt
  omega

/-- One pass over an RPU gives its last good dies the parity roles. -/
theorem raifRpu_eq {s : Nat} (h : cfg.Valid) (hs : s + cfg.luns ≤ 16)
    (henough : cfg.raifMode ≤ (r.goods (12 * s) cfg.rpuDiesNum).length) :
    r.raifRpu cfg (12 * s) = some (r.writeTypes ((r.goods (12 * s) cfg.rpuDiesNum).zip cfg.roles)) := by
  have hdie (i : Nat) (hi : i < cfg.raifMode) := lastGood_getElem (r := r) h hs hi
  have hlt (die : Nat) (hmem : die ∈ r.goods (12 * s) cfg.rpuDiesNum) := goods_lt h hs hmem
  rw [raifRpu,RaifCfg.roles]
  generalize r.goods (12 * s) cfg.rpuDiesNum = g at *
  rcases h.mode with hm | hm
  · rw [hm] at hdie henough ⊢
    cases g with
    | nil => exact absurd henough (by decide)
    | cons die g =>
      rw [if_pos rfl,if_pos rfl,hdie 0 (by decide),List.getElem?_cons_zero,Option.map_some,
        setDieType_eq (hlt die List.mem_cons_self)]
      simp
  · rw [hm] at hdie henough ⊢
    rcases g with _ | ⟨die,_ | ⟨die',g⟩⟩
    · exact absurd henough (by decide)
    · exact absurd henough (by simp)
    · rw [if_neg (by decide),if_pos rfl,if_neg (by decide),if_pos rfl,hdie 0 (by decide),hdie 1 (by decide),
        List.getElem?_cons_zero,List.getElem?_cons_succ,List.getElem?_cons_zero,Option.bind_some,
        Option.map_some,setDieType_eq (hlt die List.mem_cons_self),
        setDieType_eq (hlt die' (List.mem_cons_of_mem _ List.mem_cons_self)),writeTypes_append]
      simp

/-- The loop over RPUs gives out the parity roles of all of them. -/
theorem foldlM_raifRpu {starts : List Nat} (h : cfg.Valid)
    (hstarts : ∀ st ∈ starts, ∃ s, st = 12 * s ∧ s + cfg.luns ≤ 16)
    (henough : ∀ st ∈ starts, cfg.raifMode ≤ (r.goods st cfg.rpuDiesNum).length) :
    starts.foldlM (raifRpu cfg) r =
      some (r.writeTypes (starts.flatMap fun st => (r.goods st cfg.rpuDiesNum).zip cfg.roles)) := by
  induction starts generalizing r with
  | nil => rfl
  | cons st starts ih =>
    obtain ⟨s,rfl,hs⟩ := hstarts st List.mem_cons_self
    let r₁ := r.writeTypes ((r.goods (12 * s) cfg.rpuDiesNum).zip cfg.roles)
    have hrest := ih (r := r₁) (fun st hst => hstarts st (List.mem_cons_of_mem _ hst))
      (fun st hst => henough st (List.mem_cons_of_mem _ hst))
    rw [List.foldlM_cons,raifRpu_eq h hs (henough _ List.mem_cons_self),Option.bind_eq_bind,
      Option.bind_some,hrest,writeTypes_append,List.flatMap_cons]
    rfl

/-- The last RPU starts `rpuDiesNum` dies before the end, and no other one does. -/
theorem starts_split (h : cfg.Valid) : ∃ init, cfg.starts = init ++ [192 - cfg.rpuDiesNum] ∧
    ∀ st ∈ init, st + cfg.rpuDiesNum ≠ cfgNandDieNum := by
  have hpos := h.luns_pos
  have hm : cfg.luns * (16 / cfg.luns) = 16 := Nat.mul_div_cancel' h.luns_dvd
  obtain ⟨m,hm'⟩ : ∃ m, 16 / cfg.luns = m + 1 := by
    apply Nat.exists_eq_succ_of_ne_zero
    intro hzero
    rw [hzero] at hm
    cases hm
  rw [hm',Nat.mul_succ] at hm
  refine ⟨(List.range m).map fun i => 12 * (cfg.luns * i),?_,?_⟩
  · rw [RaifCfg.starts,cfgNandLunNum_eq,hm',List.range_succ,List.map_append,List.map_singleton,h.rpu_eq]
    congr 2
    omega
  · intro st hst
    obtain ⟨i,hi,rfl⟩ := List.mem_map.mp hst
    have hi : i < m := List.mem_range.mp hi
    have hle : cfg.luns * (i + 1) ≤ cfg.luns * m := Nat.mul_le_mul_left _ hi
    rw [Nat.mul_succ] at hle
    rw [h.rpu_eq,cfgNandDieNum_eq]
    omega

/-- First die of the last RPU. -/
theorem last_start (h : cfg.Valid) : 192 - cfg.rpuDiesNum = 12 * (16 - cfg.luns) := by
  have hle : cfg.luns ≤ 16 := Nat.le_of_dvd (by decide) h.luns_dvd
  rw [h.rpu_eq]
  omega

/-- The log page goes to the good die next to the parity dies of the last RPU. -/
theorem ftlLogPageDieRecalibrate_eq {die : Nat} (h : cfg.Valid)
    (hdie : (r.goods (192 - cfg.rpuDiesNum) cfg.rpuDiesNum)[cfg.raifMode]? = some die) :
    r.ftlLogPageDieRecalibrate cfg = some (r.writeTypes [(die,.ftlLogPage)]) := by
  have hpos := h.luns_pos
  have hle : cfg.luns ≤ 16 := Nat.le_of_dvd (by decide) h.luns_dvd
  have hs : 16 - cfg.luns + cfg.luns ≤ 16 := by omega
  rw [last_start h] at hdie
  have hu8 : (cfgNandDieNum + 256 - cfg.rpuDiesNum % 256) % 256 = 12 * (16 - cfg.luns) := by
    rw [cfgNandDieNum_eq,h.rpu_eq]
    omega
  rw [ftlLogPageDieRecalibrate,hu8,lastGood_getElem h hs (Nat.lt_succ_self _),hdie,Option.map_some,
    setDieType_eq (goods_lt h hs (List.mem_of_getElem? hdie))]

theorem rolesAt_last (h : cfg.Valid) : cfg.rolesAt (192 - cfg.rpuDiesNum) = cfg.roles ++ [.ftlLogPage] :=
  if_pos (Nat.sub_add_cancel (Nat.le_of_dvd (by decide) h.divides))

/-- There is a die for the log page. -/
theorem exists_log_die (h : cfg.Valid) (henough : cfg.Enough r) :
    ∃ die, (r.goods (192 - cfg.rpuDiesNum) cfg.rpuDiesNum)[cfg.raifMode]? = some die := by
  obtain ⟨init,hsplit,-⟩ := starts_split h
  have hlen := henough (192 - cfg.rpuDiesNum) (by simp [hsplit])
  rw [rolesAt_last h,List.length_append,h.length_roles,List.length_singleton] at hlen
  exact ⟨_,List.getElem?_eq_getElem hlen⟩

/-- What a recalibration writes: in every RPU the roles, to the last good dies. -/
theorem blockDistRecalibrate_eq (h : cfg.Valid) (henough : cfg.Enough r) :
    r.blockDistRecalibrate cfg = some (r.writeTypes
      (cfg.starts.flatMap fun st => (r.goods st cfg.rpuDiesNum).zip (cfg.rolesAt st))) := by
  have hraif : r.raifDieRecalibrate cfg = some (r.writeTypes
      (cfg.starts.flatMap fun st => (r.goods st cfg.rpuDiesNum).zip cfg.roles)) := by
    rw [raifDieRecalibrate,h.rpuStarts_eq,Option.bind_some]
    apply foldlM_raifRpu h (fun st hst => RaifCfg.Valid.start_cases hst)
    intro st hst
    exact Nat.le_trans (h.roles_le st) (henough st hst)
  obtain ⟨init,hsplit,hinit⟩ := starts_split h
  obtain ⟨die,hdie⟩ := exists_log_die h henough
  rw [blockDistRecalibrate,hraif,Option.bind_some]
  apply (ftlLogPageDieRecalibrate_eq (r := r.writeTypes _) h hdie).trans
  rw [writeTypes_append,hsplit,List.flatMap_append,List.flatMap_append,List.flatMap_singleton,
    List.flatMap_singleton,rolesAt_last h,zip_concat (by rw [h.length_roles]; exact hdie),List.append_assoc]
  congr 3
  apply List.flatMap_congr
  intro st hst
  rw [RaifCfg.rolesAt,if_neg (hinit st hst)]

/-- Of the RPUs only that of the die writes to its entry. -/
theorem blockDistRecalibrate_type {r' : Rblk} {die : Nat} (h : cfg.Valid) (henough : cfg.Enough r)
    (hr' : r.blockDistRecalibrate cfg = some r') (hdie : die < 192) :
    r'.bbt = r.bbt ∧ r'.pgtype die = if r.bad die then r.pgtype die else
      ((cfg.rolesAt (cfg.startOf die))[(r.goods (cfg.startOf die) cfg.rpuDiesNum).idxOf die]?).getD
        (r.pgtype die) := by
  rw [blockDistRecalibrate_eq h henough] at hr'
  cases hr'
  apply And.intro rfl
  obtain ⟨hle,hlt⟩ := h.startOf_bounds die
  have hothers (st : Nat) (hst : st ∈ cfg.starts) (hne : st ≠ cfg.startOf die) :
      die ∉ ((r.goods st cfg.rpuDiesNum).zip (cfg.rolesAt st)).map Prod.fst := by
    intro hmem
    obtain ⟨w,hw,rfl⟩ := List.mem_map.mp hmem
    have hin := mem_goods.mp (List.of_mem_zip hw).1
    exact hne (h.startOf_eq hst hin.1 hin.2.1).symm
  have hone : (r.writeTypes (cfg.starts.flatMap fun st =>
      (r.goods st cfg.rpuDiesNum).zip (cfg.rolesAt st))).pgtype die =
      overwrite r.pgtype ((r.goods (cfg.startOf die) cfg.rpuDiesNum).zip
        (cfg.rolesAt (cfg.startOf die))) die :=
    overwrite_flatMap (h.startOf_mem hdie) h.starts_nodup hothers
  rw [hone]
  cases hbad : r.bad die with
  | true =>
    apply overwrite_zip_of_notMem
    intro hmem
    rw [(mem_goods.mp hmem).2.2] at hbad
    cases hbad
  | false => exact overwrite_zip (goods_nodup _ _) (mem_goods.mpr ⟨hle,hlt,hbad⟩)

/-- The type a die has according to the bitmap: its role is its place among the last good dies. -/
def pageTypeOf (cfg : RaifCfg) (r : Rblk) (die : Nat) : PgType :=
  if r.bad die then .badblkPage
  else ((cfg.rolesAt (cfg.startOf die))[(r.goods (cfg.startOf die) cfg.rpuDiesNum).idxOf die]?).getD
    .normalPage

/-- The table agrees with the bitmap. -/
def Calibrated (cfg : RaifCfg) (r : Rblk) : Prop := ∀ die, die < 192 → r.pgtype die = r.pageTypeOf cfg die

/-- A recalibration is right when bad dies are marked and every other die has its type or no role. -/
theorem calibrated_of_recalibrate {r' : Rblk} (h : cfg.Valid) (henough : cfg.Enough r)
    (hr' : r.blockDistRecalibrate cfg = some r')
    (hbad : ∀ die, die < 192 → r.bad die = true → r.pgtype die = .badblkPage)
    (hgood : ∀ die, die < 192 → r.bad die = false →
      ((cfg.rolesAt (cfg.startOf die))[(r.goods (cfg.startOf die) cfg.rpuDiesNum).idxOf die]?).getD
        (r.pgtype die) = r.pageTypeOf cfg die) : r'.bbt = r.bbt ∧ r'.Calibrated cfg := by
  have hbbt := (blockDistRecalibrate_type h henough hr' (by decide : 0 < 192)).1
  apply And.intro hbbt
  intro die hdie
  have hsame : r'.pageTypeOf cfg die = r.pageTypeOf cfg die := by
    rw [pageTypeOf,pageTypeOf,bad_of_bbt hbbt,goods_of_bbt hbbt]
  rw [hsame,(blockDistRecalibrate_type h henough hr' hdie).2]
  cases hb : r.bad die with
  | true => rw [if_pos rfl,hbad die hdie hb,pageTypeOf,if_pos hb]
  | false => exact hgood die hdie hb

/-- The inner loop of the build writes the entries of one LUN. -/
private theorem foldl_chs (lun : Nat) (chs : List Nat) :
    chs.foldl (fun r ch => r.setPageTypeAt lun ch
        (if r.getBbtAt lun ch then .badblkPage else .normalPage)) r =
      r.writeTypes (chs.map fun ch => (lun * cfgNandChNum + ch,
        if r.getBbtAt lun ch then .badblkPage else .normalPage)) := by
  induction chs generalizing r with
  | nil => rfl
  | cons ch chs ih =>
    rw [List.foldl_cons,ih]
    rfl

private theorem foldl_luns (luns chs : List Nat) :
    luns.foldl (fun r lun => chs.foldl (fun r ch => r.setPageTypeAt lun ch
        (if r.getBbtAt lun ch then .badblkPage else .normalPage)) r) r =
      r.writeTypes (luns.flatMap fun lun => chs.map fun ch => (lun * cfgNandChNum + ch,
        if r.getBbtAt lun ch then .badblkPage else .normalPage)) := by
  induction luns generalizing r with
  | nil => rfl
  | cons lun luns ih =>
    rw [List.foldl_cons,foldl_chs,ih,writeTypes_append,List.flatMap_cons]
    rfl

theorem typesFromBbt_bbt : r.typesFromBbt.bbt = r.bbt := by
  rw [typesFromBbt,foldl_luns]
  rfl

/-- Before roles are given the table shows the bitmap. -/
theorem typesFromBbt_pgtype {die : Nat} (hdie : die < 192) :
    r.typesFromBbt.pgtype die = if r.bad die then .badblkPage else .normalPage := by
  rw [typesFromBbt,foldl_luns]
  have hkey : die ∈ (((List.range cfgNandLunNum).flatMap fun lun => (List.range cfgNandChNum).map fun ch =>
      (lun * cfgNandChNum + ch,if r.getBbtAt lun ch then PgType.badblkPage else .normalPage)).map
        Prod.fst) := by
    rw [List.mem_map]
    refine ⟨(die,if r.bad die then .badblkPage else .normalPage),?_,rfl⟩
    rw [List.mem_flatMap]
    refine ⟨die / 12,List.mem_range.mpr (by rw [cfgNandLunNum_eq]; omega),List.mem_map.mpr ⟨die % 12,?_,?_⟩⟩
    · exact List.mem_range.mpr (Nat.mod_lt _ (by decide))
    · rw [cfgNandChNum_eq,Nat.div_add_mod']
      rfl
  -- whatever is written for the die is the type of its LUN and channel
  have hwritten := overwrite_mem (t := r.pgtype) hkey
  obtain ⟨lun,-,hlun⟩ := List.mem_flatMap.mp hwritten
  obtain ⟨ch,hch,hpair⟩ := List.mem_map.mp hlun
  rw [Prod.mk.injEq] at hpair
  have hch : ch < 12 := List.mem_range.mp hch
  have hdiv : die / cfgNandChNum = lun := by
    rw [← hpair.1,cfgNandChNum_eq]
    omega
  have hmod : die % cfgNandChNum = ch := by
    rw [← hpair.1,cfgNandChNum_eq]
    omega
  rw [bad,hdiv,hmod]
  exact hpair.2.symm

theorem enough_of_bbt {r' : Rblk} (henough : cfg.Enough r) (h : r'.bbt = r.bbt) : cfg.Enough r' := by
  intro st hst
  rw [goods_of_bbt h]
  exact henough st hst

/-- A build succeeds and gives every die its type. -/
theorem buildPageType_calibrated (h : cfg.Valid) (henough : cfg.Enough r) :
    ∃ r', r.buildPageType cfg = some r' ∧ r'.bbt = r.bbt ∧ r'.Calibrated cfg := by
  have hbbt := typesFromBbt_bbt (r := r)
  have hbad := bad_of_bbt hbbt
  have henough' : cfg.Enough r.typesFromBbt := enough_of_bbt henough hbbt
  have hcal := blockDistRecalibrate_eq h henough'
  obtain ⟨hb,hc⟩ := calibrated_of_recalibrate h henough' hcal
    (by
      intro die hdie hb
      rw [typesFromBbt_pgtype hdie,if_pos (hbad ▸ hb)])
    (by
      intro die hdie hb
      have hnormal : r.typesFromBbt.pgtype die = .normalPage := by
        rw [typesFromBbt_pgtype hdie,← hbad,hb]
        rfl
      rw [hnormal,pageTypeOf,hb]
      rfl)
  exact ⟨_,hcal,hb.trans hbbt,hc⟩

/-- The bitmap after these dies were marked. -/
def markBad (bbt : Nat → BitVec 16) (dies : List (Nat × Nat)) : Nat → BitVec 16 :=
  dies.foldl (fun bbt die => Function.update bbt die.1 (bbt die.1 ||| 1#16 <<< die.2)) bbt

/-- Marking a die adds it to the bad ones. -/
theorem bad_setBbtAt {lun ch : Nat} (hch : ch < 12) (die : Nat) :
    (r.setBbtAt lun ch).bad die = (r.bad die || decide (die = lun * 12 + ch)) := by
  have hmod : die % 12 < 12 := Nat.mod_lt _ (by decide)
  show (Function.update r.bbt lun (r.bbt lun ||| 1#16 <<< ch) (die / 12)).getLsbD (die % 12) =
    ((r.bbt (die / 12)).getLsbD (die % 12) || _)
  by_cases hlun : die / 12 = lun
  · rw [hlun,Function.update_self,BitVec.getLsbD_or]
    congr 1
    by_cases hc : die % 12 = ch
    · have hdie : die = lun * 12 + ch := by omega
      rw [hc,decide_eq_true hdie]
      simp
      omega
    · have hdie : ¬ die = lun * 12 + ch := by omega
      rw [decide_eq_false hdie,BitVec.getLsbD_shiftLeft,BitVec.getLsbD_one]
      simp
      omega
  · have hdie : ¬ die = lun * 12 + ch := by omega
    rw [Function.update_of_ne hlun,decide_eq_false hdie,Bool.or_false]

/-- The good dies are those that were good before, without the marked one. -/
theorem goods_setBbtAt {lun ch : Nat} (hch : ch < 12) (first cnt : Nat) :
    (r.setBbtAt lun ch).goods first cnt =
      (r.goods first cnt).filter fun die => !decide (die = lun * 12 + ch) := by
  rw [goods,goods,List.filter_reverse,List.filter_filter]
  congr 2
  funext die
  rw [bad_setBbtAt hch,Bool.not_or,Bool.and_comm]

/-- With enough good dies left, a grown bad die leaves the table in agreement with the bitmap. -/
theorem growBad_calibrated {die : Nat × Nat} (h : cfg.Valid) (hch : die.2 < 12)
    (hcal : r.Calibrated cfg) (henough : cfg.Enough (r.setBbtAt die.1 die.2)) :
    ∃ r', r.growBad cfg die = some r' ∧ r'.bbt = (r.setBbtAt die.1 die.2).bbt ∧ r'.Calibrated cfg := by
  let r₁ := (r.setBbtAt die.1 die.2).setPageTypeAt die.1 die.2 .badblkPage
  have hbad₁ (x : Nat) : r₁.bad x = (r.bad x || decide (x = die.1 * 12 + die.2)) := bad_setBbtAt hch x
  have hgoods₁ (first cnt : Nat) : r₁.goods first cnt =
      (r.goods first cnt).filter fun x => !decide (x = die.1 * 12 + die.2) := goods_setBbtAt hch first cnt
  have htype (x : Nat) (hx : x ≠ die.1 * 12 + die.2) : r₁.pgtype x = r.pgtype x :=
    Function.update_of_ne hx ..
  have henough₁ : cfg.Enough r₁ := henough
  have hr' := blockDistRecalibrate_eq h henough₁
  obtain ⟨hbbt,hc⟩ := calibrated_of_recalibrate h henough₁ hr'
    (by
      intro x hx hb
      by_cases hd : x = die.1 * 12 + die.2
      · rw [hd]
        exact Function.update_self ..
      · rw [hbad₁,decide_eq_false hd,Bool.or_false] at hb
        rw [htype x hd,hcal x hx,pageTypeOf,if_pos hb])
    (by
      intro x hx hb
      rw [hbad₁,Bool.or_eq_false_iff,decide_eq_false_iff_not] at hb
      rw [htype x hb.2,hcal x hx,pageTypeOf,pageTypeOf,hbad₁,hb.1,decide_eq_false hb.2,hgoods₁]
      exact getD_role_filter (by simp [hb.2]))
  exact ⟨_,hr',hbbt,hc⟩

/-- Fewer good dies are left after dies went bad. -/
theorem enough_of_markBad {dies : List (Nat × Nat)} {pg : Nat → PgType} (hdies : ∀ die ∈ dies, die.2 < 12)
    (henough : cfg.Enough ⟨markBad r.bbt dies,pg⟩) : cfg.Enough r := by
  induction dies generalizing r with
  | nil => exact henough
  | cons die dies ih =>
    have hnext := ih (r := r.setBbtAt die.1 die.2)
      (fun d hd => hdies d (List.mem_cons_of_mem die hd)) henough
    intro st hst
    apply Nat.le_trans (hnext st hst)
    rw [goods_setBbtAt (hdies die List.mem_cons_self)]
    exact List.length_filter_le _ _

/-- A run of failures keeps the table in agreement with the bitmap. -/
theorem foldlM_growBad_calibrated {dies : List (Nat × Nat)} {pg : Nat → PgType} (h : cfg.Valid)
    (hdies : ∀ die ∈ dies, die.2 < 12) (hcal : r.Calibrated cfg)
    (henough : cfg.Enough ⟨markBad r.bbt dies,pg⟩) :
    ∃ r', dies.foldlM (growBad cfg) r = some r' ∧ r'.bbt = markBad r.bbt dies ∧ r'.Calibrated cfg := by
  induction dies generalizing r with
  | nil => exact ⟨r,rfl,rfl,hcal⟩
  | cons die dies ih =>
    have hrest : ∀ d ∈ dies, d.2 < 12 := fun d hd => hdies d (List.mem_cons_of_mem die hd)
    have hfirst : cfg.Enough (r.setBbtAt die.1 die.2) := enough_of_markBad hrest henough
    obtain ⟨r₁,hgrow,hbbt,hcal₁⟩ := growBad_calibrated h (hdies die List.mem_cons_self) hcal hfirst
    have hmark : markBad r₁.bbt dies = markBad r.bbt (die :: dies) := by
      rw [hbbt]
      rfl
    obtain ⟨r',hrun,hbbt',hcal'⟩ := ih hrest hcal₁ (hmark ▸ henough)
    refine ⟨r',?_,hbbt'.trans hmark,hcal'⟩
    rw [List.foldlM_cons,hgrow]
    exact hrun

end Rblk

/-- For RPUs that divide the block, any bitmap and any sequence of dies going bad, as long as every RPU
has a good die for each role: the table that the recalibrations leave is the one built from the
final bitmap, whatever the two tables held before they were built. -/
theorem recalibration_eq_rebuild (cfg : RaifCfg) (hcfg : cfg.Valid) (bbt : Nat → BitVec 16)
    (pg pg' : Nat → PgType) (dies : List (Nat × Nat))
    (hdies : ∀ die ∈ dies, die.1 < cfgNandLunNum ∧ die.2 < cfgNandChNum)
    (henough : cfg.Enough ⟨Rblk.markBad bbt dies,pg⟩) :
    ∃ r₀ r r', (⟨bbt,pg⟩ : Rblk).buildPageType cfg = some r₀ ∧
      dies.foldlM (Rblk.growBad cfg) r₀ = some r ∧ r.bbt = Rblk.markBad bbt dies ∧
      (⟨Rblk.markBad bbt dies,pg'⟩ : Rblk).buildPageType cfg = some r' ∧
      ∀ die, die < cfgNandDieNum → r.pgtype die = r'.pgtype die := by
  have hchs : ∀ die ∈ dies, die.2 < 12 := fun die hdie => (hdies die hdie).2
  obtain ⟨r₀,hbuild,hbbt₀,hcal₀⟩ := Rblk.buildPageType_calibrated (r := ⟨bbt,pg⟩) hcfg
    (Rblk.enough_of_markBad hchs henough)
  obtain ⟨r,hrun,hbbt,hcal⟩ := Rblk.foldlM_growBad_calibrated (r := r₀) hcfg hchs hcal₀
    (by rw [hbbt₀]; exact henough)
  obtain ⟨r',hrebuild,hbbt',hcal'⟩ := Rblk.buildPageType_calibrated
    (r := ⟨Rblk.markBad bbt dies,pg'⟩) hcfg henough
  have hmark : r.bbt = Rblk.markBad bbt dies := by rw [hbbt,hbbt₀]
  refine ⟨r₀,r,r',hbuild,hrun,hmark,hrebuild,?_⟩
  intro die hdie
  have hsame : r.bbt = r'.bbt := hmark.trans hbbt'.symm
  rw [hcal die hdie,hcal' die hdie,Rblk.pageTypeOf,Rblk.pageTypeOf,Rblk.bad_of_bbt hsame,
    Rblk.goods_of_bbt hsame]

/-- RAIF 2 and RPUs of 48 dies: the last three dies of the block fail one after another. -/
theorem recalibration_eq_rebuild_cascade :
    ∃ r₀ r r', (⟨fun _ => 0,fun _ => .normalPage⟩ : Rblk).buildPageType ⟨2,48⟩ = some r₀ ∧
      [(15,11),(15,10),(15,9)].foldlM (Rblk.growBad ⟨2,48⟩) r₀ = some r ∧
      (⟨Rblk.markBad (fun _ => 0) [(15,11),(15,10),(15,9)],fun _ => .normalPage⟩ : Rblk).buildPageType
        ⟨2,48⟩ = some r' ∧ r.pgtype 188 = r'.pgtype 188 := by
  have henough : RaifCfg.Enough ⟨2,48⟩
      ⟨Rblk.markBad (fun _ => 0) [(15,11),(15,10),(15,9)],fun _ => .normalPage⟩ := by
    unfold RaifCfg.Enough
    decide +kernel
  obtain ⟨r₀,r,r',hbuild,hrun,-,hrebuild,hsame⟩ := recalibration_eq_rebuild
    ⟨2,48⟩ ⟨Or.inr rfl,by decide,by decide⟩ (fun _ => 0) (fun _ => .normalPage)
    (fun _ => .normalPage) [(15,11),(15,10),(15,9)] (by decide) henough
  exact ⟨r₀,r,r',hbuild,hrun,hrebuild,hsame 188 (by decide)⟩

/-- RPUs of 72 dies, a multiple of the channels that does not divide the block: the third one reaches
past the block, so when die 191 fails the log page moves to die 189 and die 190 keeps it too. -/
theorem recalibration_stale_log : cfgNandChNum ∣ 72 ∧
    ((⟨fun _ => 0,fun _ => .normalPage⟩ : Rblk).buildPageType ⟨1,72⟩).bind
        (fun r => (r.growBad ⟨1,72⟩ (15,11)).map fun r => (r.pgtype 189,r.pgtype 190,r.pgtype 191)) =
      some (.ftlLogPage,.ftlLogPage,.badblkPage) ∧
    ((⟨Rblk.markBad (fun _ => 0) [(15,11)],fun _ => .normalPage⟩ : Rblk).buildPageType ⟨1,72⟩).map
        (fun r => (r.pgtype 189,r.pgtype 190,r.pgtype 191)) =
      some (.ftlLogPage,.normalPage,.badblkPage) := by
  decide +kernel

end Sdssd.Fw
