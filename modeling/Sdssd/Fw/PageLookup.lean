import Sdssd.Fw.Recalibration

/-!
# Looking up the type of a page

The table has one type per die. `lookup_page_type_fast` refines it for the first page of a block and
for the log page, which needs only a part of its die; `is_raif_page` finds the parity role without the
table, from the bitmap.
-/

namespace Sdssd.Fw

open Framework

def cpSize : Nat := 0x1000
def ppaPerDie : Nat := cfgNandCpNum * cfgNandPlNum
def ppaPerRpage : Nat := cfgNandCpNum * cfgNandPlNum * cfgNandLunNum * cfgNandChNum

/-- `LOG_PAGE_SIZE`. The size of `cp_log_t` is left open: 12 bytes as in the comment, or 16 where a
64-bit member is aligned to 8. -/
def logPageSize (cpLogSize : Nat) : Nat := (ppaPerRpage * cpLogSize + (cpSize - 1)) / cpSize * cpSize

def ppaPerLogPage (cpLogSize : Nat) : Nat := (logPageSize cpLogSize + cpSize - 1) / cpSize

def logPageStartCpl (cpLogSize : Nat) : Nat := ppaPerDie - ppaPerLogPage cpLogSize

example : (ppaPerLogPage 12,logPageStartCpl 12) = (9,7) := by decide

/-- `ppa.all & CPL_MASK`. -/
def ppaCpl (ppa : Ppa) : Nat := ppa.toNat % 2^(cpBits+plBits)

def isFirstPpa (ppa : Ppa) : Bool :=
  Nand.pg.get ppa == 0 && Nand.lun.get ppa == 0 && Nand.pl.get ppa == 0 && Nand.cp.get ppa == 0

namespace Rblk

/-- `__get_page_type`. -/
def getPageTypeAt (r : Rblk) (lun ch : Nat) : PgType := r.pgtype (lun * cfgNandChNum + ch)

/-- The block's `get_page_type`. -/
def getPageType (r : Rblk) (ppa : Ppa) : PgType := r.getPageTypeAt (Nand.lun.get ppa) (Nand.ch.get ppa)

/-- `lookup_page_type_fast` for an address of the block. -/
def lookupPageTypeFast (cpLogSize : Nat) (r : Rblk) (ppa : Ppa) : PgType :=
  -- case 1: normal in the first page
  let type := if r.getPageType ppa = .normalPage ∧ isFirstPpa ppa = true then .firstPage
    else r.getPageType ppa
  -- case 2: the part of the log die that the log page does not need
  if type = .ftlLogPage ∧ logPageStartCpl cpLogSize ≤ ppaCpl ppa then .normalPage else type

end Rblk

/-- The start of the RPU of an address, a `u8`. -/
def rpuStartDie (cfg : RaifCfg) (ppa : Ppa) : Nat :=
  (ppaToDie ppa - ppaToDie ppa % cfg.rpuDiesNum) % 2^8

/-- `is_raif_page`; there is no result when an entry of `last_dies` is used that has not been written. -/
def Rblk.isRaifPage (cfg : RaifCfg) (r : Rblk) (ppa : Ppa) : Option Int :=
  let lastDies := r.lastGood (rpuStartDie cfg ppa) (Rblk.endDie cfg (rpuStartDie cfg ppa)) cfg.raifMode
  let compare (raif1Die : Nat) : Int :=
    if ppaToDie ppa = raif1Die then 1
    -- The second test is against `raif1_die` again, not against `raif2_die`.
    else if ppaToDie ppa = raif1Die then 2
    else 0
  if cfg.raifMode = 0 then some 0
  else if cfg.raifMode = 1 then lastDies[0]?.map compare
  else if cfg.raifMode = 2 then lastDies[0]?.bind fun _ => lastDies[1]?.map compare
  else some (-1)

section Roles

variable {cfg : RaifCfg} {r : Rblk} {die : Nat}

theorem RaifCfg.rolesAt_nodup (cfg : RaifCfg) (start : Nat) : (cfg.rolesAt start).Nodup := by
  simp only [RaifCfg.rolesAt,RaifCfg.roles]
  split <;> split
  · decide
  · split <;> decide
  · decide
  · split <;> decide

/-- A role is neither the type of a bad die nor that of a die without a role. -/
theorem RaifCfg.mem_rolesAt {start : Nat} {type : PgType} (h : type ∈ cfg.rolesAt start) :
    type ≠ .badblkPage ∧ type ≠ .normalPage := by
  revert h
  simp only [RaifCfg.rolesAt,RaifCfg.roles]
  split <;> split <;> (try split) <;> revert type <;> decide

/-- A role belongs to the die at its place among the last good dies. -/
theorem Rblk.pageTypeOf_eq_role (h : cfg.Valid) {i : Nat} {type : PgType}
    (hrole : (cfg.rolesAt (cfg.startOf die))[i]? = some type) :
    r.pageTypeOf cfg die = type ↔ (r.goods (cfg.startOf die) cfg.rpuDiesNum)[i]? = some die := by
  obtain ⟨hbad,hnormal⟩ := RaifCfg.mem_rolesAt (List.mem_of_getElem? hrole)
  rw [Rblk.pageTypeOf]
  cases hdie : r.bad die with
  | true =>
    rw [if_pos rfl]
    refine iff_of_false hbad.symm ?_
    intro hget
    have hgood := (Rblk.mem_goods.mp (List.mem_of_getElem? hget)).2.2
    rw [hdie] at hgood
    cases hgood
  | false =>
    obtain ⟨hle,hlt⟩ := h.startOf_bounds die
    rw [if_neg (by decide)]
    exact getD_role_iff (Rblk.goods_nodup _ _) (cfg.rolesAt_nodup _) (Rblk.mem_goods.mpr ⟨hle,hlt,hdie⟩)
      hrole hnormal

/-- No die has a role that its RPU does not give out. -/
theorem Rblk.pageTypeOf_ne {type : PgType} (hrole : type ∉ cfg.rolesAt (cfg.startOf die))
    (hbad : type ≠ .badblkPage) (hnormal : type ≠ .normalPage) : r.pageTypeOf cfg die ≠ type := by
  intro htype
  rw [Rblk.pageTypeOf] at htype
  cases hdie : r.bad die with
  | true =>
    rw [hdie,if_pos rfl] at htype
    exact hbad htype.symm
  | false =>
    rw [hdie,if_neg (by decide)] at htype
    cases hget : (cfg.rolesAt (cfg.startOf die))[(r.goods (cfg.startOf die) cfg.rpuDiesNum).idxOf die]? with
    | none =>
      rw [hget] at htype
      exact hnormal htype.symm
    | some u =>
      rw [hget,Option.getD_some] at htype
      exact hrole (htype ▸ List.mem_of_getElem? hget)

/-- The parity roles come first, and the last of them is RAIF1. -/
theorem RaifCfg.Valid.raif1_role (h : cfg.Valid) (start : Nat) :
    (cfg.rolesAt start)[cfg.raifMode-1]? = some .raif1Page := by
  rw [RaifCfg.rolesAt,RaifCfg.roles]
  rcases h.mode with hm | hm <;> rw [hm] <;> split <;> rfl

theorem Rblk.pageTypeOf_eq_raif1 (r : Rblk) (die : Nat) (h : cfg.Valid) : r.pageTypeOf cfg die = .raif1Page ↔
    (r.goods (cfg.startOf die) cfg.rpuDiesNum)[cfg.raifMode-1]? = some die :=
  Rblk.pageTypeOf_eq_role h (h.raif1_role _)

theorem Rblk.pageTypeOf_eq_raif2 (r : Rblk) (die : Nat) (h : cfg.Valid) : r.pageTypeOf cfg die = .raif2Page ↔
    cfg.raifMode = 2 ∧ (r.goods (cfg.startOf die) cfg.rpuDiesNum)[0]? = some die := by
  rcases h.mode with hm | hm
  · have hrole : PgType.raif2Page ∉ cfg.rolesAt (cfg.startOf die) := by
      rw [RaifCfg.rolesAt,RaifCfg.roles,hm]
      split <;> decide
    rw [hm]
    exact iff_of_false (Rblk.pageTypeOf_ne hrole (by decide) (by decide)) (fun h => by cases h.1)
  · have hrole : (cfg.rolesAt (cfg.startOf die))[0]? = some .raif2Page := by
      rw [RaifCfg.rolesAt,RaifCfg.roles,hm]
      split <;> rfl
    rw [Rblk.pageTypeOf_eq_role h hrole,and_iff_right hm]

end Roles

section Computed

variable {cfg : RaifCfg} {r : Rblk} {ppa : Ppa}

/-- The two LUN bits reach the first 52 entries of the table. -/
theorem ppaToDie_lt (ppa : Ppa) : ppaToDie ppa < cfgNandDieNum := by
  have hlun : Nand.lun.get ppa < 2^2 := Nand.lun.get_lt ppa
  have hch : Nand.ch.get ppa < 2^4 := Nand.ch.get_lt ppa
  rw [ppaToDie,lunchToDie,cfgNandChNum_eq,cfgNandDieNum_eq,Nat.mod_eq_of_lt (by omega)]
  omega

theorem Rblk.getPageType_eq (r : Rblk) (ppa : Ppa) : r.getPageType ppa = r.pgtype (ppaToDie ppa) := by
  have hlun : Nand.lun.get ppa < 2^2 := Nand.lun.get_lt ppa
  have hch : Nand.ch.get ppa < 2^4 := Nand.ch.get_lt ppa
  simp only [Rblk.getPageType,Rblk.getPageTypeAt,ppaToDie,lunchToDie,cfgNandChNum_eq]
  congr 1
  omega

theorem rpuStartDie_eq (h : cfg.Valid) : rpuStartDie cfg ppa = cfg.startOf (ppaToDie ppa) := by
  have hlt := ppaToDie_lt ppa
  rw [cfgNandDieNum_eq] at hlt
  rw [rpuStartDie,Nat.mod_eq_of_lt (by omega),RaifCfg.startOf,← Nat.mul_assoc,← h.rpu_eq]
  have hdiv := Nat.div_add_mod (ppaToDie ppa) cfg.rpuDiesNum
  omega

/-- `is_raif_page` tests for RAIF1 only. -/
theorem Rblk.isRaifPage_eq (ppa : Ppa) (h : cfg.Valid) (henough : cfg.Enough r) : r.isRaifPage cfg ppa =
    some (if (r.goods (cfg.startOf (ppaToDie ppa)) cfg.rpuDiesNum)[cfg.raifMode-1]? = some (ppaToDie ppa)
      then 1 else 0) := by
  have hmem := h.startOf_mem (ppaToDie_lt ppa)
  have hlen := Nat.le_trans (h.roles_le _) (henough _ hmem)
  obtain ⟨s,hs,hluns⟩ := RaifCfg.Valid.start_cases hmem
  have hget (i : Nat) (hi : i < cfg.raifMode) := Rblk.lastGood_getElem (r := r) h hluns hi
  rw [← hs] at hget
  have hcompare (die : Nat) : (if ppaToDie ppa = die then 1 else if ppaToDie ppa = die then 2 else 0 : Int) =
      if some die = some (ppaToDie ppa) then 1 else 0 := by
    by_cases heq : ppaToDie ppa = die
    · rw [if_pos heq,if_pos (congrArg some heq.symm)]
    · rw [if_neg heq,if_neg heq,if_neg fun h => heq (Option.some.inj h).symm]
  rw [Rblk.isRaifPage,rpuStartDie_eq h]
  rcases h.mode with hm | hm
  · rw [hm] at hlen hget
    have hfirst := List.getElem?_eq_getElem (Nat.lt_of_lt_of_le Nat.zero_lt_one hlen)
    simp only [hm,hget 0 (by decide),hfirst,Option.map_some,hcompare]
    rfl
  · rw [hm] at hlen hget
    have hfirst := List.getElem?_eq_getElem (Nat.lt_of_lt_of_le Nat.zero_lt_two hlen)
    have hsecond := List.getElem?_eq_getElem (Nat.lt_of_lt_of_le Nat.one_lt_two hlen)
    simp only [hm,hget 0 (by decide),hget 1 (by decide),hfirst,hsecond,Option.bind_some,Option.map_some,
      hcompare]
    rfl

/-- The role that is computed for an address and the one in the table are the same. -/
structure RaifRolesAgree (cfg : RaifCfg) (r : Rblk) (ppa : Ppa) : Prop where
  raif1 : r.isRaifPage cfg ppa = some 1 ↔ r.pgtype (ppaToDie ppa) = .raif1Page
  raif2 : r.isRaifPage cfg ppa = some 2 ↔ r.pgtype (ppaToDie ppa) = .raif2Page
  other : r.isRaifPage cfg ppa = some 0 ↔
    r.pgtype (ppaToDie ppa) ≠ .raif1Page ∧ r.pgtype (ppaToDie ppa) ≠ .raif2Page

/-- With two parities the pages of the RAIF2 die are taken for data; all other roles agree. -/
theorem raif_roles_agree_iff (hcfg : cfg.Valid) (henough : cfg.Enough r) (ppa : Ppa) :
    ∃ r', r.buildPageType cfg = some r' ∧ (RaifRolesAgree cfg r' ppa ↔
      ¬ (cfg.raifMode = 2 ∧
        (r.goods (cfg.startOf (ppaToDie ppa)) cfg.rpuDiesNum)[0]? = some (ppaToDie ppa))) := by
  obtain ⟨r',hbuilt,hbbt,hcal⟩ := Rblk.buildPageType_calibrated hcfg henough
  refine ⟨r',hbuilt,?_⟩
  have hgoods := Rblk.goods_of_bbt hbbt
  have henough' : cfg.Enough r' := Rblk.enough_of_bbt henough hbbt
  have htype := hcal (ppaToDie ppa) (ppaToDie_lt ppa)
  have hraif1 := r'.pageTypeOf_eq_raif1 (ppaToDie ppa) hcfg
  have hraif2 := r'.pageTypeOf_eq_raif2 (ppaToDie ppa) hcfg
  have hret := Rblk.isRaifPage_eq ppa hcfg henough'
  rw [← htype] at hraif1 hraif2
  simp only [← hraif1] at hret
  rw [← hgoods,← hraif2]
  constructor
  · intro h htype2
    have htwo := h.raif2.mpr htype2
    rw [hret] at htwo
    split at htwo <;> cases htwo
  · intro hne
    by_cases htype1 : r'.pgtype (ppaToDie ppa) = .raif1Page
    · rw [if_pos htype1] at hret
      exact ⟨by simp [hret,htype1],by simp [hret,htype1],by simp [hret,htype1]⟩
    · rw [if_neg htype1] at hret
      exact ⟨by simp [hret,htype1],by simp [hret,hne],by simp [hret,htype1,hne]⟩

/-- LUN 3, channel 10 of a block without bad dies: RAIF1 both ways. -/
theorem raif_roles_agree_die_46 :
    ∃ r', (⟨fun _ => 0,fun _ => .normalPage⟩ : Rblk).buildPageType ⟨2,48⟩ = some r' ∧
      RaifRolesAgree ⟨2,48⟩ r' 0x3a0 := by
  have henough : RaifCfg.Enough ⟨2,48⟩ ⟨fun _ => 0,fun _ => .normalPage⟩ := by
    unfold RaifCfg.Enough
    decide +kernel
  obtain ⟨r',hbuilt,hagree⟩ := raif_roles_agree_iff ⟨Or.inr rfl,by decide,by decide⟩ henough 0x3a0
  exact ⟨r',hbuilt,hagree.mpr (by decide +kernel)⟩

/-- On channel 11 the table says RAIF2 and `is_raif_page` returns 0. -/
theorem raif_roles_differ_die_47 :
    ∃ r', (⟨fun _ => 0,fun _ => .normalPage⟩ : Rblk).buildPageType ⟨2,48⟩ = some r' ∧
      r'.pgtype (ppaToDie 0x3b0) = .raif2Page ∧ r'.isRaifPage ⟨2,48⟩ 0x3b0 = some 0 ∧
      ¬ RaifRolesAgree ⟨2,48⟩ r' 0x3b0 := by
  have hrun : ((⟨fun _ => 0,fun _ => .normalPage⟩ : Rblk).buildPageType ⟨2,48⟩).map
      (fun r => (r.pgtype (ppaToDie 0x3b0),r.isRaifPage ⟨2,48⟩ 0x3b0)) = some (.raif2Page,some 0) := by
    decide +kernel
  obtain ⟨r',hbuilt,hval⟩ := Option.map_eq_some_iff.mp hrun
  obtain ⟨htype,hret⟩ := Prod.mk.inj hval
  refine ⟨r',hbuilt,htype,hret,?_⟩
  intro h
  exact absurd (h.raif2.mpr htype) (by rw [hret]; decide)

end Computed

section Layout

namespace NandAddr

/-- The die of an address. -/
def die (a : NandAddr) : Nat := lunchToDie a.lun a.ch

/-- Plane and control page. -/
def cpl (a : NandAddr) : Nat := a.pl * cfgNandCpNum + a.cp

end NandAddr

/-- The pages of an R-page. -/
def rpage (blk pg : Nat) : List NandAddr :=
  (List.range cfgNandLunNum).flatMap fun lun => (List.range cfgNandChNum).flatMap fun ch =>
    (List.range cfgNandPlNum).flatMap fun pl => (List.range cfgNandCpNum).map fun cp => ⟨blk,pg,lun,ch,pl,cp⟩

/-- The log page takes the last control pages of its die, the others of that die are for host data and
every other die has its type on all pages. The addresses are stored into a word that holds `w`. -/
structure LogPageLayout (cpLogSize : Nat) (r : Rblk) (logDie blk pg : Nat) (w : Ppa) : Prop where
  log : ∀ a ∈ rpage blk pg, r.lookupPageTypeFast cpLogSize (a.store w) = .ftlLogPage ↔
    a.die = logDie ∧ logPageStartCpl cpLogSize ≤ a.cpl
  count : (rpage blk pg).countP (fun a => r.lookupPageTypeFast cpLogSize (a.store w) = .ftlLogPage) =
    ppaPerLogPage cpLogSize
  rest : ∀ a ∈ rpage blk pg, a.die = logDie → a.cpl < logPageStartCpl cpLogSize →
    r.lookupPageTypeFast cpLogSize (a.store w) = .normalPage
  others : ∀ a ∈ rpage blk pg, a.die ≠ logDie →
    r.lookupPageTypeFast cpLogSize (a.store w) = r.pgtype a.die

variable {cfg : RaifCfg} {r : Rblk} {cpLogSize : Nat} {ppa : Ppa}

/-- The code keeps the type of the log die where the control page is before the start of the log page. -/
theorem Rblk.lookupPageTypeFast_eq_log : r.lookupPageTypeFast cpLogSize ppa = .ftlLogPage ↔
    r.getPageType ppa = .ftlLogPage ∧ ppaCpl ppa < logPageStartCpl cpLogSize := by
  rw [Rblk.lookupPageTypeFast]
  by_cases hfirst : r.getPageType ppa = .normalPage ∧ isFirstPpa ppa = true
  · simp [hfirst]
  · simp only [if_neg hfirst]
    by_cases hcpl : r.getPageType ppa = .ftlLogPage ∧ logPageStartCpl cpLogSize ≤ ppaCpl ppa
    · rw [if_pos hcpl]
      exact iff_of_false (by decide) fun h => Nat.not_lt.mpr hcpl.2 h.2
    · rw [if_neg hcpl]
      constructor
      · intro hlog
        exact ⟨hlog,Nat.lt_of_not_le fun hle => hcpl ⟨hlog,hle⟩⟩
      · exact And.left

theorem ppaCpl_store (a : NandAddr) (w : Ppa) : ppaCpl (a.store w) = a.pl % 4 * 4 + a.cp % 4 := by
  have hload := a.load_store w
  have hpl : (a.store w).toNat / 4 % 4 = a.pl % 4 := congrArg NandAddr.pl hload
  have hcp : (a.store w).toNat / 1 % 4 = a.cp % 4 := congrArg NandAddr.cp hload
  have hcpl : ppaCpl (a.store w) = (a.store w).toNat % 16 := rfl
  omega

/-- One die of a built table holds the log page. -/
theorem Rblk.pageTypeOf_log (h : cfg.Valid) (henough : cfg.Enough r) :
    ∃ logDie, logDie < cfgNandDieNum ∧
      ∀ die, die < cfgNandDieNum → (r.pageTypeOf cfg die = .ftlLogPage ↔ die = logDie) := by
  obtain ⟨logDie,hlog⟩ := Rblk.exists_log_die h henough
  have hrpu : cfg.rpuDiesNum ≤ 192 := Nat.le_of_dvd (by decide) h.divides
  obtain ⟨hfirst,hend,-⟩ := Rblk.mem_goods.mp (List.mem_of_getElem? hlog)
  refine ⟨logDie,?_,?_⟩
  · rw [cfgNandDieNum_eq]
    omega
  intro die hdie
  by_cases hlast : cfg.startOf die + cfg.rpuDiesNum = cfgNandDieNum
  · rw [cfgNandDieNum_eq] at hlast
    have hstart : cfg.startOf die = 192 - cfg.rpuDiesNum := by omega
    have hrole : (cfg.rolesAt (cfg.startOf die))[cfg.raifMode]? = some .ftlLogPage := by
      rw [hstart,Rblk.rolesAt_last h,List.getElem?_append_right (Nat.le_of_eq h.length_roles),
        h.length_roles,Nat.sub_self]
      rfl
    rw [Rblk.pageTypeOf_eq_role h hrole,hstart,hlog,Option.some.injEq]
    exact eq_comm
  · have hrole : PgType.ftlLogPage ∉ cfg.rolesAt (cfg.startOf die) := by
      rw [RaifCfg.rolesAt,if_neg hlast,RaifCfg.roles]
      rcases h.mode with hm | hm <;> rw [hm] <;> decide
    refine iff_of_false (Rblk.pageTypeOf_ne hrole (by decide) (by decide)) ?_
    rintro rfl
    apply hlast
    obtain ⟨init,hsplit,-⟩ := Rblk.starts_split h
    rw [h.startOf_eq (by simp [hsplit]) hfirst hend,cfgNandDieNum_eq]
    omega

/-- What the code returns where LUN and page fit into their fields and the page is not the first. -/
theorem Rblk.lookupPageTypeFast_store {a : NandAddr} (hcfg : a.Configured) (hlow : a.LowRange)
    (hpg : 0 < a.pg) (w : Ppa) : r.lookupPageTypeFast cpLogSize (a.store w) =
      if r.pgtype a.die = .ftlLogPage ∧ logPageStartCpl cpLogSize ≤ a.cpl then .normalPage
      else r.pgtype a.die := by
  have hload := (a.load_store w).trans (NandAddr.cut_eq hcfg hlow)
  have htype : r.getPageType (a.store w) = r.pgtype a.die := by
    rw [Rblk.getPageType_eq]
    exact congrArg (fun b : NandAddr => r.pgtype (lunchToDie b.lun b.ch)) hload
  have hfirst : isFirstPpa (a.store w) = false := by
    have hread : Nand.pg.get (a.store w) = a.pg := congrArg NandAddr.pg hload
    rw [isFirstPpa,hread,beq_false_of_ne (Nat.ne_of_gt hpg)]
    rfl
  have hcpl : ppaCpl (a.store w) = a.cpl := by
    have hpl : a.pl < 4 := hcfg.2.2.2.2.1
    have hcp : a.cp < 4 := hcfg.2.2.2.2.2
    rw [ppaCpl_store,Nat.mod_eq_of_lt hpl,Nat.mod_eq_of_lt hcp]
    rfl
  rw [Rblk.lookupPageTypeFast,htype,hfirst,hcpl]
  simp

theorem mem_rpage {blk pg : Nat} {a : NandAddr} : a ∈ rpage blk pg ↔
    a.blk = blk ∧ a.pg = pg ∧ a.lun < cfgNandLunNum ∧ a.ch < cfgNandChNum ∧ a.pl < cfgNandPlNum ∧
      a.cp < cfgNandCpNum := by
  simp only [rpage,List.mem_flatMap,List.mem_map,List.mem_range]
  constructor
  · rintro ⟨lun,hlun,ch,hch,pl,hpl,cp,hcp,rfl⟩
    exact ⟨rfl,rfl,hlun,hch,hpl,hcp⟩
  · rintro ⟨rfl,rfl,hlun,hch,hpl,hcp⟩
    exact ⟨a.lun,hlun,a.ch,hch,a.pl,hpl,a.cp,hcp,rfl⟩

/-- A block with good dies in LUN 0 to 3 only. -/
def lowLunsGood : Rblk := ⟨fun lun => if lun < 4 then 0 else 0xfff,fun _ => .normalPage⟩

theorem lowLunsGood_enough : RaifCfg.Enough ⟨1,192⟩ lowLunsGood := by
  unfold RaifCfg.Enough
  decide +kernel

/-- The comparison is the wrong way round: the last control page of the log die never has the type of
a log page, in any built table and any R-page. -/
theorem log_page_layout_never (hcfg : cfg.Valid) (henough : cfg.Enough r)
    (hsize : 1 ≤ ppaPerLogPage cpLogSize) (blk pg : Nat) (w : Ppa) :
    ∃ r' logDie, r.buildPageType cfg = some r' ∧
      (∀ die, die < cfgNandDieNum → (r'.pgtype die = .ftlLogPage ↔ die = logDie)) ∧
      ¬ LogPageLayout cpLogSize r' logDie blk pg w := by
  obtain ⟨r',hbuilt,hbbt,hcal⟩ := Rblk.buildPageType_calibrated hcfg henough
  have henough' : cfg.Enough r' := Rblk.enough_of_bbt henough hbbt
  obtain ⟨logDie,hlt,hlog⟩ := Rblk.pageTypeOf_log hcfg henough'
  refine ⟨r',logDie,hbuilt,?_,?_⟩
  · intro die hdie
    rw [hcal die hdie]
    exact hlog die hdie
  · intro h
    let a : NandAddr := ⟨blk,pg,dieToLun logDie,dieToCh logDie,3,3⟩
    have hmem : a ∈ rpage blk pg := by
      rw [cfgNandDieNum_eq] at hlt
      refine mem_rpage.mpr ⟨rfl,rfl,?_,?_,(by decide : 3 < 4),(by decide : 3 < 4)⟩
      · show logDie / 12 % 2^8 < 16
        omega
      · show logDie % 12 % 2^8 < 12
        omega
    have hstart : logPageStartCpl cpLogSize ≤ 15 := by
      have hdie : ppaPerDie = 16 := rfl
      rw [logPageStartCpl]
      omega
    have hlast := (h.log a hmem).mpr ⟨lunchToDie_die hlt,hstart⟩
    have hcpl := (Rblk.lookupPageTypeFast_eq_log.mp hlast).2
    rw [ppaCpl_store] at hcpl
    have hcpl : 15 < logPageStartCpl cpLogSize := hcpl
    omega

theorem log_page_layout_never_low_luns : ∃ r' logDie, lowLunsGood.buildPageType ⟨1,192⟩ = some r' ∧
    (∀ die, die < cfgNandDieNum → (r'.pgtype die = .ftlLogPage ↔ die = logDie)) ∧
    ¬ LogPageLayout 12 r' logDie 7 1 0 :=
  log_page_layout_never ⟨Or.inl rfl,by decide,by decide⟩ lowLunsGood_enough (by decide) 7 1 0

/-- One parity and one RPU: LUN 3, channel 10 is the log die. Its first seven control pages have the
type of a log page, the last nine are normal. -/
theorem log_page_layout_inverted : ∃ r', lowLunsGood.buildPageType ⟨1,192⟩ = some r' ∧
    r'.pgtype 46 = .ftlLogPage ∧ ¬ LogPageLayout 12 r' 46 7 1 0 ∧
    ((List.range 16).map fun cpl =>
      r'.lookupPageTypeFast 12 (NandAddr.store ⟨7,1,3,10,cpl / 4,cpl % 4⟩ 0)) =
      List.replicate 7 .ftlLogPage ++ List.replicate 9 .normalPage := by
  have hrun : (lowLunsGood.buildPageType ⟨1,192⟩).map (fun r => (r.pgtype 46,
      (List.range 16).map fun cpl =>
        r.lookupPageTypeFast 12 (NandAddr.store ⟨7,1,3,10,cpl / 4,cpl % 4⟩ 0))) =
      some (.ftlLogPage,List.replicate 7 .ftlLogPage ++ List.replicate 9 .normalPage) := by
    decide +kernel
  obtain ⟨r',hbuilt,hval⟩ := Option.map_eq_some_iff.mp hrun
  obtain ⟨htype,hlookup⟩ := Prod.mk.inj hval
  refine ⟨r',hbuilt,htype,?_,hlookup⟩
  intro h
  have hfirst : r'.lookupPageTypeFast 12 (NandAddr.store ⟨7,1,3,10,0,0⟩ 0) = .ftlLogPage := by
    have hzero := congrArg (fun l : List PgType => l[0]?) hlookup
    exact Option.some.inj hzero
  have hcpl := ((h.log ⟨7,1,3,10,0,0⟩ (mem_rpage.mpr (by decide))).mp hfirst).2
  exact absurd hcpl (by decide)

end Layout

end Sdssd.Fw
