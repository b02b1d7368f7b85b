import Sdssd.Framework.Counting
import Sdssd.Framework.Overwrite
import Sdssd.Host.SysMeta
import Mathlib.Algebra.BigOperators.Group.Finset.Basic

/-!
# The L2P table and the valid-page counters

`l2ptbl` maps every user LBA to a 32-bit address word, and `vpctbl` counts for every raid block
the LBAs mapped into it. `set_l2ptbl_incache` keeps the two in step.
-/

namespace Sdssd.Host

open Framework

/-- `exdev->l2ptbl` and the global `vpctbl`. -/
structure L2pTbl where
  l2ptbl : Nat → GeoPpa
  vpctbl : Nat → Nat

/-- The 32-bit word that `memset` with the byte `c` leaves behind. -/
def memsetWord (c : Nat) : GeoPpa := BitVec.ofNat 32 (c % 256 * 0x01010101)

/-- `l2ptbl_init` and `vpctbl_init`. -/
def l2pTblInit : L2pTbl := ⟨fun _ => memsetWord invalidPage.toNat,fun _ => 0⟩

/-- `USR_FTLTBL_SEC_NUM`. -/
def usrFtltblSecNum : Nat := (maxUserLba * 4 + (expPpaSize - 1)) / expPpaSize

/-- `vpc_dec`: the counter is a `u32`. -/
def vpcDec (m : L2pTbl) (ppa : GeoPpa) : Except Fault L2pTbl :=
  if cfgNandBlockNum ≤ Nand.blk.get ppa then .error .bugOn
  else .ok { m with
    vpctbl := Function.update m.vpctbl (Nand.blk.get ppa)
      (u32Dec (m.vpctbl (Nand.blk.get ppa))) }

/-- `vpc_inc`. -/
def vpcInc (m : L2pTbl) (ppa : GeoPpa) : Except Fault L2pTbl :=
  if cfgNandBlockNum ≤ Nand.blk.get ppa then .error .bugOn
  else .ok { m with
    vpctbl := Function.update m.vpctbl (Nand.blk.get ppa)
      ((m.vpctbl (Nand.blk.get ppa) + 1) % 2^32) }

/-- `set_l2ptbl_incache`. -/
def setL2ptblIncache (m : L2pTbl) (lba : Nat) (ppa : GeoPpa) : Except Fault L2pTbl :=
  let update := Cache.inCache.set ppa 1
  if lba ≤ maxUserLba then
    let prev := m.l2ptbl lba
    (if Nand.blk.get prev < cfgNandBlockNum then vpcDec m prev else .ok m).bind fun m =>
      vpcInc { m with l2ptbl := Function.update m.l2ptbl lba update } update
  else
    .ok m

/-- A sequence of `set_l2ptbl_incache` calls. -/
def setL2ptblAll (m : L2pTbl) (calls : List (Nat × GeoPpa)) : Except Fault L2pTbl :=
  calls.foldlM (fun m c => setL2ptblIncache m c.1 c.2) m

/-- The user LBAs. -/
def userLbas : Finset Nat := Finset.range (maxUserLba+1)

/-- Every counter is the number of user LBAs mapped into its block, and a mapped entry lies in a
block of the table. -/
structure L2pTbl.Exact (m : L2pTbl) : Prop where
  vpc : ∀ b, b < cfgNandBlockNum →
    m.vpctbl b = countWhere userLbas m.l2ptbl (fun w => Nand.blk.get w = b)
  mapped : ∀ lba ∈ userLbas, m.l2ptbl lba = invalidPage ∨ Nand.blk.get (m.l2ptbl lba) < cfgNandBlockNum

@[simp] theorem memsetWord_invalidPage : memsetWord invalidPage.toNat = invalidPage := by decide

@[simp] theorem blk_invalidPage : Nand.blk.get invalidPage = 4095 := by decide

/-- The allocated table has an entry for every user LBA. -/
theorem userLbas_lt_table : ∀ lba ∈ userLbas, lba * 4 + 4 ≤ usrFtltblSecNum * expPpaSize := by
  intro lba hlba
  have hl : lba < maxUserLba + 1 := Finset.mem_range.mp hlba
  rw [maxUserLba_eq] at hl
  simp only [usrFtltblSecNum,maxUserLba_eq,expPpaSize]
  omega

theorem exact_init : L2pTbl.Exact l2pTblInit := by
  constructor
  · intro b hb
    simp only [cfgNandBlockNum_eq] at hb
    change 0 = _
    symm
    rw [countWhere,Finset.card_eq_zero,Finset.filter_eq_empty_iff]
    intro lba _ he
    simp only [l2pTblInit,memsetWord_invalidPage,blk_invalidPage] at he
    omega
  · intro lba _
    exact Or.inl memsetWord_invalidPage

private theorem countWhere_userLbas_lt (f : Nat → GeoPpa) (b : Nat) :
    countWhere userLbas f (fun w => Nand.blk.get w = b) < 2^32 := by
  have h := countWhere_le userLbas f (fun w => Nand.blk.get w = b)
  have hcard : userLbas.card = 390451572 := by rw [userLbas,Finset.card_range,maxUserLba_eq]
  omega

/-- A mapped LBA keeps the counter of its block above zero. -/
theorem L2pTbl.Exact.vpc_pos {m : L2pTbl} (h : m.Exact) {lba : Nat} (hlba : lba ∈ userLbas)
    (hb : Nand.blk.get (m.l2ptbl lba) < cfgNandBlockNum) :
    0 < m.vpctbl (Nand.blk.get (m.l2ptbl lba)) := by
  rw [h.vpc _ hb]
  exact countWhere_pos hlba rfl

/-- Where the remapped LBA leaves block `b`, its counter has been decremented. -/
private theorem vpcDec_spec {m : L2pTbl} (h : m.Exact) {lba : Nat} (hlba : lba ∈ userLbas) :
    ∃ m', (if Nand.blk.get (m.l2ptbl lba) < cfgNandBlockNum then vpcDec m (m.l2ptbl lba)
        else .ok m) = .ok m' ∧ m'.l2ptbl = m.l2ptbl ∧
      ∀ b, b < cfgNandBlockNum → m'.vpctbl b + (if Nand.blk.get (m.l2ptbl lba) = b then 1 else 0) =
        m.vpctbl b := by
  by_cases hb : Nand.blk.get (m.l2ptbl lba) < cfgNandBlockNum
  · have hpos := h.vpc_pos hlba hb
    rw [if_pos hb,vpcDec,if_neg (Nat.not_le.mpr hb)]
    refine ⟨_,rfl,rfl,?_⟩
    intro b _
    by_cases he : Nand.blk.get (m.l2ptbl lba) = b
    · subst he
      simp only [Function.update_self,if_true,u32Dec,if_neg (Nat.ne_of_gt hpos)]
      omega
    · simp [Function.update_of_ne (Ne.symm he),he]
  · rw [if_neg hb]
    refine ⟨m,rfl,rfl,?_⟩
    intro b hb'
    have he : Nand.blk.get (m.l2ptbl lba) ≠ b := fun he => hb (he ▸ hb')
    simp [he]

/-- One remapping keeps the counters exact and trips no `BUG_ON`. -/
theorem setL2ptblIncache_exact {m : L2pTbl} (h : m.Exact) {lba : Nat} {ppa : GeoPpa}
    (hlba : lba ≤ maxUserLba) (hppa : Nand.blk.get ppa < cfgNandBlockNum) :
    ∃ m', setL2ptblIncache m lba ppa = .ok m' ∧ m'.Exact ∧
      m'.l2ptbl = Function.update m.l2ptbl lba (Cache.inCache.set ppa 1) := by
  have hmem : lba ∈ userLbas := Finset.mem_range.mpr (by omega)
  obtain ⟨m₁,hdec,hl2p,hvpc⟩ := vpcDec_spec h hmem
  have hblk : Nand.blk.get (Cache.inCache.set ppa 1) < cfgNandBlockNum := by
    rw [blk_inCache]; exact hppa
  have hcount (b : Nat) := countWhere_update (f := m.l2ptbl) (p := fun w => Nand.blk.get w = b)
    (v := Cache.inCache.set ppa 1) hmem
  simp only [setL2ptblIncache,if_pos hlba,hdec,vpcInc,if_neg (Nat.not_le.mpr hblk),Except.bind]
  refine ⟨_,rfl,⟨?_,?_⟩,by rw [hl2p]⟩
  · intro b hb
    have hc := hcount b
    have hd := hvpc b hb
    have hold := h.vpc b hb
    have hlt := countWhere_userLbas_lt (Function.update m.l2ptbl lba (Cache.inCache.set ppa 1)) b
    simp only [hl2p]
    by_cases he : Nand.blk.get (Cache.inCache.set ppa 1) = b
    · subst he
      simp only [Function.update_self,if_true] at hc ⊢
      omega
    · simp only [Function.update_of_ne (Ne.symm he),he,if_false] at hc ⊢
      omega
  · intro l hl
    simp only [hl2p]
    by_cases he : l = lba
    · subst he
      simp only [Function.update_self]
      exact Or.inr hblk
    · rw [Function.update_of_ne he]
      exact h.mapped l hl

theorem setL2ptblAll_exact {m : L2pTbl} (h : m.Exact) (calls : List (Nat × GeoPpa))
    (hc : ∀ c ∈ calls, c.1 ≤ maxUserLba ∧ Nand.blk.get c.2 < cfgNandBlockNum) :
    ∃ m', setL2ptblAll m calls = .ok m' ∧ m'.Exact := by
  induction calls generalizing m with
  | nil => exact ⟨m,rfl,h⟩
  | cons c calls ih =>
    obtain ⟨hlba,hppa⟩ := hc c (by simp)
    obtain ⟨m₁,hset,h₁,-⟩ := setL2ptblIncache_exact h hlba hppa
    obtain ⟨m₂,hall,h₂⟩ := ih h₁ (fun d hd => hc d (by simp [hd]))
    refine ⟨m₂,?_,h₂⟩
    simp only [setL2ptblAll,List.foldlM_cons,hset]
    exact hall

private theorem vpcInc_l2ptbl {m m' : L2pTbl} {ppa : GeoPpa} (h : vpcInc m ppa = .ok m') :
    m'.l2ptbl = m.l2ptbl := by
  unfold vpcInc at h
  split at h
  · cases h
  · rw [← Except.ok.inj h]

private theorem vpcDec_l2ptbl {m m' : L2pTbl} {ppa : GeoPpa} (h : vpcDec m ppa = .ok m') :
    m'.l2ptbl = m.l2ptbl := by
  unfold vpcDec at h
  split at h
  · cases h
  · rw [← Except.ok.inj h]

theorem setL2ptblIncache_l2ptbl {m m' : L2pTbl} {lba : Nat} {ppa : GeoPpa} (hlba : lba ≤ maxUserLba)
    (h : setL2ptblIncache m lba ppa = .ok m') :
    m'.l2ptbl = Function.update m.l2ptbl lba (Cache.inCache.set ppa 1) := by
  simp only [setL2ptblIncache,if_pos hlba] at h
  cases hdec : (if Nand.blk.get (m.l2ptbl lba) < cfgNandBlockNum then vpcDec m (m.l2ptbl lba)
      else .ok m) with
  | error x => simp only [hdec,Except.bind,reduceCtorEq] at h
  | ok m₁ =>
    simp only [hdec,Except.bind] at h
    have hm₁ : m₁.l2ptbl = m.l2ptbl := by
      split at hdec
      · exact vpcDec_l2ptbl hdec
      · rw [← Except.ok.inj hdec]
    rw [vpcInc_l2ptbl h,hm₁]

/-- The table after a sequence of remappings of user LBAs. -/
theorem setL2ptblAll_l2ptbl {m m' : L2pTbl} {calls : List (Nat × GeoPpa)}
    (hlba : ∀ c ∈ calls, c.1 ≤ maxUserLba) (h : setL2ptblAll m calls = .ok m') :
    m'.l2ptbl = overwrite m.l2ptbl (calls.map fun c => (c.1,Cache.inCache.set c.2 1)) := by
  induction calls generalizing m with
  | nil =>
    obtain rfl := Except.ok.inj h
    rfl
  | cons c calls ih =>
    simp only [setL2ptblAll,List.foldlM_cons] at h
    cases h₁ : setL2ptblIncache m c.1 c.2 with
    | error x => simp [h₁,bind,Except.bind] at h
    | ok m₁ =>
      rw [h₁] at h
      rw [List.map_cons,overwrite_cons,← setL2ptblIncache_l2ptbl (hlba c List.mem_cons_self) h₁]
      exact ih (fun d hd => hlba d (List.mem_cons_of_mem _ hd)) h

/-- With exact counters their sum is the number of mapped LBAs. -/
theorem L2pTbl.Exact.sum_vpctbl {m : L2pTbl} (h : m.Exact) :
    ∑ b ∈ Finset.range cfgNandBlockNum, m.vpctbl b =
      countWhere userLbas m.l2ptbl (fun w => w ≠ invalidPage) := by
  have hsum : ∑ b ∈ Finset.range cfgNandBlockNum, m.vpctbl b = ∑ b ∈ Finset.range cfgNandBlockNum,
      ((userLbas.filter fun lba => m.l2ptbl lba ≠ invalidPage).filter
        fun lba => Nand.blk.get (m.l2ptbl lba) = b).card := by
    apply Finset.sum_congr rfl
    intro b hb
    have hb' : b < cfgNandBlockNum := Finset.mem_range.mp hb
    rw [h.vpc b hb',countWhere,Finset.filter_filter]
    refine congrArg Finset.card (Finset.filter_congr ?_)
    intro lba _
    constructor
    · intro he
      refine ⟨?_,he⟩
      intro hinv
      rw [hinv,blk_invalidPage] at he
      simp only [cfgNandBlockNum_eq] at hb'
      omega
    · exact fun he => he.2
  rw [hsum,countWhere]
  symm
  apply Finset.card_eq_sum_card_fiberwise
  intro lba hlba
  simp only [Finset.coe_filter,Set.mem_ofPred_eq] at hlba
  rcases h.mapped lba hlba.1 with hinv | hlt
  · exact absurd hinv hlba.2
  · simpa using hlt

/-- After any sequence of remappings of user LBAs into blocks of the table, no `BUG_ON` has fired,
every counter is the number of LBAs mapped into its block, the counters sum to the number of
mapped LBAs, and the next remapping does not decrement a zero counter. -/
theorem vpctbl_exact (calls : List (Nat × GeoPpa))
    (hc : ∀ c ∈ calls, c.1 ≤ maxUserLba ∧ Nand.blk.get c.2 < cfgNandBlockNum) :
    ∃ m, setL2ptblAll l2pTblInit calls = .ok m ∧
      (∀ b, b < cfgNandBlockNum →
        m.vpctbl b = (userLbas.filter fun lba => Nand.blk.get (m.l2ptbl lba) = b).card) ∧
      ∑ b ∈ Finset.range cfgNandBlockNum, m.vpctbl b =
        (userLbas.filter fun lba => m.l2ptbl lba ≠ invalidPage).card ∧
      ∀ lba, lba ≤ maxUserLba → Nand.blk.get (m.l2ptbl lba) < cfgNandBlockNum →
        0 < m.vpctbl (Nand.blk.get (m.l2ptbl lba)) := by
  obtain ⟨m,hm,h⟩ := setL2ptblAll_exact exact_init calls hc
  refine ⟨m,hm,h.vpc,h.sum_vpctbl,?_⟩
  intro lba hlba hb
  exact h.vpc_pos (Finset.mem_range.mpr (by omega)) hb

/-- LBA 7 is mapped into block 5, moved inside it and then moved to block 6. -/
theorem vpctbl_exact_remapped : ∃ m, setL2ptblAll l2pTblInit
      [(7,0x00280000#32),(7,0x00280001#32),(7,0x00300000#32)] = .ok m ∧
    m.vpctbl 5 = (userLbas.filter fun lba => Nand.blk.get (m.l2ptbl lba) = 5).card ∧
    m.vpctbl 6 = (userLbas.filter fun lba => Nand.blk.get (m.l2ptbl lba) = 6).card := by
  obtain ⟨m,hm,hvpc,-,-⟩ := vpctbl_exact
    [(7,0x00280000#32),(7,0x00280001#32),(7,0x00300000#32)] (by
      rw [maxUserLba_eq]
      decide)
  exact ⟨m,hm,hvpc 5 (by decide),hvpc 6 (by decide)⟩

end Sdssd.Host
