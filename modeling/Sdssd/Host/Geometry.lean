import Sdssd.Framework.BitField

/-!
# Flash geometry and physical addresses

Constants of the configured flash type (`cfg_2TB_MCL95B.h`, `wcb-mngr.h`, `sys-meta.h`) and the
32-bit `geo_ppa` word, whose bits are read either as a NAND address or as a write-cache address.
-/

namespace Sdssd.Host

open Framework

def chBits : Nat := 4
def epBits : Nat := 2
def plBits : Nat := 1
def lnBits : Nat := 3
def pgBits : Nat := 9

def cfgNandEpNum : Nat := 2^epBits
def cfgNandChannelNum : Nat := 16
def cfgNandLunNum : Nat := 8
def cfgNandBlockNum : Nat := 128
def cfgNandPlaneNum : Nat := 2
def cfgNandPageSize : Nat := 16384
def cfgNandEpSize : Nat := 4096
def nandMetaSize : Nat := 16
def expPpaSize : Nat := 4096
def secPerPpa : Nat := 8

def cfgDriveEpNum : Nat := cfgNandPageSize / cfgNandEpSize
def cfgDriveLineNum : Nat := cfgNandPlaneNum * cfgDriveEpNum

def writeCbUnits : Nat := 2
def readCbUnits : Nat := 0
def totalCbUnits : Nat := writeCbUnits + readCbUnits
/-- Number of LUN entities in the write cache. -/
def cbEntitysCnt : Nat := totalCbUnits * cfgNandLunNum
/-- Number of 4K slots of one LUN entity. -/
def raidLunSecNum : Nat := cfgNandChannelNum * cfgNandEpNum * cfgNandPlaneNum
def maxUsedWcbEntitys : Nat := 3

def capacity : Nat := 2^41
def userCapacity : Nat := capacity * 8 / 11
@[irreducible] def maxUserLba : Nat := userCapacity / cfgNandEpSize - 1

@[simp] theorem cfgNandBlockNum_eq : cfgNandBlockNum = 128 := rfl
@[simp] theorem cfgNandLunNum_eq : cfgNandLunNum = 8 := rfl
@[simp] theorem cfgNandChannelNum_eq : cfgNandChannelNum = 16 := rfl
@[simp] theorem cfgDriveLineNum_eq : cfgDriveLineNum = 8 := rfl
@[simp] theorem cbEntitysCnt_eq : cbEntitysCnt = 16 := rfl
@[simp] theorem raidLunSecNum_eq : raidLunSecNum = 128 := rfl
@[simp] theorem maxUsedWcbEntitys_eq : maxUsedWcbEntitys = 3 := rfl

theorem maxUserLba_eq : maxUserLba = 390451571 := by
  unfold maxUserLba
  norm_num [userCapacity,capacity,cfgNandEpSize]

/-- Decrement of a `u32`. -/
def u32Dec (n : Nat) : Nat := if n = 0 then 2^32 - 1 else n - 1

/-- `struct physical_address`: one 32-bit word with two bit-field views. -/
abbrev GeoPpa := BitVec 32

/-- `INVALID_PAGE`. -/
def invalidPage : GeoPpa := 0xffffffff

namespace Nand

def ch : BitField := ⟨0,4⟩
def sec : BitField := ⟨4,2⟩
def pl : BitField := ⟨6,1⟩
def lun : BitField := ⟨7,3⟩
def pg : BitField := ⟨10,9⟩
def blk : BitField := ⟨19,12⟩

end Nand

namespace Cache

def inCache : BitField := ⟨31,1⟩

end Cache

/-- Pages of one raid block: all channels, sectors, planes, LUNs and pages. -/
def blockPages : Nat := 2^(chBits+epBits+plBits+lnBits+pgBits)

@[simp] theorem blockPages_eq : blockPages = 524288 := rfl

section Fields

variable (w : GeoPpa) (v : Nat)

theorem nand_blk_eq : Nand.blk.get w = w.toNat / 524288 % 4096 := rfl

theorem nand_pg_eq : Nand.pg.get w = w.toNat / 1024 % 512 := rfl

theorem nand_lun_eq : Nand.lun.get w = w.toNat / 128 % 8 := rfl

/-- Setting the `in_cache` bit of a word whose top bit is clear adds `2^31`. -/
theorem toNat_inCache (h : w.toNat < 2^31) :
    (Cache.inCache.set w 1).toNat = w.toNat + 2^31 := by
  rw [BitField.toNat_set (by decide : Cache.inCache.Fits 32)]
  have hdiv : w.toNat / 2^(31+1) = 0 := Nat.div_eq_of_lt w.isLt
  simp only [Cache.inCache,hdiv,Nat.mod_eq_of_lt h]
  norm_num

@[simp] theorem blk_inCache : Nand.blk.get (Cache.inCache.set w v) = Nand.blk.get w :=
  BitField.get_set_of_apart (by decide : Cache.inCache.Fits 32) (Or.inr (by decide)) w v

end Fields

/-- Clearing channel, sector and plane gives the first address of the LUN stripe. -/
theorem toNat_stripe (w : GeoPpa) :
    (Nand.pl.set (Nand.sec.set (Nand.ch.set w 0) 0) 0).toNat = w.toNat / 128 * 128 := by
  have h1 := BitField.toNat_set (by decide : Nand.ch.Fits 32) w 0
  have h2 := BitField.toNat_set (by decide : Nand.sec.Fits 32) (Nand.ch.set w 0) 0
  have h3 := BitField.toNat_set (by decide : Nand.pl.Fits 32) (Nand.sec.set (Nand.ch.set w 0) 0) 0
  generalize Nand.ch.set w 0 = w1 at *
  generalize Nand.sec.set w1 0 = w2 at *
  simp only [Nand.ch,Nand.sec,Nand.pl,Nat.reducePow,Nat.reduceAdd,Nat.zero_mod,Nat.zero_mul,
    Nat.add_zero] at *
  omega

/-- The first address of a block. -/
theorem toNat_blk_zero {blk : Nat} (h : blk < 4096) :
    (Nand.blk.set 0#32 blk).toNat = blk * 524288 := by
  have h1 := BitField.toNat_set (by decide : Nand.blk.Fits 32) 0#32 blk
  simp only [Nand.blk,BitVec.toNat_ofNat,Nat.reducePow,Nat.reduceAdd,Nat.zero_mod,Nat.zero_div,
    Nat.zero_mul,Nat.zero_add,Nat.add_zero,Nat.mod_eq_of_lt h] at h1 ⊢
  exact h1

/-- The word with all six NAND fields overwritten, lowest field first. -/
def setNandFields (w : GeoPpa) (ch sec pl lun pg blk : Nat) : GeoPpa :=
  Nand.blk.set (Nand.pg.set (Nand.lun.set (Nand.pl.set (Nand.sec.set (Nand.ch.set w ch) sec) pl)
    lun) pg) blk

/-- Writing the field on top of the digits written so far extends them by one digit. -/
private theorem set_digit {f : BitField} (hf : f.Fits 31) (w : GeoPpa) (low v : Nat)
    (hlow : w.toNat % 2^f.offset = low) (hv : v < 2^f.width) :
    (f.set w v).toNat % 2^(f.offset+f.width) = low + v * 2^f.offset ∧
      (f.set w v).toNat / 2^31 = w.toNat / 2^31 := by
  have hf' : f.Fits 32 := Nat.le_trans hf (by omega)
  have hdigit : low + v * 2^f.offset < 2^(f.offset+f.width) := by
    have hl : low < 2^f.offset := hlow ▸ Nat.mod_lt _ (Nat.two_pow_pos _)
    calc low + v * 2^f.offset < (v + 1) * 2^f.offset := by rw [Nat.succ_mul]; omega
      _ ≤ 2^f.width * 2^f.offset := Nat.mul_le_mul_right _ hv
      _ = 2^(f.offset+f.width) := by rw [Nat.pow_add]; ring
  rw [BitField.toNat_set hf',hlow,Nat.mod_eq_of_lt hv]
  constructor
  · rw [Nat.add_mul_mod_self_right,Nat.mod_eq_of_lt hdigit]
  · have hpow : 2^31 = 2^(f.offset+f.width) * 2^(31-(f.offset+f.width)) := by
      rw [← Nat.pow_add,Nat.add_sub_cancel' hf]
    rw [hpow,← Nat.div_div_eq_div_mul,← Nat.div_div_eq_div_mul,
      Nat.add_mul_div_right _ _ (Nat.two_pow_pos _),Nat.div_eq_of_lt hdigit,Nat.zero_add]

/-- The NAND fields are consecutive digits: an address is its fields in mixed radix. -/
theorem toNat_setNandFields (w : GeoPpa) (ch sec pl lun pg blk : Nat) (hch : ch < 16)
    (hsec : sec < 4) (hpl : pl < 2) (hlun : lun < 8) (hpg : pg < 512) (hblk : blk < 4096) :
    (setNandFields w ch sec pl lun pg blk).toNat =
      ch + 16 * sec + 64 * pl + 128 * lun + 1024 * pg + 524288 * blk +
        2147483648 * (w.toNat / 2147483648) := by
  have h1 := set_digit (by decide : Nand.ch.Fits 31) w 0 ch (Nat.mod_one _) hch
  have h2 := set_digit (by decide : Nand.sec.Fits 31) _ _ sec h1.1 hsec
  have h3 := set_digit (by decide : Nand.pl.Fits 31) _ _ pl h2.1 hpl
  have h4 := set_digit (by decide : Nand.lun.Fits 31) _ _ lun h3.1 hlun
  have h5 := set_digit (by decide : Nand.pg.Fits 31) _ _ pg h4.1 hpg
  have h6 := set_digit (by decide : Nand.blk.Fits 31) _ _ blk h5.1 hblk
  have hlow : (setNandFields w ch sec pl lun pg blk).toNat % 2147483648 =
      0 + ch * 1 + sec * 16 + pl * 64 + lun * 128 + pg * 1024 + blk * 524288 := h6.1
  have hhigh : (setNandFields w ch sec pl lun pg blk).toNat / 2147483648 =
      w.toNat / 2147483648 := by
    exact h6.2.trans (h5.2.trans (h4.2.trans (h3.2.trans (h2.2.trans h1.2))))
  omega

end Sdssd.Host
