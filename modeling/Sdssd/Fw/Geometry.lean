import Sdssd.Framework.BitField

/-!
# Flash geometry of the firmware

Field widths and counts of `config/cfg.h`, the 32-bit `ppa_t` word read as a NAND address, and the
numbering of dies by LUN and channel.
-/

namespace Sdssd.Fw

open Framework

def chBits : Nat := 4
def cpBits : Nat := 2
def plBits : Nat := 2
def lunBits : Nat := 2
def pgBits : Nat := 8
def blkBits : Nat := 10

def cfgNandChNum : Nat := 12
def cfgNandCpNum : Nat := 4
def cfgNandPlNum : Nat := 4
def cfgNandLunNum : Nat := 16
def cfgNandPgNum : Nat := 2304
def cfgNandBlkNum : Nat := 504
def cfgNandDieNum : Nat := cfgNandChNum * cfgNandLunNum

@[simp] theorem cfgNandChNum_eq : cfgNandChNum = 12 := rfl
@[simp] theorem cfgNandLunNum_eq : cfgNandLunNum = 16 := rfl
@[simp] theorem cfgNandBlkNum_eq : cfgNandBlkNum = 504 := rfl
@[simp] theorem cfgNandDieNum_eq : cfgNandDieNum = 192 := rfl

/-- `ppa_t`, one `unsigned int`. -/
abbrev Ppa := BitVec 32

namespace Nand

-- The compiler lays bit-fields out from bit 0 upwards in the order of declaration.
def cp : BitField := ⟨0,cpBits⟩
def pl : BitField := ⟨cpBits,plBits⟩
def ch : BitField := ⟨cpBits+plBits,chBits⟩
def lun : BitField := ⟨cpBits+plBits+chBits,lunBits⟩
def pg : BitField := ⟨cpBits+plBits+chBits+lunBits,pgBits⟩
def blk : BitField := ⟨cpBits+plBits+chBits+lunBits+pgBits,blkBits⟩

end Nand

/-- The coordinates of one 4K page. -/
@[ext] structure NandAddr where
  blk : Nat
  pg : Nat
  lun : Nat
  ch : Nat
  pl : Nat
  cp : Nat
  deriving DecidableEq, Repr

namespace NandAddr

/-- Every coordinate is below its `CFG_NAND_*_NUM`. -/
def Configured (a : NandAddr) : Prop :=
  a.blk < cfgNandBlkNum ∧ a.pg < cfgNandPgNum ∧ a.lun < cfgNandLunNum ∧ a.ch < cfgNandChNum ∧
    a.pl < cfgNandPlNum ∧ a.cp < cfgNandCpNum

instance (a : NandAddr) : Decidable a.Configured := inferInstanceAs (Decidable (_ ∧ _))

/-- The fields of `nand` with the values stored into them. -/
def fields (a : NandAddr) : List (BitField × Nat) :=
  [(Nand.blk,a.blk),(Nand.pg,a.pg),(Nand.lun,a.lun),(Nand.ch,a.ch),(Nand.pl,a.pl),(Nand.cp,a.cp)]

/-- Store the coordinates into a word that holds anything before. -/
def store (a : NandAddr) (w : Ppa) : Ppa := BitField.setAll w a.fields

/-- Read all fields of `nand`. -/
def load (w : Ppa) : NandAddr :=
  ⟨Nand.blk.get w,Nand.pg.get w,Nand.lun.get w,Nand.ch.get w,Nand.pl.get w,Nand.cp.get w⟩

/-- The coordinates cut to the widths of their fields. -/
def cut (a : NandAddr) : NandAddr :=
  ⟨a.blk % 2^blkBits,a.pg % 2^pgBits,a.lun % 2^lunBits,a.ch % 2^chBits,a.pl % 2^plBits,a.cp % 2^cpBits⟩

theorem fields_fit (a : NandAddr) : ∀ p ∈ a.fields, p.1.Fits 32 := by
  simp only [fields,List.forall_mem_cons]
  decide

theorem fields_apart (a : NandAddr) : a.fields.Pairwise fun p q => p.1.Apart q.1 := by
  simp only [fields,List.pairwise_cons,List.forall_mem_cons]
  decide

/-- A store followed by a load cuts every coordinate to the width of its field. -/
theorem load_store (a : NandAddr) (w : Ppa) : load (a.store w) = a.cut := by
  have hget (f : BitField) (v : Nat) (hmem : (f,v) ∈ a.fields) : f.get (a.store w) = v % 2^f.width :=
    BitField.get_setAll a.fields_fit a.fields_apart hmem w
  apply NandAddr.ext
  case blk => exact hget Nand.blk a.blk (by simp [fields])
  case pg => exact hget Nand.pg a.pg (by simp [fields])
  case lun => exact hget Nand.lun a.lun (by simp [fields])
  case ch => exact hget Nand.ch a.ch (by simp [fields])
  case pl => exact hget Nand.pl a.pl (by simp [fields])
  case cp => exact hget Nand.cp a.cp (by simp [fields])

/-- The two coordinates whose fields are narrower than the configuration fit all the same. -/
def LowRange (a : NandAddr) : Prop := a.lun < 2^lunBits ∧ a.pg < 2^pgBits

instance (a : NandAddr) : Decidable a.LowRange := inferInstanceAs (Decidable (_ ∧ _))

theorem cut_eq {a : NandAddr} (hcfg : a.Configured) (hlow : a.LowRange) : a.cut = a := by
  have hblk : a.blk < 2^blkBits := hcfg.1.trans (by decide)
  have hch : a.ch < 2^chBits := hcfg.2.2.2.1.trans (by decide)
  apply NandAddr.ext
  case blk => exact Nat.mod_eq_of_lt hblk
  case pg => exact Nat.mod_eq_of_lt hlow.2
  case lun => exact Nat.mod_eq_of_lt hlow.1
  case ch => exact Nat.mod_eq_of_lt hch
  case pl => exact Nat.mod_eq_of_lt hcfg.2.2.2.2.1
  case cp => exact Nat.mod_eq_of_lt hcfg.2.2.2.2.2

end NandAddr

/-- `LUNCH_TO_DIE`, a `u8`. -/
def lunchToDie (lun ch : Nat) : Nat := (ch + lun * cfgNandChNum) % 2^8

/-- `PPA_TO_DIE`. -/
def ppaToDie (w : Ppa) : Nat := lunchToDie (Nand.lun.get w) (Nand.ch.get w)

/-- `DIE_TO_CH`. -/
def dieToCh (die : Nat) : Nat := die % cfgNandChNum % 2^8

/-- `DIE_TO_LUN`. -/
def dieToLun (die : Nat) : Nat := die / cfgNandChNum % 2^8

/-- Channel and LUN of a die give its number back. -/
theorem lunchToDie_die {die : Nat} (h : die < cfgNandDieNum) :
    lunchToDie (dieToLun die) (dieToCh die) = die := by
  simp only [cfgNandDieNum_eq] at h
  simp only [lunchToDie,dieToLun,dieToCh,cfgNandChNum_eq]
  omega

end Sdssd.Fw
