import Sdssd.Host.BootBlock

/-!
# Recovery of a boot page from its mirrors

`bootblk_get_mirror` and its two callers over the bytes of the buffers. One buffer serves all eight
mirrors, and a read that fails can leave anything in it.
-/

namespace Sdssd.Host.BootBytes

open Framework

/-- `BOOTBLK_PORTION_SIZE`. -/
def bootblkPortionSize : Nat := expPpaSize * cfgDriveLineNum

/-- Bytes of a buffer for one boot page. -/
abbrev Portion := Fin bootblkPortionSize → BitVec 8

def Portion.byte (b : Portion) (i : Nat) : Nat :=
  if h : i < bootblkPortionSize then (b ⟨i,h⟩).toNat else 0

/-- The `u32` at index `i` of the buffer, lowest byte first. -/
def Portion.dword (b : Portion) (i : Nat) : Nat :=
  b.byte (4*i) + 256 * b.byte (4*i+1) + 65536 * b.byte (4*i+2) + 16777216 * b.byte (4*i+3)

/-- `magic_dw`, the first member of both structures. -/
def Portion.magicDw (b : Portion) : List Nat := (List.range 4).map b.dword

def bootblkPageMdwCheck (buf : Portion) : BootRead → Bool
  | .bbtpgRead => buf.magicDw == bootblkBbtMdw
  | .metapgRead => buf.magicDw == bootblkMetaMdw

/-- Block 0 as the read command sees it: the sectors, the status of a command with a given PPA list, and
what the command leaves in the buffer when it fails. -/
structure Flash where
  sector : GeoPpa → Nat → BitVec 8
  status : List GeoPpa → Int
  garbled : List GeoPpa → Portion → Portion

/-- The PPA list for one LUN, planes outermost. -/
def ppalist (ch pg lun : Nat) : List GeoPpa :=
  (List.range cfgNandPlaneNum).flatMap fun pl =>
    (List.range cfgNandEpNum).map fun sec => setNandFields 0#32 ch sec pl lun pg 0

/-- The bytes that a list of PPAs holds. -/
def Flash.content (fl : Flash) (ppas : List GeoPpa) : Portion :=
  fun i => fl.sector (ppas.getD (i / expPpaSize) 0#32) (i % expPpaSize)

/-- `nvme_submit_ppa_cmd_sync` with a read command. -/
def nvmeSubmitPpaCmdSync (fl : Flash) (ppas : List GeoPpa) (databuf : Portion) : Int × Portion :=
  if fl.status ppas = 0 then (0,fl.content ppas) else (fl.status ppas,fl.garbled ppas databuf)

/-- The loop over the LUNs still to be tried: the value of `lun` behind it, and the buffer. -/
def mirrorLoop (fl : Flash) (cmdtype : BootRead) (ch pg : Nat) : List Nat → Portion → Nat × Portion
  | [], databuf => (cfgNandLunNum,databuf)
  | lun :: luns, _ =>
    let zeroed : Portion := fun _ => 0#8
    let (status,databuf) := nvmeSubmitPpaCmdSync fl (ppalist ch pg lun) zeroed
    if status ≠ 0 then mirrorLoop fl cmdtype ch pg luns databuf
    else if bootblkPageMdwCheck databuf cmdtype then (lun,databuf)
    else mirrorLoop fl cmdtype ch pg luns databuf

/-- `-ENOMEM`. -/
def enomem : Int := -12

/-- Result and buffer; `cmdOk` tells whether the command could be allocated. -/
def bootblkGetMirror (cmdOk : Bool) (fl : Flash) (cmdtype : BootRead) (databuf : Portion)
    (bootppa : GeoPpa) : Int × Portion :=
  if cmdOk then
    let (lun,databuf) := mirrorLoop fl cmdtype (Nand.ch.get bootppa) (Nand.pg.get bootppa)
      (List.range cfgNandLunNum) databuf
    (if lun < cfgNandLunNum then 0 else -1,databuf)
  else (enomem,databuf)

/-- The live pages `boot_bbt_page_info` and `boot_meta_page_info`. -/
structure LivePages where
  bbtPage : Portion
  metaPage : Portion

/-- `bootblk_get_bbt_pos`: the word behind the magic words and `pdf`. -/
def bootblkGetBbtPos (live : LivePages) : GeoPpa := BitVec.ofNat 32 (live.metaPage.dword 5)

/-- `meta_ch_iter` starts at byte 32. -/
def binarySearchMetaPage (live : LivePages) : GeoPpa :=
  Nand.pg.set (Nand.ch.set 0#32 (live.metaPage.byte 32)) 1

/-- Which allocations of a recovery succeed. -/
structure Kzalloc where
  databuf : Bool
  cmd : Bool

/-- The live page is overwritten whether or not a mirror was found. -/
def bootblkRecoveryBbtPage (kz : Kzalloc) (fl : Flash) (live : LivePages) : Int × LivePages :=
  if kz.databuf then
    let (result,databuf) := bootblkGetMirror kz.cmd fl .bbtpgRead (fun _ => 0#8) (bootblkGetBbtPos live)
    (result,{ live with bbtPage := databuf })
  else (enomem,live)

def bootblkRecoveryMetaPage (kz : Kzalloc) (fl : Flash) (live : LivePages) : Int × LivePages :=
  if kz.databuf then
    let (result,databuf) :=
      bootblkGetMirror kz.cmd fl .metapgRead (fun _ => 0#8) (binarySearchMetaPage live)
    (result,{ live with metaPage := databuf })
  else (enomem,live)

/-- What the mirror on `lun` holds. -/
def Flash.mirror (fl : Flash) (bootppa : GeoPpa) (lun : Nat) : Portion :=
  fl.content (ppalist (Nand.ch.get bootppa) (Nand.pg.get bootppa) lun)

/-- The mirror reads without error and carries the magic words of the requested kind. -/
def Flash.ValidMirror (fl : Flash) (cmdtype : BootRead) (bootppa : GeoPpa) (lun : Nat) : Prop :=
  fl.status (ppalist (Nand.ch.get bootppa) (Nand.pg.get bootppa) lun) = 0 ∧
    bootblkPageMdwCheck (fl.mirror bootppa lun) cmdtype = true

instance (fl : Flash) (cmdtype : BootRead) (bootppa : GeoPpa) (lun : Nat) :
    Decidable (fl.ValidMirror cmdtype bootppa lun) := inferInstanceAs (Decidable (_ ∧ _))

/-- Result 0 exactly if some mirror is valid, and then the bytes are those of the lowest one. -/
structure Flash.Recovers (fl : Flash) (cmdtype : BootRead) (bootppa : GeoPpa) (result : Int)
    (page : Portion) : Prop where
  iff_valid : result = 0 ↔ ∃ lun, lun < cfgNandLunNum ∧ fl.ValidMirror cmdtype bootppa lun
  lowest : result = 0 → ∃ lun, lun < cfgNandLunNum ∧ fl.ValidMirror cmdtype bootppa lun ∧
    (∀ lun', lun' < lun → ¬fl.ValidMirror cmdtype bootppa lun') ∧ page = fl.mirror bootppa lun

section Loop

variable {fl : Flash} {cmdtype : BootRead} {bootppa : GeoPpa} {lun : Nat} {ppas : List GeoPpa}

/-- A read that succeeds fills the whole buffer. -/
theorem nvmeSubmitPpaCmdSync_ok (h : fl.status ppas = 0) (databuf : Portion) :
    nvmeSubmitPpaCmdSync fl ppas databuf = (0,fl.content ppas) := if_pos h

theorem nvmeSubmitPpaCmdSync_failed (h : fl.status ppas ≠ 0) (databuf : Portion) :
    nvmeSubmitPpaCmdSync fl ppas databuf = (fl.status ppas,fl.garbled ppas databuf) := if_neg h

/-- One turn of the loop: what the earlier mirrors left in the buffer does not matter. -/
theorem mirrorLoop_cons (luns : List Nat) (databuf : Portion) : ∃ databuf',
    mirrorLoop fl cmdtype (Nand.ch.get bootppa) (Nand.pg.get bootppa) (lun :: luns) databuf =
      if fl.ValidMirror cmdtype bootppa lun then (lun,fl.mirror bootppa lun)
      else mirrorLoop fl cmdtype (Nand.ch.get bootppa) (Nand.pg.get bootppa) luns databuf' := by
  by_cases hstatus : fl.status (ppalist (Nand.ch.get bootppa) (Nand.pg.get bootppa) lun) = 0
  · have hvalid : fl.ValidMirror cmdtype bootppa lun ↔
        bootblkPageMdwCheck (fl.mirror bootppa lun) cmdtype = true := and_iff_right hstatus
    refine ⟨fl.mirror bootppa lun,?_⟩
    rw [mirrorLoop,nvmeSubmitPpaCmdSync_ok hstatus,if_congr hvalid rfl rfl]
    rfl
  · have hvalid : ¬fl.ValidMirror cmdtype bootppa lun := fun h => hstatus h.1
    refine ⟨fl.garbled (ppalist (Nand.ch.get bootppa) (Nand.pg.get bootppa) lun) fun _ => 0#8,?_⟩
    rw [mirrorLoop,nvmeSubmitPpaCmdSync_failed hstatus,if_neg hvalid]
    exact if_pos hstatus

/-- The loop stops at the first valid mirror, with its bytes in the buffer. -/
theorem mirrorLoop_spec (luns : List Nat) (databuf : Portion) : ∃ databuf',
    mirrorLoop fl cmdtype (Nand.ch.get bootppa) (Nand.pg.get bootppa) luns databuf =
      match luns.find? fun lun => fl.ValidMirror cmdtype bootppa lun with
      | some lun => (lun,fl.mirror bootppa lun)
      | none => (cfgNandLunNum,databuf') := by
  induction luns generalizing databuf with
  | nil => exact ⟨databuf,rfl⟩
  | cons lun luns ih =>
    obtain ⟨databuf₁,hturn⟩ := mirrorLoop_cons luns databuf
    obtain ⟨databuf₂,hrest⟩ := ih databuf₁
    refine ⟨databuf₂,?_⟩
    rw [hturn,List.find?_cons]
    by_cases hvalid : fl.ValidMirror cmdtype bootppa lun
    · simp only [hvalid,if_true,decide_true]
    · simp only [hvalid,if_false,decide_false,hrest]

theorem bootblkGetMirror_found (databuf : Portion)
    (h : (List.range cfgNandLunNum).find? (fun l => fl.ValidMirror cmdtype bootppa l) = some lun) :
    bootblkGetMirror true fl cmdtype databuf bootppa = (0,fl.mirror bootppa lun) := by
  obtain ⟨_,hloop⟩ := mirrorLoop_spec (List.range cfgNandLunNum) databuf
  have hlun : lun < cfgNandLunNum := List.mem_range.mp (List.mem_of_find?_eq_some h)
  rw [h] at hloop
  simp only [bootblkGetMirror,if_true,hloop,hlun]

theorem bootblkGetMirror_none (databuf : Portion)
    (h : (List.range cfgNandLunNum).find? (fun l => fl.ValidMirror cmdtype bootppa l) = none) :
    (bootblkGetMirror true fl cmdtype databuf bootppa).1 = -1 := by
  obtain ⟨databuf',hloop⟩ := mirrorLoop_spec (List.range cfgNandLunNum) databuf
  rw [h] at hloop
  simp only [bootblkGetMirror,if_true,hloop,Nat.lt_irrefl,if_false]

theorem recovers_getMirror (databuf : Portion) : fl.Recovers cmdtype bootppa
    (bootblkGetMirror true fl cmdtype databuf bootppa).1
    (bootblkGetMirror true fl cmdtype databuf bootppa).2 := by
  cases hfind : (List.range cfgNandLunNum).find? (fun l => fl.ValidMirror cmdtype bootppa l) with
  | some lun =>
    obtain ⟨hvalid,hlun,hlower⟩ := List.find?_range_eq_some.mp hfind
    have hvalid := of_decide_eq_true hvalid
    have hlun := List.mem_range.mp hlun
    rw [bootblkGetMirror_found databuf hfind]
    refine ⟨iff_of_true rfl ⟨lun,hlun,hvalid⟩,fun _ => ⟨lun,hlun,hvalid,fun l hl h => ?_,rfl⟩⟩
    simpa [h] using hlower l hl
  | none =>
    have hnone := List.find?_eq_none.mp hfind
    rw [bootblkGetMirror_none databuf hfind]
    refine ⟨iff_of_false (by decide) ?_,fun h => by cases h⟩
    rintro ⟨lun,hlun,hvalid⟩
    exact hnone lun (List.mem_range.mpr hlun) (decide_eq_true hvalid)

end Loop

/-- `bootblk_get_mirror` and the two recoveries that install its buffer find a valid copy whenever there
is one, the lowest, and nothing of the mirrors tried before is left in it. -/
theorem mirror_recovery_finds_lowest (fl : Flash) (live : LivePages) :
    (∀ cmdtype databuf bootppa, fl.Recovers cmdtype bootppa
      (bootblkGetMirror true fl cmdtype databuf bootppa).1
      (bootblkGetMirror true fl cmdtype databuf bootppa).2) ∧
    fl.Recovers .bbtpgRead (bootblkGetBbtPos live) (bootblkRecoveryBbtPage ⟨true,true⟩ fl live).1
      (bootblkRecoveryBbtPage ⟨true,true⟩ fl live).2.bbtPage ∧
    fl.Recovers .metapgRead (binarySearchMetaPage live) (bootblkRecoveryMetaPage ⟨true,true⟩ fl live).1
      (bootblkRecoveryMetaPage ⟨true,true⟩ fl live).2.metaPage := by
  refine ⟨fun _ databuf _ => recovers_getMirror databuf,?_,?_⟩
  · exact recovers_getMirror fun _ => 0#8
  · exact recovers_getMirror fun _ => 0#8

section Refinement

def Portion.word (b : Portion) (i : Nat) : Nat := b.byte (2*i) + 256 * b.byte (2*i+1)

def powerDownCode : PowerDownFlag → Nat
  | .powerDownSafe => 0x8866
  | .powerDownUnsafe => 0x7755
  | .zeroed => 0

/-- The bytes are those of the page, field by field; `none` stands for bytes that are no boot page. -/
def Represents (b : Portion) : Option BootPage → Prop
  | some (.bbtpg p) => p.magicDw = b.magicDw ∧ b.magicDw = bootblkBbtMdw ∧
      ∀ blk lun, blk < cfgNandBlockNum → lun < cfgNandLunNum →
        p.bbt blk lun = b.word (8 + blk * cfgNandLunNum + lun)
  | some (.metapg p) => p.magicDw = b.magicDw ∧ b.magicDw = bootblkMetaMdw ∧
      powerDownCode p.pdf = b.dword 4 ∧ p.bbtPageAddress = BitVec.ofNat 32 (b.dword 5) ∧
      p.metaPageAddress = BitVec.ofNat 32 (b.dword 6) ∧
      p.bbtChIter = (List.range' 28 4).map b.byte ∧ p.metaChIter = (List.range' 32 4).map b.byte
  | none => b.magicDw ≠ bootblkBbtMdw ∧ b.magicDw ≠ bootblkMetaMdw

variable {fl : Flash} {k : BootDisk} {cmdtype : BootRead} {bootppa : GeoPpa}

/-- The magic words tell the two kinds of pages apart. -/
theorem Represents.filter {b : Portion} {page? : Option BootPage} (h : Represents b page?) :
    page?.filter (Host.bootblkPageMdwCheck cmdtype) =
      if bootblkPageMdwCheck b cmdtype then page? else none := by
  have hkinds : bootblkBbtMdw ≠ bootblkMetaMdw := by decide
  match page?, cmdtype with
  | none, _ => simp
  | some (.bbtpg p), .bbtpgRead =>
    simp [Option.filter,Host.bootblkPageMdwCheck,bootblkPageMdwCheck,h.1]
  | some (.bbtpg p), .metapgRead =>
    simp [Option.filter,Host.bootblkPageMdwCheck,bootblkPageMdwCheck,h.2.1,hkinds]
  | some (.metapg p), .bbtpgRead =>
    simp [Option.filter,Host.bootblkPageMdwCheck,bootblkPageMdwCheck,h.2.1,hkinds.symm]
  | some (.metapg p), .metapgRead =>
    simp [Option.filter,Host.bootblkPageMdwCheck,bootblkPageMdwCheck,h.1]

/-- A valid mirror is a boot page. -/
theorem Represents.exists_page {b : Portion} {page? : Option BootPage} (h : Represents b page?)
    (hcheck : bootblkPageMdwCheck b cmdtype = true) : ∃ page, page? = some page := by
  match page?, cmdtype with
  | some page, _ => exact ⟨page,rfl⟩
  | none, .bbtpgRead => exact absurd (eq_of_beq hcheck) h.1
  | none, .metapgRead => exact absurd (eq_of_beq hcheck) h.2

/-- Which reads of the mirrors succeed. -/
def Flash.readable (fl : Flash) (bootppa : GeoPpa) (lun : Nat) : Bool :=
  fl.status (ppalist (Nand.ch.get bootppa) (Nand.pg.get bootppa) lun) = 0

/-- The disk holds the boot pages whose bytes the readable mirrors hold. -/
def Flash.Holds (fl : Flash) (bootppa : GeoPpa) (k : BootDisk) : Prop :=
  ∀ lun, fl.readable bootppa lun = true →
    Represents (fl.mirror bootppa lun) (k.page (Nand.ch.get bootppa,Nand.pg.get bootppa,lun))

theorem Flash.Holds.search (hk : fl.Holds bootppa k) :
    Host.bootblkGetMirror k cmdtype (fl.readable bootppa) bootppa =
      (List.range cfgNandLunNum).findSome? fun lun => if fl.ValidMirror cmdtype bootppa lun then
        k.page (Nand.ch.get bootppa,Nand.pg.get bootppa,lun) else none := by
  rw [Host.bootblkGetMirror]
  congr 1
  funext lun
  by_cases hread : fl.readable bootppa lun = true
  · have hvalid : fl.ValidMirror cmdtype bootppa lun ↔
        bootblkPageMdwCheck (fl.mirror bootppa lun) cmdtype = true :=
      and_iff_right (of_decide_eq_true hread)
    rw [if_pos hread,(hk lun hread).filter,if_congr hvalid rfl rfl]
  · have hvalid : ¬fl.ValidMirror cmdtype bootppa lun := fun h => hread (decide_eq_true h.1)
    rw [if_neg hread,if_neg hvalid]

/-- The search over whole pages is what the loop over bytes computes. -/
theorem bootblkGetMirror_refines (databuf : Portion) (hk : fl.Holds bootppa k) :
    match Host.bootblkGetMirror k cmdtype (fl.readable bootppa) bootppa with
    | some page => ∃ b, bootblkGetMirror true fl cmdtype databuf bootppa = (0,b) ∧
        Represents b (some page)
    | none => (bootblkGetMirror true fl cmdtype databuf bootppa).1 = -1 := by
  rw [hk.search]
  cases hfind : (List.range cfgNandLunNum).find? (fun l => fl.ValidMirror cmdtype bootppa l) with
  | none =>
    have hnone (lun : Nat) (hlun : lun ∈ List.range cfgNandLunNum) :
        ¬fl.ValidMirror cmdtype bootppa lun := by
      simpa using List.find?_eq_none.mp hfind lun hlun
    rw [List.findSome?_eq_none_iff.mpr fun lun hlun => if_neg (hnone lun hlun)]
    exact bootblkGetMirror_none databuf hfind
  | some lun =>
    obtain ⟨hvalid,before,behind,hsplit,hbefore⟩ := List.find?_eq_some_iff_append.mp hfind
    have hvalid := of_decide_eq_true hvalid
    have hrep := hk lun (decide_eq_true hvalid.1)
    obtain ⟨page,hpage⟩ := hrep.exists_page hvalid.2
    have hlower (l : Nat) (hl : l ∈ before) : ¬fl.ValidMirror cmdtype bootppa l := by
      simpa using hbefore l hl
    have hsearch : ((List.range cfgNandLunNum).findSome? fun lun =>
        if fl.ValidMirror cmdtype bootppa lun then
          k.page (Nand.ch.get bootppa,Nand.pg.get bootppa,lun) else none) = some page := by
      rw [List.findSome?_eq_some_iff]
      exact ⟨before,lun,behind,hsplit,(if_pos hvalid).trans hpage,fun l hl => if_neg (hlower l hl)⟩
    rw [hsearch]
    exact ⟨_,bootblkGetMirror_found databuf hfind,hpage ▸ hrep⟩

end Refinement

end Sdssd.Host.BootBytes
