import Sdssd.Host.AllocFailure

/-!
# Write bios as the block layer passes them

Start and length of a bio are multiples of 512 bytes. `get_bio_slba` and `get_bio_nppa` round both down
to pages of 4096 bytes, and `process_write_bio` works with what they return.
-/

namespace Sdssd.Host

open Framework

variable {α β : Type}

/-- A write bio within the limits of the queue: `bi_sector` inside the capacity, at most
`8 * MAX_PPA_PER_CMD` sectors of 512 bytes. -/
structure WriteBio (β : Type) where
  biSector : Nat
  bytes : List β
  whole : 512 ∣ bytes.length
  start_lt : biSector < (maxUserLba + 1) * secPerPpa
  size_le : bytes.length ≤ 64 * expPpaSize

/-- The 4096 bytes behind `bio_data` after `k` calls of `bio_advance`. -/
def WriteBio.page (bio : WriteBio β) (k : Nat) : List β :=
  (bio.bytes.drop (k * expPpaSize)).take expPpaSize

theorem WriteBio.pages_size_lt (bio : WriteBio β) :
    ((List.range (bio.bytes.length / expPpaSize)).map bio.page).length * expPpaSize < 2^32 := by
  rw [List.length_map,List.length_range]
  have hsize := bio.size_le
  simp only [expPpaSize] at hsize ⊢
  omega

/-- The bio as `flush_data_to_wcb` walks through it, with the pages that `get_bio_nppa` counts. -/
def WriteBio.toBio (bio : WriteBio β) : Bio (List β) where
  biSector := bio.biSector
  pages := (List.range (bio.bytes.length / expPpaSize)).map bio.page
  size_lt := bio.pages_size_lt

/-- `flush_data_to_wcb`: the slots of all contexts in turn. -/
def flushDataToWcb (f : Ftl α) (bio : Bio α) (adv : Nat) (slots : List Slot) : Ftl α × Nat :=
  slots.foldl (fun r slot => flushSlot r.1 bio r.2 slot) (f,adv)

/-- `process_write_bio` without other activity in between: its return value, the contexts it used and
the tables. -/
def processWriteBio (f : Ftl α) (bio : Bio α) : Except Fault (BioRet × List WcbCtx × Ftl α) :=
  (wcbAvailable f (getBioNppa bio)).bind fun available =>
    if available then
      (allocWcbCore f (getBioSlba bio) (getBioNppa bio)).bind fun r =>
        let f := (flushDataToWcb r.ftl bio 0 (ctxSlots r.ctxs)).1
        (setL2ptblWritePath f r.ctxs).map fun f => (.complete,r.ctxs,f)
    else (printLunEntitysFifo f).map fun _ => (.resubmit,[],f)

/-- Byte `a` of the device lies in a page that the slots store. -/
def Covers (f : Ftl α) (slots : List Slot) (a : Nat) : Prop :=
  ∃ slot ∈ slots, f.lbaAt slot ≤ maxUserLba ∧
    f.lbaAt slot * expPpaSize ≤ a ∧ a < (f.lbaAt slot + 1) * expPpaSize

/-- The call completes within the contexts it has, and what it stores is the bio, byte for byte. -/
def StoredWhole (f : Ftl (List β)) (bio : WriteBio β) : Prop :=
  ∃ ctxs f', processWriteBio f bio.toBio = .ok (.complete,ctxs,f') ∧ ctxs.length ≤ maxUsedWcbEntitys ∧
    (∀ a, Covers f' (ctxSlots ctxs) a ↔
      512 * bio.biSector ≤ a ∧ a < 512 * bio.biSector + bio.bytes.length) ∧
    ∀ slot ∈ ctxSlots ctxs, f'.lbaAt slot ≤ maxUserLba → ∃ page, f'.dataAt slot = some page ∧
      ∀ j, j < expPpaSize → page[j]? = bio.bytes[f'.lbaAt slot * expPpaSize + j - 512 * bio.biSector]?

/-- The open stripe lies in a block of the table. -/
structure Seated (f : Ftl α) (e : Nat) : Prop where
  aligned : (f.ent e).baddr.toNat % raidLunSecNum = 0
  inTable : (f.ent e).baddr.toNat < cfgNandBlockNum * blockPages

/-- A state in which bios are accepted. -/
structure Accepting (f : Ftl α) (e : Nat) (q free : List Nat) : Prop
    extends Ready f e q, Seated f e where
  pool : Pool f.sys free

section Addresses

variable {f f' : Ftl α} {e : Nat} {q free : List Nat}

theorem Seated.nextPpa (h : Seated f e) (hpos : (f.ent e).pos < raidLunSecNum) :
    (f.nextPpa e).toNat = (f.ent e).baddr.toNat + (f.ent e).pos ∧
      (f.nextPpa e).toNat < cfgNandBlockNum * blockPages := by
  have halign := h.aligned
  have hin := h.inTable
  simp only [raidLunSecNum_eq,cfgNandBlockNum_eq,blockPages_eq] at *
  have hadd : (f.nextPpa e).toNat = (f.ent e).baddr.toNat + (f.ent e).pos := by
    rw [Ftl.nextPpa,BitVec.toNat_add,BitVec.toNat_ofNat]
    omega
  rw [hadd]
  exact ⟨rfl,by omega⟩

theorem nextLun_seated {addr b : Nat} (hlt : addr < cfgNandBlockNum * blockPages)
    (hfree : ∀ blk ∈ free, blk < cfgNandBlockNum) (hb : b = (nextLun free addr).getD 0) :
    b % raidLunSecNum = 0 ∧ b < cfgNandBlockNum * blockPages := by
  subst hb
  by_cases hend : addr / raidLunSecNum % 4096 = 4095
  · rw [nextLun,if_pos hend]
    cases free with
    | nil => decide
    | cons blk free =>
      have hblk := hfree blk List.mem_cons_self
      simp only [List.head?_cons,Option.map_some,Option.getD_some,raidLunSecNum_eq,cfgNandBlockNum_eq,
        blockPages_eq] at hblk ⊢
      omega
  · rw [nextLun,if_neg hend,Option.getD_some]
    simp only [raidLunSecNum_eq,cfgNandBlockNum_eq,blockPages_eq] at hlt hend ⊢
    omega

/-- All pages handed out lie in blocks of the table, and so does the stripe that is open afterwards. -/
theorem allotPages_inTable {n lba : Nat} {ss : List Slot} (h : Accepting f e q free)
    (hpages : allotPages n f lba = .ok (ss,f')) :
    (∃ e' q', Ready f' e' q' ∧ Seated f' e') ∧
      ∀ slot ∈ ss, f'.ppaAt slot < cfgNandBlockNum * blockPages := by
  let P (ss : List Slot) (g : Ftl α) (x : Nat) (_ : List Nat) : Prop :=
    Seated g x ∧ (∃ free, Pool g.sys free) ∧ ∀ slot ∈ ss, g.ppaAt slot < cfgNandBlockNum * blockPages
  have h0 : P [] f e q := ⟨h.toSeated,⟨free,h.pool⟩,by simp⟩
  suffices hstep : ∀ ss g x qs g' x' qs', ss.length < n → Ready g x qs → P ss g x qs →
      Allot g x qs (lba + ss.length) g' x' qs' → P (ss ++ [(x,(g.ent x).pos)]) g' x' qs' by
    obtain ⟨-,e',q',hr',hP⟩ := allotPages_induct P h.toReady h0 hstep hpages
    exact ⟨⟨e',q',hr',hP.1⟩,hP.2.2⟩
  intro ss g x qs g' x' qs' _ hr ⟨hseat,⟨free,hpool⟩,hslots⟩ ha
  obtain ⟨hadd,hin⟩ := hseat.nextPpa hr.pos
  have hnew : ∀ slot ∈ ss ++ [(x,(g.ent x).pos)], g'.ppaAt slot < cfgNandBlockNum * blockPages := by
    intro slot hslot
    by_cases hself : slot = (x,(g.ent x).pos)
    · rw [hself,ha.at_slot.2]
      exact hin
    · rw [(ha.off_slot hself).2]
      have hmem := List.mem_append.mp hslot
      exact hslots slot (hmem.resolve_right fun hs => hself (List.mem_singleton.mp hs))
  cases ha with
  | room hpos => exact ⟨⟨by simpa [ent_writeSlot_self] using hseat.aligned,
      by simpa [ent_writeSlot_self] using hseat.inTable⟩,⟨free,hpool⟩,hnew⟩
  | @last _ _ baddr fifo ln sys hpos hq hbaddr hqueue hlink =>
    have hlt : (g.nextPpa x).toNat < 2^31 := Nat.lt_trans hin (by decide)
    obtain ⟨b,t,hb,haddr⟩ := getNextEntityBaddr_nextLun hlt hpool
    obtain ⟨b',t',hb',-,hpool'⟩ := getNextEntityBaddr_progress hpool (g.nextPpa x)
    obtain ⟨rfl,rfl⟩ := Prod.mk.inj (Except.ok.inj (hbaddr.symm.trans hb))
    obtain ⟨-,rfl⟩ := Prod.mk.inj (Except.ok.inj (hbaddr.symm.trans hb'))
    obtain ⟨halign,hin'⟩ := nextLun_seated hin hpool.lt haddr
    refine ⟨⟨?_,?_⟩,hpool',hnew⟩
    · rw [ent_openEnt_self]
      exact halign
    · rw [ent_openEnt_self]
      exact hin'

theorem Effect.seated {s s' : WritePath α} {l : Label α} (h : Effect s l s') (hs : s.Sane)
    (hseat : Seated s.ftl s.part) : Seated s'.ftl s'.part := by
  rcases h.frame with ⟨i,c,r,-,-,-,-,hr,rfl⟩ | hframe
  · obtain ⟨free,hpool⟩ := hs.pool
    have hacc : Accepting s.ftl s.part s.empties free := ⟨hs.ready,hseat,hpool⟩
    obtain ⟨⟨e',q',hr',hseat'⟩,-⟩ := allotPages_inTable hacc (allocWcbCore_sound hr).2.2
    have hpart : (s.allotted i c r).part = e' := by
      rw [WritePath.part,WritePath.allotted,hr'.isPart]
      rfl
    rw [hpart]
    exact hseat'
  · have hpart : s'.part = s.part := by rw [WritePath.part,hframe.isPart,WritePath.part]
    rw [hpart]
    exact ⟨hframe.baddr _ ▸ hseat.aligned,hframe.baddr _ ▸ hseat.inTable⟩

/-- Every state that the driver can reach accepts bios. -/
theorem accepting_of_reaches {mcp : Bool} {d : Discovery} {b : BootPages} {dma : Nat → EntityDma}
    {f₀ : Ftl α} {s : WritePath α} (hinit : fscftlModuleInit mcp d b dma = .ok (some f₀))
    (hrun : Reaches WritePath.step always (WritePath.init f₀) s) :
    ∃ free, Accepting s.ftl s.part s.empties free := by
  obtain ⟨free,hboot,hscan,-⟩ := fscftlModuleInit_booted hinit
  have hfirst : Seated f₀ 0 := by
    have hblk : firstBlock free < cfgNandBlockNum := by
      cases free with
      | nil => decide
      | cons blk free => exact (mem_scanOrder (hscan.subset List.mem_cons_self)).2
    simp only [cfgNandBlockNum_eq] at hblk
    constructor <;> simp only [hboot.baddr,raidLunSecNum_eq,cfgNandBlockNum_eq,blockPages_eq] <;> omega
  have hboth := hrun.invariant (fun s => s.Sane ∧ Seated s.ftl s.part)
    ⟨sane_init hboot,by
      rw [show (WritePath.init f₀).part = 0 by rw [WritePath.part,WritePath.init,hboot.ready.isPart]; rfl]
      exact hfirst⟩
    fun t l u ht _ hl => ⟨((step_effect hl).sane ht.1).1,(step_effect hl).seated ht.1 ht.2⟩
  obtain ⟨free',hpool⟩ := hboth.1.pool
  exact ⟨free',hboth.1.ready,hboth.2,hpool⟩

end Addresses

section Zero

/-- A context holds slots of one entity. -/
theorem ctxSlots_length_le {ctxs : List WcbCtx} (h : ∀ slot ∈ ctxSlots ctxs, slot.2 < raidLunSecNum) :
    (ctxSlots ctxs).length ≤ raidLunSecNum * ctxs.length := by
  induction ctxs with
  | nil => exact Nat.le_refl _
  | cons c ctxs ih =>
    have hrest := ih fun slot hslot => h slot (List.mem_append_right _ hslot)
    have hone : c.slots.length ≤ raidLunSecNum := by
      rw [WcbCtx.slots,List.length_map,List.length_range']
      by_cases hle : c.startPos ≤ c.endPos
      · have hmem : (c.entity,c.endPos) ∈ c.slots := by
          rw [WcbCtx.slots,List.mem_map]
          exact ⟨c.endPos,by rw [List.mem_range'_1]; omega,rfl⟩
        have hend : c.endPos < raidLunSecNum :=
          h (c.entity,c.endPos) (List.mem_append_left (ctxSlots ctxs) hmem)
        omega
      · omega
    rw [ctxSlots,List.flatMap_cons,List.length_append,List.length_cons,Nat.mul_succ]
    exact (Nat.add_le_add hone hrest).trans (Nat.le_of_eq (Nat.add_comm _ _))

/-- A request for no page counts down from `2^32`, which is more than three contexts hold. -/
theorem allocWcbCore_zero {f : Ftl α} {e : Nat} {q : List Nat} (hr : Ready f e q) (slba : Nat)
    (r : AllocResult α) : allocWcbCore f slba 0 ≠ .ok r := by
  intro hcall
  obtain ⟨-,hctxs,hpages⟩ := allocWcbCore_sound hcall
  obtain ⟨hslots,-⟩ := allotPages_slots hr hpages
  have hlt : ∀ slot ∈ ctxSlots r.ctxs, slot.2 < raidLunSecNum := by
    rw [hslots]
    intro slot hslot
    obtain ⟨j,-,rfl⟩ := List.mem_map.mp hslot
    exact Nat.mod_lt _ (by decide)
  have hlen : (ctxSlots r.ctxs).length = 2^32 := by
    rw [hslots,nextSlots,List.length_map,List.length_range]
    rfl
  have hle := ctxSlots_length_le hlt
  rw [hlen] at hle
  simp only [raidLunSecNum_eq,maxUsedWcbEntitys_eq] at hle hctxs
  omega

end Zero

section Flush

variable {f : Ftl α}

theorem flushDataToWcb_cons (f : Ftl α) (bio : Bio α) (adv : Nat) (slot : Slot) (slots : List Slot) :
    flushDataToWcb f bio adv (slot :: slots) =
      flushDataToWcb (flushSlot f bio adv slot).1 bio (flushSlot f bio adv slot).2 slots := rfl

theorem flushDataToWcb_frame (f : Ftl α) (bio : Bio α) (adv : Nat) (slots : List Slot) :
    Frame f (flushDataToWcb f bio adv slots).1 := by
  induction slots generalizing f adv with
  | nil => exact Frame.refl f
  | cons slot slots ih => exact (flushSlot_frame f bio adv slot).trans (ih _ _)

/-- With user LBAs in all slots, every slot gets the next page of the bio. -/
theorem flushDataToWcb_dataAt {slots : List Slot} (bio : Bio α) (adv : Nat) (hnodup : slots.Nodup)
    (huser : ∀ slot ∈ slots, f.lbaAt slot ≤ maxUserLba) :
    (∀ (k : Nat) slot, slots[k]? = some slot →
      (flushDataToWcb f bio adv slots).1.dataAt slot = bio.pages[adv + k]?) ∧
    ∀ slot, slot ∉ slots → (flushDataToWcb f bio adv slots).1.dataAt slot = f.dataAt slot := by
  induction slots generalizing f adv with
  | nil => exact ⟨fun k slot hk => by simp at hk,fun _ _ => rfl⟩
  | cons slot slots ih =>
    obtain ⟨hfresh,hnodup⟩ := List.nodup_cons.mp hnodup
    have hlba := huser slot List.mem_cons_self
    have hadv : (flushSlot f bio adv slot).2 = adv + 1 := by
      rw [flushSlot_snd,copyPage_of_user hlba]
    obtain ⟨hin,hout⟩ := ih (f := (flushSlot f bio adv slot).1) (adv + 1) hnodup fun x hx => by
      rw [(flushSlot_frame f bio adv slot).lbaAt]
      exact huser x (List.mem_cons_of_mem _ hx)
    rw [flushDataToWcb_cons,hadv]
    constructor
    · intro k x hk
      cases k with
      | zero =>
        obtain rfl : slot = x := Option.some.inj hk
        rw [hout slot hfresh,flushSlot_dataAt hlba,if_pos rfl,Nat.add_zero]
      | succ k =>
        rw [hin k x hk]
        congr 1
        omega
    · intro x hx
      obtain ⟨hne,hx⟩ := not_or.mp (List.mem_cons.not.mp hx)
      rw [hout x hx,flushSlot_dataAt hlba,if_neg hne]

end Flush

section Table

theorem setL2ptblIncache_ok (m : L2pTbl) (lba : Nat) {ppa : GeoPpa}
    (hppa : Nand.blk.get ppa < cfgNandBlockNum) : ∃ m', setL2ptblIncache m lba ppa = .ok m' := by
  by_cases hlba : lba ≤ maxUserLba
  · have hblk : ¬cfgNandBlockNum ≤ Nand.blk.get (Cache.inCache.set ppa 1) := by
      rw [blk_inCache]
      exact Nat.not_le.mpr hppa
    by_cases hprev : Nand.blk.get (m.l2ptbl lba) < cfgNandBlockNum
    · simp only [setL2ptblIncache,if_pos hlba,if_pos hprev,vpcDec,if_neg (Nat.not_le.mpr hprev),
        Except.bind,vpcInc,if_neg hblk]
      exact ⟨_,rfl⟩
    · simp only [setL2ptblIncache,if_pos hlba,if_neg hprev,Except.bind,vpcInc,if_neg hblk]
      exact ⟨_,rfl⟩
  · exact ⟨m,if_neg hlba⟩

theorem setL2ptblAll_ok (m : L2pTbl) (calls : List (Nat × GeoPpa))
    (hc : ∀ c ∈ calls, Nand.blk.get c.2 < cfgNandBlockNum) : ∃ m', setL2ptblAll m calls = .ok m' := by
  induction calls generalizing m with
  | nil => exact ⟨m,rfl⟩
  | cons c calls ih =>
    obtain ⟨m₁,h₁⟩ := setL2ptblIncache_ok m c.1 (hc c List.mem_cons_self)
    obtain ⟨m₂,h₂⟩ := ih m₁ fun d hd => hc d (List.mem_cons_of_mem _ hd)
    refine ⟨m₂,?_⟩
    rw [setL2ptblAll,List.foldlM_cons,h₁]
    exact h₂

/-- Only the table changes, and with addresses in the table no `BUG_ON` fires. -/
theorem setL2ptblWritePath_inTable {f : Ftl α} {ctxs : List WcbCtx}
    (h : ∀ slot ∈ ctxSlots ctxs, f.ppaAt slot < cfgNandBlockNum * blockPages) :
    ∃ m, setL2ptblWritePath f ctxs = .ok { f with map := m } := by
  obtain ⟨m,hm⟩ := setL2ptblAll_ok f.map
    ((ctxSlots ctxs).map fun s => (f.lbaAt s,BitVec.ofNat 32 (f.ppaAt s))) fun c hc => by
      obtain ⟨slot,hslot,rfl⟩ := List.mem_map.mp hc
      have hlt := h slot hslot
      show (BitVec.ofNat 32 (f.ppaAt slot)).toNat / 524288 % 4096 < 128
      simp only [cfgNandBlockNum_eq,blockPages_eq,BitVec.toNat_ofNat] at hlt ⊢
      omega
  exact ⟨m,by rw [setL2ptblWritePath,hm]; rfl⟩

end Table

section Process

variable {f : Ftl α} {e : Nat} {q free : List Nat} {bio : Bio α}

/-- What the call leaves: consecutive LBAs from `slba` on, and with all of them inside the device the
pages of the bio in order. -/
theorem processWriteBio_ok (h : Accepting f e q free) (h1 : 1 ≤ bio.pages.length)
    (h64 : bio.pages.length ≤ 64) (hlba : getBioSlba bio + bio.pages.length ≤ 2^32)
    (hav : wcbAvailable f (getBioNppa bio) = .ok true) :
    ∃ ctxs f', processWriteBio f bio = .ok (.complete,ctxs,f') ∧ ctxs.length ≤ maxUsedWcbEntitys ∧
      (ctxSlots ctxs).length = bio.pages.length ∧
      (∀ (k : Nat) slot, (ctxSlots ctxs)[k]? = some slot → f'.lbaAt slot = getBioSlba bio + k) ∧
      (getBioSlba bio + bio.pages.length ≤ maxUserLba + 1 → ∀ (k : Nat) slot,
        (ctxSlots ctxs)[k]? = some slot → f'.dataAt slot = bio.pages[k]?) := by
  rw [getBioNppa_eq] at hav
  obtain ⟨r,hcall,-⟩ := allocWcbCore_of_ready h.toReady h.pool (getBioSlba bio) h1
    (h64.trans (by decide)) hav
  obtain ⟨-,hctxs,hpages⟩ := allocWcbCore_sound hcall
  rw [allotCount_of_lt h1 (by omega)] at hpages
  obtain ⟨hnodup,hlen,hmap,-⟩ := allotPages_written h.toReady hpages
  have hlbas (k : Nat) (slot : Slot) (hk : (ctxSlots r.ctxs)[k]? = some slot) :
      r.ftl.lbaAt slot = getBioSlba bio + k := by
    have hklt : k < bio.pages.length := hlen ▸ (List.getElem?_eq_some_iff.mp hk).1
    have hat : ((ctxSlots r.ctxs).map r.ftl.lbaAt)[k]? = some (r.ftl.lbaAt slot) := by
      rw [List.getElem?_map,hk]
      rfl
    rw [hmap,List.getElem?_map,List.getElem?_range hklt] at hat
    rw [← Option.some.inj hat]
    exact Nat.mod_eq_of_lt (by omega)
  have hframe := flushDataToWcb_frame r.ftl bio 0 (ctxSlots r.ctxs)
  have htable : ∀ slot ∈ ctxSlots r.ctxs,
      (flushDataToWcb r.ftl bio 0 (ctxSlots r.ctxs)).1.ppaAt slot < cfgNandBlockNum * blockPages := by
    intro slot hslot
    rw [hframe.ppaAt]
    exact (allotPages_inTable h hpages).2 slot hslot
  obtain ⟨m,hmapped⟩ := setL2ptblWritePath_inTable htable
  refine ⟨r.ctxs,{ (flushDataToWcb r.ftl bio 0 (ctxSlots r.ctxs)).1 with map := m },?_,hctxs,hlen,
    fun k slot hk => ?_,fun hin k slot hk => ?_⟩
  · simp only [processWriteBio,getBioNppa_eq,hav,Except.bind,if_true,hcall,hmapped,Except.map]
  · exact (hframe.lbaAt slot).trans (hlbas k slot hk)
  · have huser : ∀ slot ∈ ctxSlots r.ctxs, r.ftl.lbaAt slot ≤ maxUserLba := by
      intro slot hslot
      obtain ⟨k,hk⟩ := List.mem_iff_getElem?.mp hslot
      have hklt : k < bio.pages.length := hlen ▸ (List.getElem?_eq_some_iff.mp hk).1
      rw [hlbas k slot hk]
      omega
    have hdata := (flushDataToWcb_dataAt bio 0 hnodup huser).1 k slot hk
    rw [Nat.zero_add] at hdata
    exact hdata

/-- The bytes that slots with consecutive LBAs cover. -/
theorem covers_iff {f' : Ftl α} {slots : List Slot} {slba n : Nat} (hlen : slots.length = n)
    (hlba : ∀ (k : Nat) slot, slots[k]? = some slot → f'.lbaAt slot = slba + k) (a : Nat) :
    Covers f' slots a ↔
      slba ≤ a / expPpaSize ∧ a / expPpaSize < slba + n ∧ a / expPpaSize ≤ maxUserLba := by
  have hpage (lba : Nat) : lba * expPpaSize ≤ a ∧ a < (lba + 1) * expPpaSize ↔ lba = a / expPpaSize := by
    simp only [expPpaSize]
    omega
  constructor
  · rintro ⟨slot,hslot,huser,hcover⟩
    obtain ⟨k,hk⟩ := List.mem_iff_getElem?.mp hslot
    have hklt : k < n := hlen ▸ (List.getElem?_eq_some_iff.mp hk).1
    have hat := hlba k slot hk
    rw [hpage] at hcover
    omega
  · rintro ⟨hle,hlt,huser⟩
    have hk : a / expPpaSize - slba < slots.length := by omega
    have hsome := List.getElem?_eq_getElem hk
    have hat := hlba _ _ hsome
    refine ⟨_,List.getElem_mem hk,by omega,(hpage _).mpr (by omega)⟩

end Process

section Run

variable {s : WritePath α} {i adv : Nat} {c : BioCall α} {todo : List Slot}

/-- The copies of one call, one after another. -/
theorem flushDataToWcb_run (hc : s.calls[i]? = some c) (hpc : c.pc = .flush todo adv) :
    ∃ s' adv', Reaches WritePath.step always s s' ∧
      s'.ftl = (flushDataToWcb s.ftl c.bio adv todo).1 ∧
      s'.calls[i]? = some { c with pc := .flush [] adv' } := by
  induction todo generalizing s c adv with
  | nil => exact ⟨s,adv,Reaches.refl s,rfl,by rw [hc,← hpc]⟩
  | cons slot todo ih =>
    have hcopy := Effect.copy hc hpc
    have hc₁ := getElem?_set_of_some hc { c with pc := .flush todo (flushSlot s.ftl c.bio adv slot).2 }
    obtain ⟨s',adv',hrun,hftl,hc'⟩ := ih (s := { s with
      ftl := (flushSlot s.ftl c.bio adv slot).1
      calls := s.calls.set i { c with pc := .flush todo (flushSlot s.ftl c.bio adv slot).2 } }) hc₁ rfl
    exact ⟨s',adv',(Reaches.single trivial hcopy.step).trans hrun,hftl,hc'⟩

/-- A call that completes is one of the schedules of the write path: it begins, allocates, copies its
slots and updates the table. -/
theorem processWriteBio_run {bio : Bio α} {ctxs : List WcbCtx} {f' : Ftl α}
    (h : processWriteBio s.ftl bio = .ok (.complete,ctxs,f')) :
    ∃ s', Reaches WritePath.step always s s' ∧ s'.ftl = f' := by
  have hbegin := (Effect.begin (s := s) bio).step
  have hc : (s.calls ++ [⟨bio,.start,[],[]⟩])[s.calls.length]? = some ⟨bio,.start,[],[]⟩ := by
    rw [List.getElem?_append_right (Nat.le_refl _),Nat.sub_self]
    rfl
  unfold processWriteBio at h
  cases hav : wcbAvailable s.ftl (getBioNppa bio) with
  | error x =>
    rw [hav] at h
    cases h
  | ok available =>
    cases available with
    | false =>
      rw [hav] at h
      cases hprint : printLunEntitysFifo s.ftl with
      | error x =>
        simp only [Except.bind,Bool.false_eq_true,if_false,hprint,Except.map] at h
        cases h
      | ok u =>
        simp only [Except.bind,Bool.false_eq_true,if_false,hprint,Except.map] at h
        cases h
    | true =>
      cases hr : allocWcbCore s.ftl (getBioSlba bio) (getBioNppa bio) with
      | error x =>
        simp only [hav,hr,Except.bind,if_true] at h
        cases h
      | ok r =>
        simp only [hav,hr,Except.bind,if_true] at h
        let s₁ : WritePath α := { s with calls := s.calls ++ [⟨bio,.start,[],[]⟩] }
        have halloc := Effect.alloc (s := s₁) hc rfl hav hr
        have hc₂ : (s₁.allotted s.calls.length ⟨bio,.start,[],[]⟩ r).calls[s.calls.length]? =
            some ⟨bio,.flush (ctxSlots r.ctxs) 0,r.ctxs,r.ppas⟩ := getElem?_set_of_some hc _
        obtain ⟨s₃,adv,hcopies,hftl,hc₃⟩ := flushDataToWcb_run hc₂ rfl
        cases hmap : setL2ptblWritePath (flushDataToWcb r.ftl bio 0 (ctxSlots r.ctxs)).1 r.ctxs with
        | error x =>
          rw [hmap] at h
          cases h
        | ok f'' =>
          rw [hmap] at h
          have hf : f'' = f' := congrArg (fun x => x.2.2) (Except.ok.inj h)
          have hmapped := Effect.map hc₃ rfl (hftl ▸ hmap)
          have hrun := ((Reaches.single trivial hbegin).tail trivial halloc.step).trans hcopies
          exact ⟨_,hrun.tail trivial hmapped.step,hf⟩

end Run

section Whole

variable {f : Ftl (List β)} {e : Nat} {q free : List Nat} (bio : WriteBio β)

theorem WriteBio.length_pages : bio.toBio.pages.length = bio.bytes.length / expPpaSize := by
  rw [toBio,List.length_map,List.length_range]

/-- A bio of less than a page, the empty flush among them, makes `alloc_wcb_core` overrun. -/
theorem not_storedWhole_of_small (hr : Ready f e q) (hsmall : bio.bytes.length < expPpaSize) :
    ¬StoredWhole f bio := by
  rintro ⟨ctxs,f',hcall,-⟩
  have hzero : getBioNppa bio.toBio = 0 := by
    rw [getBioNppa_eq,bio.length_pages,Nat.div_eq_of_lt hsmall]
  rw [processWriteBio,hzero] at hcall
  cases hav : wcbAvailable f 0 with
  | error x =>
    rw [hav] at hcall
    cases hcall
  | ok available =>
    cases available with
    | true =>
      cases halloc : allocWcbCore f (getBioSlba bio.toBio) 0 with
      | error x =>
        rw [hav] at hcall
        simp only [Except.bind,if_true,halloc] at hcall
        cases hcall
      | ok r => exact allocWcbCore_zero hr _ r halloc
    | false =>
      rw [hav] at hcall
      simp only [Except.bind,Bool.false_eq_true,if_false,printLunEntitysFifo,hr.isPart,Except.map] at hcall
      cases hcall

/-- The pages of an aligned bio hold its bytes. -/
theorem WriteBio.page_getElem? {k j : Nat} (hj : j < expPpaSize) :
    (bio.page k)[j]? = bio.bytes[k * expPpaSize + j]? := by
  rw [page,List.getElem?_take_of_lt hj,List.getElem?_drop]

end Whole

/-- A bio is served within the contexts and stored whole exactly if it starts and ends on a page
boundary, is not empty and ends inside the device. -/
theorem write_bio_stored_iff {f : Ftl (List β)} {e : Nat} {q free : List Nat}
    (h : Accepting f e q free) (bio : WriteBio β)
    (hav : wcbAvailable f (getBioNppa bio.toBio) = .ok true) :
    StoredWhole f bio ↔ secPerPpa ∣ bio.biSector ∧ expPpaSize ∣ bio.bytes.length ∧
      0 < bio.bytes.length ∧
      bio.biSector + bio.bytes.length / 512 ≤ (maxUserLba + 1) * secPerPpa := by
  rcases Nat.lt_or_ge bio.bytes.length expPpaSize with hsmall | hlarge
  · refine iff_of_false (not_storedWhole_of_small bio h.toReady hsmall) ?_
    rintro ⟨-,hdvd,hpos,-⟩
    exact absurd (Nat.le_of_dvd hpos hdvd) (Nat.not_le.mpr hsmall)
  have hslba : getBioSlba bio.toBio = bio.biSector / secPerPpa := rfl
  have hn := bio.length_pages
  have hstart := bio.start_lt
  have hsize := bio.size_le
  simp only [expPpaSize,secPerPpa,maxUserLba_eq] at hn hslba hstart hsize hlarge
  obtain ⟨ctxs,f',hcall,hctxs,hlen,hlba,hdata⟩ :=
    processWriteBio_ok h (by omega) (by omega) (by omega) hav
  have hcovers := covers_iff hlen hlba
  simp only [expPpaSize,maxUserLba_eq,hn,hslba] at hcovers
  simp only [expPpaSize,secPerPpa,maxUserLba_eq]
  constructor
  · rintro ⟨ctxs',f'',hcall',-,hcover,-⟩
    obtain ⟨rfl,rfl⟩ : ctxs = ctxs' ∧ f' = f'' := by
      simpa using Except.ok.inj (hcall.symm.trans hcall')
    -- The first byte stored and the last byte of the bio decide.
    have hfirst := (hcover (bio.biSector / 8 * 4096)).mp ((hcovers _).mpr (by omega))
    have hlast := (hcovers _).mp ((hcover (512 * bio.biSector + bio.bytes.length - 1)).mpr (by omega))
    have halign : bio.biSector % 8 = 0 := by omega
    have hpages : bio.bytes.length % 4096 = 0 := by omega
    exact ⟨Nat.dvd_of_mod_eq_zero halign,Nat.dvd_of_mod_eq_zero hpages,by omega,by omega⟩
  · rintro ⟨halign,hpages,-,hend⟩
    have halign := Nat.mod_eq_zero_of_dvd halign
    have hpages := Nat.mod_eq_zero_of_dvd hpages
    refine ⟨ctxs,f',hcall,hctxs,fun a => ?_,fun slot hslot _ => ?_⟩
    · rw [hcovers]
      omega
    · obtain ⟨k,hk⟩ := List.mem_iff_getElem?.mp hslot
      have hklt : k < bio.bytes.length / expPpaSize := by
        rw [← bio.length_pages,← hlen]
        exact (List.getElem?_eq_some_iff.mp hk).1
      refine ⟨bio.page k,?_,fun j hj => ?_⟩
      · rw [hdata (by rw [maxUserLba_eq]; omega) k slot hk,WriteBio.toBio,List.getElem?_map,
          List.getElem?_range hklt]
        rfl
      · rw [bio.page_getElem? hj,hlba k slot hk,hslba]
        congr 1
        simp only [expPpaSize]
        omega

/-- Entity 0 is open at its first slot, and no other entity is needed. -/
def oneOpen : Ftl (List Nat) :=
  ⟨⟨fun _ => ⟨0,0,0,0,fun _ => none,fun _ => 0,fun _ => 0,0,0,0⟩,fun _ => ⟨noIndex,noIndex⟩,Fifo.init,
    Fifo.init,some 0,0⟩,sysTblInit,l2pTblInit⟩

theorem accepting_oneOpen : Accepting oneOpen 0 [] [] :=
  ⟨⟨rfl,by decide,Fifo.holds_init _,by decide⟩,⟨by decide,by decide⟩,pool_init⟩

/-- The second page of the device. -/
def secondPage : WriteBio Nat :=
  ⟨8,List.replicate 4096 7,by rw [List.length_replicate]; decide,by rw [maxUserLba_eq]; decide,
    by rw [List.length_replicate]; decide⟩

theorem write_bio_stored_iff_page : StoredWhole oneOpen secondPage := by
  have hn : getBioNppa secondPage.toBio = 1 := by
    rw [getBioNppa_eq,secondPage.length_pages,secondPage,List.length_replicate]
    rfl
  apply (write_bio_stored_iff accepting_oneOpen secondPage (by rw [hn]; rfl)).mpr
  rw [secondPage,List.length_replicate,maxUserLba_eq]
  decide

/-- The empty bio of a flush. -/
def emptyFlush : WriteBio Nat := ⟨0,[],by decide,by rw [maxUserLba_eq]; decide,by decide⟩

theorem empty_flush_not_stored :
    wcbAvailable oneOpen (getBioNppa emptyFlush.toBio) = .ok true ∧ ¬StoredWhole oneOpen emptyFlush :=
  ⟨rfl,not_storedWhole_of_small emptyFlush accepting_oneOpen.toReady (by decide)⟩

end Sdssd.Host
