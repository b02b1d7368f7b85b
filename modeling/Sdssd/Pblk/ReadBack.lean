import Sdssd.Pblk.CoherenceSteps
import Sdssd.Pblk.ReadPath

/-!
# What is written can be read back

The write path with what the device holds and with what was last written to each lba. After every run
the map leads to the last write, in the buffer or on the device.
-/

namespace Sdssd.Pblk

open Framework

variable {δ : Type}

structure Disk (δ : Type) where
  ftl : Ftl δ
  /-- What was last written to an lba, if it was not discarded since. -/
  content : Nat → Option δ
  /-- What the device holds at an address: the lba of its metadata, and the data. -/
  media : DevAddr → Option (Nat × δ)

namespace Disk

def init (pages : Nat → δ) (lines : LineMgmt) (rl : Rl) : Disk δ :=
  ⟨.init pages lines rl,fun _ => none,fun _ => none⟩

/-- A user write counts from the copy of its sector on. -/
def contentAfter (d : Disk δ) : Event δ → Nat → Option δ
  | .insert j =>
    match d.ftl.jobs[j]? with
    | none => d.content
    | some job => if job.sector.src = .user then Function.update d.content job.sector.lba (some job.sector.data)
        else d.content
  | .discard slba n => fun lba => if slba ≤ lba ∧ lba < slba + n then none else d.content lba
  | _ => d.content

def mediaAfter (d : Disk δ) : Event δ → DevAddr → Option (Nat × δ)
  | .send true =>
    match d.ftl.writer with
    | .mapping _ taken ppas => program d.media ppas taken
    | _ => d.media
  | _ => d.media

variable (cfg : Config)

def step (d : Disk δ) (e : Event δ) : Option (Disk δ) :=
  (Pblk.step cfg d.ftl e).map fun s => ⟨s,d.contentAfter e,d.mediaAfter e⟩

/-- What the write path takes for granted: the device does not fail, the open line has room when a page is
mapped, the collector copies what it read, and a line comes into use only with sectors that nothing refers to. -/
def Relies (d : Disk δ) : Event δ → Prop
  | .writeGc line lbas data => d.ftl.Collects cfg d.media line (gcSectors line lbas data)
  | .mapPage => ∀ l, d.ftl.map.lines.dataLine = some l → (d.ftl.map.lines.line l).HasRoom cfg
  | .answer _ failed _ => failed = none
  | .lines m => ∀ l, m.dataLine = some l → (m.line l).Aligned cfg ∧
      (∀ paddr, (m.line l).mapBitmap paddr = false → d.ftl.Unused cfg ⟨l,paddr⟩) ∧
      ∀ j ∈ d.ftl.jobs, j.sector.src ≠ .gc l
  | _ => True

end Disk

variable {cfg : Config}

theorem Ftl.Coherent.init {pages : Nat → δ} {lines : LineMgmt} {rl : Rl}
    (haligned : ∀ l, lines.dataLine = some l → (lines.line l).Aligned cfg) :
    (Ftl.init pages lines rl).Coherent cfg (fun _ => none) fun _ => none := by
  have hmapped : ∀ i a, ¬(Ftl.init pages lines rl).MappedAt cfg i a := fun i a h => absurd h.2.1 (Nat.not_lt_zero i)
  refine ⟨⟨fun _ => rfl,fun i _ hi => absurd hi (Nat.not_lt_zero i),haligned,?_,?_,?_⟩,⟨nofun,nofun,fun _ _ => rfl⟩,
    ?_,⟨nofun,nofun⟩,trivial⟩
  · intro l paddr _ _
    exact ⟨nofun,fun i h => hmapped i _ h⟩
  · intro i j a h
    exact absurd h (hmapped i a)
  · intro i a lba h
    exact absurd h (hmapped i a)
  · intro k q hk
    cases hk

/-- The line management may do what it likes with lines that are not open. -/
theorem Ftl.Coherent.lines {content : Nat → Option δ} {media : DevAddr → Option (Nat × δ)} {s : Ftl δ}
    (h : s.Coherent cfg content media) {m : LineMgmt}
    (hm : ∀ l, m.dataLine = some l → (m.line l).Aligned cfg ∧
      (∀ paddr, (m.line l).mapBitmap paddr = false → s.Unused cfg ⟨l,paddr⟩) ∧ ∀ j ∈ s.jobs, j.sector.src ≠ .gc l) :
    ({ s with map := { s.map with lines := m } } : Ftl δ).Coherent cfg content media := by
  refine ⟨⟨h.addresses.cacheline,h.addresses.unmapped,fun l hl => (hm l hl).1,?_,h.addresses.inj,h.addresses.free⟩,
    ⟨h.faithful.cached,h.faithful.mapped,h.faithful.empty⟩,h.programmed,⟨?_,h.collecting.data⟩,
    h.writer.congr rfl rfl fun _ _ _ => rfl⟩
  · intro l paddr hl hbit
    exact (hm l hl).2.1 paddr hbit
  · intro j hj line hsrc
    refine ⟨?_,(h.collecting.line j hj line hsrc).2⟩
    intro hl
    exact (hm line hl).2.2 j hj hsrc

namespace Disk

/-- The invariant of the disk. -/
def Sound (cfg : Config) (d : Disk δ) : Prop :=
  ∃ p, d.ftl.Inv cfg p ∧ d.ftl.Coherent cfg d.content d.media

theorem coherent_step {d : Disk δ} {s : Ftl δ} {p : Nat} {e : Event δ} (hinv : d.ftl.Inv cfg p)
    (h : d.ftl.Coherent cfg d.content d.media) (hrelies : d.Relies cfg e) (hs : Pblk.step cfg d.ftl e = some s)
    (he : ∀ k failed recovery, e ≠ .answer k failed recovery) :
    s.Coherent cfg (d.contentAfter e) (d.mediaAfter e) := by
  have hord := hinv.ordered
  cases e with
  | writeUser b => exact h.writeUser hinv hs
  | writeGc line lbas data => exact h.writeGc hinv hrelies hs
  | insert j =>
    obtain ⟨pos,x,hj,-,hcoherent⟩ := h.insert hord hs
    simp only [contentAfter,hj]
    exact hcoherent
  | commit => exact h.commit hs
  | read => exact h.read hord hs
  | readFail i => exact h.readFail hord hs
  | giveUp => exact h.giveUp hord hs
  | mapPage => exact h.mapPage hord hrelies hs
  | send ok =>
    simp only [Pblk.step,Ftl.send] at hs
    split at hs
    · rename_i c taken ppas hw
      split at hs <;> cases hs
      cases ok with
      | true =>
        simp only [mediaAfter,hw]
        exact h.send hord hw ‹_›
      | false => exact h.push_lost hord (.of_eq rfl rfl rfl) rfl rfl rfl rfl
    · cases hs
  | answer k failed recovery => exact absurd rfl (he k failed recovery)
  | discard slba n =>
    cases hs
    exact h.discard slba n
  | syncL2p => exact h.syncL2p hinv hs
  | lines m =>
    cases hs
    exact h.lines hrelies
  | rates n =>
    obtain ⟨x,-,rfl⟩ := Option.map_eq_some_iff.mp hs
    exact h.setRl _
  | userTimer =>
    cases hs
    exact h.setRl _

theorem Sound.step {d d' : Disk δ} {e : Event δ} (h : d.Sound cfg) (hrelies : d.Relies cfg e)
    (hs : d.step cfg e = some d') : d'.Sound cfg := by
  obtain ⟨p,hinv,hcoherent⟩ := h
  obtain ⟨s,hstep,rfl⟩ := Option.map_eq_some_iff.mp hs
  obtain ⟨p',-,hsound⟩ := hinv.step hstep (fun he => coherent_step hinv hcoherent hrelies hstep he) fun _ _ _ he => by
    subst he
    exact ⟨Ftl.Coherent.retirable,hcoherent⟩
  exact ⟨p',hsound⟩

theorem Sound.reaches {pages : Nat → δ} {lines : LineMgmt} {rl : Rl} {d : Disk δ}
    (haligned : ∀ l, lines.dataLine = some l → (lines.line l).Aligned cfg)
    (h : Reaches (Disk.step cfg) (Disk.Relies cfg) (Disk.init pages lines rl) d) : d.Sound cfg := by
  refine h.invariant (Sound cfg) ⟨0,.init pages lines rl,.init haligned⟩ ?_
  intro d e d' hd hrelies hs
  exact hd.step hrelies hs

/-- What a lookup leads to is the last write. -/
def Serves (d : Disk δ) (lba : Nat) : Fetched δ → Prop
  | .empty => d.content lba = none
  | .cached v => (∃ pos, d.ftl.map.transMap lba = .cacheline pos) ∧ d.content lba = some v
  | .media a => ∃ v, d.media a = some (lba,v) ∧ d.content lba = some v

/-- The entry that the map names still belongs to the lba, so that nothing has to be looked up again. -/
theorem Sound.fetch {d : Disk δ} (h : d.Sound cfg) (lba n : Nat) :
    ∃ f, Pblk.fetch d.ftl lba (n + 1) (d.ftl.map.transMap lba) = some f ∧ d.Serves lba f := by
  obtain ⟨p,hinv,hcoherent⟩ := h
  cases hpos : d.ftl.map.transMap lba with
  | empty => exact ⟨.empty,rfl,hcoherent.faithful.empty lba hpos⟩
  | cacheline pos =>
    obtain ⟨i,hlow,hhigh,rfl,hphase,hlba,hcontent⟩ := hcoherent.faithful.cached lba pos hpos
    have hwritable : (d.ftl.slot cfg i).wCtx.flags.writable = false := by
      rcases hinv.ordered.slots.used i hlow hhigh with hreserved | ⟨x,-,-,hwritten | hsubmitted⟩
      · exact absurd hreserved hphase
      · exact RbEntry.not_writable hwritten nofun
      · exact RbEntry.not_writable hsubmitted nofun
    have hcopy : pblkRbCopyToBio d.ftl.rwb lba (cfg.ring.wrap i) = some (d.ftl.slot cfg i).data := by
      rw [Ftl.slot] at hlba hwritable
      simp [pblkRbCopyToBio,Ftl.slot,hlba,hwritable]
    refine ⟨.cached (d.ftl.slot cfg i).data,?_,⟨_,hpos⟩,hcontent⟩
    rw [Pblk.fetch,hcopy]
  | dev a =>
    obtain ⟨v,hmedia,hcontent⟩ := hcoherent.faithful.mapped lba a hpos
    exact ⟨.media a,rfl,v,hmedia,hcontent⟩

theorem Sound.serves {d : Disk δ} (h : d.Sound cfg) {n blba : Nat} {fs : List (Fetched δ)}
    (hfs : FetchedFrom d.ftl (n + 1) blba fs) {i : Nat} {f : Fetched δ} (hf : fs[i]? = some f) :
    d.Serves (blba + i) f := by
  obtain ⟨g,hg,hserves⟩ := h.fetch (blba + i) n
  cases (hfs i f hf).symm.trans hg
  exact hserves

end Disk

/-! ## Reads -/

section Reads

variable {pages : Nat → δ} {lines : LineMgmt} {rl : Rl} {d : Disk δ} {dev : DevAddr → δ}

/-- Sectors 0 and 1 are on the device and the map leads there, 2 is in the buffer, 3 was not written. -/
def mixedRun : List (Event Nat) :=
  [.writeUser ⟨0,0,[10,11],true,false⟩,.insert 0,.insert 0,.commit,.read,.mapPage,.send true,.answer 0 none true,.syncL2p,
    .writeUser ⟨1,2,[12],true,false⟩,.insert 0]

/-- What is checked before each step of `mixedRun`: a page is taken only from a line with a free sector, and
none of its sectors is marked. -/
def mixedCheck (d : Disk Nat) : Event Nat → Bool
  | .mapPage => (d.ftl.map.lines.dataLine.map fun l =>
      let line := d.ftl.map.lines.line l
      decide (line.curSec < smallConfig.secPerLine) && !line.mapBitmap line.curSec &&
        ((pblkAllocPage smallConfig line 2).map fun x =>
          (List.range 2).all fun t => !line.invalidBitmap (x.2 + t)).getD true) = some true
  | .answer _ failed _ => failed.isNone
  | .writeGc .. | .lines _ => false
  | _ => true

theorem relies_of_mixedCheck (d : Disk Nat) (e : Event Nat) (h : mixedCheck d e = true) : d.Relies smallConfig e := by
  cases e with
  | mapPage =>
    intro l hl
    simp only [mixedCheck,hl,Option.map_some,Option.some.injEq,Bool.and_eq_true,decide_eq_true_eq,
      Bool.not_eq_true'] at h
    exact ⟨_,Nat.le_refl _,h.1.1,h.1.2⟩
  | answer k failed recovery => exact Option.isNone_iff_eq_none.mp h
  | writeGc line lbas data => cases h
  | lines m => cases h
  | _ => trivial

def mixedStep (d : Disk Nat) (e : Event Nat) : Option (Disk Nat) :=
  if mixedCheck d e then Disk.step smallConfig d e else none

theorem mixedRun_isSome : (mixedRun.foldlM mixedStep (Disk.init (fun _ => 0) smallLines smallRl)).isSome = true := by
  decide +kernel

def mixedDisk : Disk Nat := (mixedRun.foldlM mixedStep (Disk.init (fun _ => 0) smallLines smallRl)).get mixedRun_isSome

theorem mixedDisk_reaches : Reaches (Disk.step smallConfig) (Disk.Relies smallConfig)
    (Disk.init (fun _ => 0) smallLines smallRl) mixedDisk :=
  Reaches.of_foldlM_checked relies_of_mixedCheck (Option.some_get mixedRun_isSome).symm

theorem smallLines_aligned (l : Nat) : (smallLines.line l).Aligned smallConfig := ⟨Nat.dvd_zero _,fun _ => rfl⟩

def mixedDev (a : DevAddr) : Nat := ((mixedDisk.media a).map Prod.snd).getD 0

theorem mixedDev_eq (a : DevAddr) (lba v : Nat) (h : mixedDisk.media a = some (lba,v)) : mixedDev a = v := by
  simp [mixedDev,h]

theorem mixedDisk_gap (i j k pos pos' : Nat) (hij : i < j) (hjk : j < k) (hk : k < 4)
    (hi : mixedDisk.ftl.map.transMap (0 + i) = .cacheline pos)
    (_ : mixedDisk.ftl.map.transMap (0 + k) = .cacheline pos') : mixedDisk.content (0 + j) ≠ none := by
  have hzero : mixedDisk.ftl.map.transMap 0 = .dev ⟨0,0⟩ := by decide +kernel
  have hone : mixedDisk.ftl.map.transMap 1 = .dev ⟨0,1⟩ := by decide +kernel
  rw [Nat.zero_add] at hi
  obtain rfl | rfl : i = 0 ∨ i = 1 := by omega
  · rw [hzero] at hi
    cases hi
  · rw [hone] at hi
    cases hi

example : pblkSubmitRead smallConfig mixedDisk.ftl mixedDev 1 0 4 0 [90,91,92,93] = some (.ok,[10,11,12,93]) := by
  decide +kernel

/-- Sectors 0 and 2 are in the buffer, 1 was not written. -/
def gapRun : List (Event Nat) :=
  [.writeUser ⟨0,0,[10],true,false⟩,.insert 0,.writeUser ⟨1,2,[12],true,false⟩,.insert 0]

theorem gapRun_isSome : (gapRun.foldlM (step smallConfig) smallInit).isSome = true := by decide

def gapState : Ftl Nat := (gapRun.foldlM (step smallConfig) smallInit).get gapRun_isSome

theorem gapRead_isSome :
    (pblkReadPpalistRq smallConfig gapState 1 0 3 ⟨[90,91,92],0,fun _ => false,[],false⟩).isSome = true := by decide

def gapRead : ReadRq Nat :=
  (pblkReadPpalistRq smallConfig gapState 1 0 3 ⟨[90,91,92],0,fun _ => false,[],false⟩).get gapRead_isSome

end Reads

end Sdssd.Pblk
