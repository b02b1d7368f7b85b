import Sdssd.Host.BootBlock
import Sdssd.Framework.Steps

/-!
# Power cycles

A cycle starts with `do_manufactory_init` or with `try_recovery_systbl`, and ends with
`flush_down_systbl` or with a crash that lets only some of the programs of `flush_down_systbl` reach
the disk. All reads and all programs that are issued succeed.
-/

namespace Sdssd.Host

open Framework

/-- How a cycle ended; a crash lets the first `k` programs of the shutdown through. -/
inductive CycleEnd
  | clean
  | crash (k : Nat)
  deriving DecidableEq, Repr

/-- One `try_recovery_systbl`: the meta page it found, the one flushed last, and what it ran. -/
structure Recovery where
  found : Option BootblkMetaPage
  newest : Option BootblkMetaPage
  path : Option RecoveryPath

/-- The disk, the loaded driver, the cycles that ended since the last manufactory initialisation, the
meta page flushed last, and the recoveries so far. -/
structure PowerSystem where
  disk : BootDisk
  ram : Option BootRam
  cycles : List CycleEnd
  newest : Option BootblkMetaPage
  recoveries : List Recovery

inductive PowerLabel
  | manufactory (d : Discovery)
  | recovery
  | shutdown
  | crash (k : Nat)

namespace PowerSystem

/-- A disk that was never used by the driver. -/
def init (page : BootPos → Option BootPage) : PowerSystem := ⟨⟨page,[]⟩,none,[],none,[]⟩

/-- The driver is loaded with the pages it has just flushed. -/
def loaded (disk : BootDisk) (r : BootRam) (cycles : List CycleEnd) (recoveries : List Recovery) :
    PowerSystem :=
  ⟨disk,some r,cycles,some r.metaPage,recoveries⟩

def step (s : PowerSystem) : PowerLabel → Option PowerSystem
  | .manufactory d =>
    match s.ram, bootSetup.doManufactoryInit d with
    | none, .ok (r,cmds) => some (loaded (BootDisk.erased.program cmds) r [] s.recoveries)
    | _, _ => none
  | .recovery =>
    let found := bootblkRecoveryMetaPage s.disk .all bootSetup.metaPage
    match s.ram, bootSetup.tryRecoverySystbl s.disk .all with
    | none, .ok none => some { s with recoveries := s.recoveries ++ [⟨found,s.newest,none⟩] }
    | none, .ok (some (r,path,cmds)) => some (loaded (s.disk.program cmds) r s.cycles
        (s.recoveries ++ [⟨found,s.newest,some path⟩]))
    | _, _ => none
  | .shutdown =>
    match s.ram.map flushDownSystbl with
    | some (.ok (r,cmds)) => some { s with
        disk := s.disk.program cmds
        ram := none
        cycles := s.cycles ++ [.clean]
        newest := some r.metaPage }
    | _ => none
  | .crash k =>
    match s.ram.map flushDownSystbl with
    | some (.ok (_,cmds)) =>
      if k < cmds.length then some { s with
        disk := s.disk.program (cmds.take k)
        ram := none
        cycles := s.cycles ++ [.crash k] }
      else none
    | _ => none

end PowerSystem

/-- A recovery runs only after a manufactory initialisation that ended cleanly. -/
def afterCleanManufactory (s : PowerSystem) : PowerLabel → Prop
  | .recovery => s.cycles = [.clean]
  | _ => True

/-- The recovery found the newest meta page and ran what its flag asks for. -/
def Recovery.Right (r : Recovery) : Prop :=
  ∃ m, r.newest = some m ∧ r.found = some m ∧
    (r.path = some .rebuildSystbl ↔ m.pdf = .powerDownSafe) ∧
    (r.path = some .crashRecovery ↔ m.pdf = .powerDownUnsafe)

/-- Everything a step can do. -/
inductive PowerEffect (s : PowerSystem) : PowerLabel → PowerSystem → Prop
  | manufactory {d : Discovery} {r : BootRam} {cmds : List (BootPos × BootPage)} (hoff : s.ram = none)
      (hr : bootSetup.doManufactoryInit d = .ok (r,cmds)) :
      PowerEffect s (.manufactory d) (.loaded (BootDisk.erased.program cmds) r [] s.recoveries)
  | failed (hoff : s.ram = none) (hr : bootSetup.tryRecoverySystbl s.disk .all = .ok none) :
      PowerEffect s .recovery { s with recoveries := s.recoveries ++
        [⟨bootblkRecoveryMetaPage s.disk .all bootSetup.metaPage,s.newest,none⟩] }
  | recovered {r : BootRam} {path : RecoveryPath} {cmds : List (BootPos × BootPage)} (hoff : s.ram = none)
      (hr : bootSetup.tryRecoverySystbl s.disk .all = .ok (some (r,path,cmds))) :
      PowerEffect s .recovery (.loaded (s.disk.program cmds) r s.cycles (s.recoveries ++
        [⟨bootblkRecoveryMetaPage s.disk .all bootSetup.metaPage,s.newest,some path⟩]))
  | shutdown {r r' : BootRam} {cmds : List (BootPos × BootPage)} (hon : s.ram = some r)
      (hr : flushDownSystbl r = .ok (r',cmds)) :
      PowerEffect s .shutdown ⟨s.disk.program cmds,none,s.cycles ++ [.clean],some r'.metaPage,s.recoveries⟩
  | crash {r r' : BootRam} {cmds : List (BootPos × BootPage)} {k : Nat} (hon : s.ram = some r)
      (hr : flushDownSystbl r = .ok (r',cmds)) :
      PowerEffect s (.crash k)
        ⟨s.disk.program (cmds.take k),none,s.cycles ++ [.crash k],s.newest,s.recoveries⟩

theorem powerStep_effect {s s' : PowerSystem} {l : PowerLabel} (h : s.step l = some s') :
    PowerEffect s l s' := by
  cases l with
  | manufactory d =>
    simp only [PowerSystem.step] at h
    split at h
    · rename_i r cmds hoff hr
      exact Option.some.inj h ▸ .manufactory hoff hr
    · cases h
  | recovery =>
    simp only [PowerSystem.step] at h
    split at h
    · rename_i hoff hr
      exact Option.some.inj h ▸ .failed hoff hr
    · rename_i r path cmds hoff hr
      exact Option.some.inj h ▸ .recovered hoff hr
    · cases h
  | shutdown =>
    simp only [PowerSystem.step] at h
    split at h
    · rename_i r' cmds hr
      obtain ⟨r,hon,hr⟩ := Option.map_eq_some_iff.mp hr
      exact Option.some.inj h ▸ .shutdown hon hr
    · cases h
  | crash k =>
    simp only [PowerSystem.step] at h
    split at h
    · rename_i r' cmds hr
      obtain ⟨r,hon,hr⟩ := Option.map_eq_some_iff.mp hr
      rw [Option.ite_none_right_eq_some] at h
      exact Option.some.inj h.2 ▸ .crash hon hr
    · cases h

/-- The positions of the first `n` pairs of boot pages. -/
def bootPairs (n : Nat) : List BootPos := (List.range n).flatMap bootPair

theorem bootPairs_succ (n : Nat) : bootPairs (n + 1) = bootPairs n ++ bootPair n := by
  simp [bootPairs,List.range_succ]

theorem pg_of_mem_bootPair {n : Nat} {x : BootPos} (h : x ∈ bootPair n) : x.2.1 = n := by
  rcases List.mem_append.mp h with h | h
  · obtain ⟨lun,-,rfl⟩ := List.mem_map.mp h
    rfl
  · obtain ⟨lun,-,rfl⟩ := List.mem_map.mp h
    rfl

theorem bootPairs_nodup (n : Nat) : (bootPairs n).Nodup := by
  induction n with
  | zero => exact List.nodup_nil
  | succ n ih =>
    rw [bootPairs_succ]
    apply ih.append (bootPair_nodup n)
    intro x hx hx'
    obtain ⟨j,hj,hxj⟩ := List.mem_flatMap.mp hx
    rw [List.mem_range,← pg_of_mem_bootPair hxj,pg_of_mem_bootPair hx'] at hj
    exact Nat.lt_irrefl n hj

/-- A loaded driver has flushed `n` pairs since the erase, to the first `n` pairs of positions; after a
manufactory cycle that ended cleanly the second pair on the disk is the newest. -/
structure Cycling (s : PowerSystem) : Prop where
  right : ∀ r ∈ s.recoveries, r.Right
  nodup : s.disk.programs.Nodup
  on : ∀ r, s.ram = some r → ∃ n, r.Flushed n ∧ s.disk.programs = bootPairs n ∧ n ≤ 3 ∧
    (s.cycles = [] → n = 1)
  off : s.ram = none → s.cycles = [.clean] → ∃ r : BootRam, r.Flushed 2 ∧
    r.metaPage.pdf = .powerDownSafe ∧ s.newest = some r.metaPage ∧ s.disk.programs = bootPairs 2 ∧
    s.disk.page (4,1,0) = some (.metapg r.metaPage) ∧ s.disk.page (0,1,0) = some (.bbtpg r.bbtPage)

theorem cycling_init (page : BootPos → Option BootPage) : Cycling (.init page) := by
  constructor
  case right =>
    intro r hr
    cases hr
  case nodup => exact List.nodup_nil
  case on =>
    intro r hr
    cases hr
  case off =>
    intro _ hcycles
    cases hcycles

/-- A pair of flushes appends the next pair of positions. -/
theorem program_bootPairs {k : BootDisk} {r r' : BootRam} {flag : PowerDownFlag} {n : Nat}
    {cmds : List (BootPos × BootPage)} (hk : k.programs = bootPairs n) (hn : n < 512)
    (h : flushBootPages r flag = .ok (r',cmds)) (hr : r'.Flushed (n+1)) :
    (k.program cmds).programs = bootPairs (n + 1) := by
  rw [bootPairs_succ,← flushBootPages_positions h hr hn,← hk]
  rfl

/-- After the first cycle ended cleanly a recovery finds the newest pages and flushes the third pair. -/
theorem Cycling.recovered {s : PowerSystem} (h : Cycling s) (hoff : s.ram = none)
    (hcycles : s.cycles = [.clean]) : ∃ (m : BootblkMetaPage) (r : BootRam)
      (cmds : List (BootPos × BootPage)), s.newest = some m ∧ m.pdf = .powerDownSafe ∧
      bootblkRecoveryMetaPage s.disk .all bootSetup.metaPage = some m ∧
      bootSetup.tryRecoverySystbl s.disk .all = .ok (some (r,.rebuildSystbl,cmds)) ∧
      r.Flushed 3 ∧ (s.disk.program cmds).programs = bootPairs 3 := by
  obtain ⟨r,hr,hpdf,hnewest,hprog,hmeta,hbbt⟩ := h.off hoff hcycles
  obtain ⟨hfound,hfound'⟩ := recovery_finds_second .all hr hmeta hbbt rfl rfl
  have hram : ({ bootSetup with metaPage := r.metaPage, bbtPage := r.bbtPage } : BootRam).Flushed 2 :=
    ⟨hr.bbtMagic,hr.metaMagic,hr.bbtIter,hr.metaIter,hr.bbtAddress,hr.metaAddress⟩
  obtain ⟨r',cmds,hflush,hr'⟩ := flushBootPages_flushed hram .powerDownUnsafe
  refine ⟨r.metaPage,r',cmds,hnewest,hpdf,hfound,?_,hr',program_bootPairs hprog (by decide) hflush hr'⟩
  simp only [BootRam.tryRecoverySystbl,hfound,hfound',hflush,Except.map]

theorem Cycling.loaded {disk : BootDisk} {r : BootRam} {cycles : List CycleEnd}
    {recoveries : List Recovery} {n : Nat} (hright : ∀ x ∈ recoveries, x.Right) (hr : r.Flushed n)
    (hprog : disk.programs = bootPairs n) (hn : n ≤ 3) (hfirst : cycles = [] → n = 1) :
    Cycling (.loaded disk r cycles recoveries) := by
  constructor
  case right => exact hright
  case nodup => exact hprog ▸ bootPairs_nodup n
  case on =>
    intro x hx
    cases hx
    exact ⟨n,hr,hprog,hn,hfirst⟩
  case off =>
    intro hnone
    cases hnone

/-- A whole shutdown appends one pair to those of the loaded driver. -/
theorem Cycling.flushed {s : PowerSystem} {r r' : BootRam} {cmds : List (BootPos × BootPage)}
    (hs : Cycling s) (hon : s.ram = some r) (h : flushDownSystbl r = .ok (r',cmds)) :
    ∃ n, r'.Flushed (n + 1) ∧ (s.disk.program cmds).programs = bootPairs (n + 1) ∧
      (s.cycles = [] → n = 1) := by
  obtain ⟨n,hn,hprog,hle,hfirst⟩ := hs.on r hon
  have hr' := hn.next h
  exact ⟨n,hr',program_bootPairs hprog (by omega) h hr',hfirst⟩

theorem PowerEffect.cycling {s s' : PowerSystem} {l : PowerLabel} (h : PowerEffect s l s')
    (hs : Cycling s) (hok : afterCleanManufactory s l) : Cycling s' := by
  cases h with
  | @manufactory d r cmds hoff hr =>
    obtain ⟨sys,-,hscan,-⟩ := fscftlBbtDiscovery_pool d
    have hflush : flushBootPages { bootSetup with sys := sys } .powerDownUnsafe = .ok (r,cmds) := by
      rw [BootRam.doManufactoryInit,show bootSetup.sys = sysTblInit from rfl,hscan] at hr
      exact hr
    have hsetup : ({ bootSetup with sys := sys } : BootRam).Flushed 0 := ⟨rfl,rfl,rfl,rfl,rfl,rfl⟩
    have hr₁ := hsetup.next hflush
    exact Cycling.loaded hs.right hr₁ (program_bootPairs rfl (by decide) hflush hr₁) (by decide)
      fun _ => rfl
  | failed hoff hr =>
    obtain ⟨m,r,cmds,-,-,-,hrec,-,-⟩ := hs.recovered hoff hok
    rw [hrec] at hr
    cases hr
  | @recovered r path cmds hoff hr =>
    obtain ⟨m,r',cmds',hnewest,hpdf,hfound,hrec,hr',hprog⟩ := hs.recovered hoff hok
    rw [hrec,Except.ok.injEq,Option.some.injEq,Prod.mk.injEq,Prod.mk.injEq] at hr
    obtain ⟨rfl,rfl,rfl⟩ := hr
    apply Cycling.loaded _ hr' hprog (by decide)
    · intro hnil
      have hcycles : s.cycles = [.clean] := hok
      cases hcycles.symm.trans hnil
    · intro x hx
      rcases List.mem_append.mp hx with hx | hx
      · exact hs.right x hx
      · rw [List.mem_singleton.mp hx]
        exact ⟨m,hnewest,hfound,by simp [hpdf],by simp [hpdf]⟩
  | @shutdown r r' cmds hon hr =>
    obtain ⟨n,hr',hprog,hfirst⟩ := hs.flushed hon hr
    constructor
    case right => exact hs.right
    case nodup => exact hprog ▸ bootPairs_nodup (n + 1)
    case on =>
      intro x hx
      cases hx
    case off =>
      intro _ hcycles
      have hnil : s.cycles = [] := by simpa using hcycles
      obtain rfl : n = 1 := hfirst hnil
      have hcopies := flushBootPages_copies s.disk hr hr' (by decide)
        (by decide : 0 < cfgNandLunNum)
      exact ⟨r',hr',(flushBootPages_ok hr).2.1,rfl,hprog,hcopies.2,hcopies.1⟩
  | @crash r r' cmds k hon hr =>
    obtain ⟨n,-,hprog,-⟩ := hs.flushed hon hr
    constructor
    case right => exact hs.right
    case nodup =>
      -- the programs that got through are an initial part of those of a whole shutdown
      have hsub : (s.disk.program (cmds.take k)).programs.Sublist (s.disk.program cmds).programs :=
        (List.Sublist.refl _).append ((List.take_sublist k cmds).map Prod.fst)
      exact (hprog ▸ bootPairs_nodup (n + 1)).sublist hsub
    case on =>
      intro x hx
      cases hx
    case off =>
      intro _ hcycles
      have hlast := congrArg List.getLast? hcycles
      simp at hlast

/-- In every sequence of power cycles in which each recovery directly follows a manufactory
initialisation that ended cleanly: every recovery finds the meta page flushed last and runs what its
flag asks for, and no boot page position is programmed twice between two erases. -/
theorem recovery_finds_newest {page : BootPos → Option BootPage} {s : PowerSystem}
    (hrun : Reaches PowerSystem.step afterCleanManufactory (.init page) s) :
    (∀ r ∈ s.recoveries, r.Right) ∧ s.disk.programs.Nodup := by
  have hs := hrun.invariant Cycling (cycling_init page)
    fun t l u ht hok hl => (powerStep_effect hl).cycling ht hok
  exact ⟨hs.right,hs.nodup⟩

/-- A manufactory cycle that ends cleanly can always be run. -/
private theorem clean_cycle (page : BootPos → Option BootPage) (d : Discovery) :
    ∃ s : PowerSystem, Reaches PowerSystem.step afterCleanManufactory (.init page) s ∧ Cycling s ∧
      s.ram = none ∧ s.cycles = [.clean] ∧ s.recoveries = [] := by
  obtain ⟨sys,-,hscan,-⟩ := fscftlBbtDiscovery_pool d
  obtain ⟨r₁,cmds₁,r₂,cmds₂,-,-,hmake,hdown,-⟩ := recovery_after_manufactory hscan
  have hstep₁ : (PowerSystem.init page).step (.manufactory d) =
      some (.loaded (BootDisk.erased.program cmds₁) r₁ [] []) := by
    simp only [PowerSystem.step,hmake]
    rfl
  have hstep₂ : (PowerSystem.loaded (BootDisk.erased.program cmds₁) r₁ [] []).step .shutdown =
      some ⟨(BootDisk.erased.program cmds₁).program cmds₂,none,[.clean],some r₂.metaPage,[]⟩ := by
    simp only [PowerSystem.step,PowerSystem.loaded,Option.map_some,hdown]
    rfl
  have hrun : Reaches PowerSystem.step afterCleanManufactory (.init page)
      ⟨(BootDisk.erased.program cmds₁).program cmds₂,none,[.clean],some r₂.metaPage,[]⟩ :=
    (Reaches.single (l := .manufactory d) trivial hstep₁).tail (l := .shutdown) trivial hstep₂
  have hs := hrun.invariant Cycling (cycling_init page)
    fun t l u ht hok hl => (powerStep_effect hl).cycling ht hok
  exact ⟨_,hrun,hs,rfl,rfl,rfl⟩

theorem Cycling.recovery_step {s : PowerSystem} (h : Cycling s) (hoff : s.ram = none)
    (hcycles : s.cycles = [.clean]) : ∃ s', s.step .recovery = some s' ∧
      s'.recoveries.length = s.recoveries.length + 1 := by
  obtain ⟨m,r,cmds,-,-,-,hrec,-,-⟩ := h.recovered hoff hcycles
  refine ⟨.loaded (s.disk.program cmds) r s.cycles (s.recoveries ++
    [⟨bootblkRecoveryMetaPage s.disk .all bootSetup.metaPage,s.newest,some .rebuildSystbl⟩]),?_,?_⟩
  · simp only [PowerSystem.step,hoff,hrec]
  · simp [PowerSystem.loaded]

/-- A manufactory cycle that ended cleanly, and the recovery after it. -/
theorem recovery_finds_newest_once : ∃ s : PowerSystem,
    Reaches PowerSystem.step afterCleanManufactory (.init fun _ => none) s ∧ s.recoveries.length = 1 ∧
    (∀ r ∈ s.recoveries, r.Right) ∧ s.disk.programs.Nodup := by
  obtain ⟨s,hrun,hs,hoff,hcycles,hrecs⟩ := clean_cycle (fun _ => none) .clean
  obtain ⟨s',hstep,hlen⟩ := hs.recovery_step hoff hcycles
  have hrun' := hrun.tail (l := .recovery) hcycles hstep
  exact ⟨s',hrun',by rw [hlen,hrecs]; rfl,recovery_finds_newest hrun'⟩

theorem BootDisk.program_page_of_notMem {k : BootDisk} {cmds : List (BootPos × BootPage)} {x : BootPos}
    (h : x ∉ cmds.map Prod.fst) : (k.program cmds).page x = k.page x := by
  apply overwrite_of_notMem
  rwa [List.map_map]

/-- A recovery that finds the second pair again does the same as the one before. -/
private theorem recovery_repeats {k k' : BootDisk} {r : BootRam} (hr : r.Flushed 2)
    (hmeta : k.page (4,1,0) = some (.metapg r.metaPage))
    (hbbt : k.page (0,1,0) = some (.bbtpg r.bbtPage)) (hmeta' : k'.page (4,1,0) = k.page (4,1,0))
    (hbbt' : k'.page (0,1,0) = k.page (0,1,0)) :
    bootblkRecoveryMetaPage k' .all bootSetup.metaPage = some r.metaPage ∧
      bootSetup.tryRecoverySystbl k' .all = bootSetup.tryRecoverySystbl k .all := by
  obtain ⟨hm,hb⟩ := recovery_finds_second .all hr hmeta hbbt rfl rfl
  obtain ⟨hm',hb'⟩ := recovery_finds_second .all hr (hmeta'.trans hmeta) (hbbt'.trans hbbt)
    rfl rfl
  refine ⟨hm',?_⟩
  simp only [BootRam.tryRecoverySystbl,hm,hm',hb,hb']

/-- The second recovery goes back to the page that the first one found: it takes the crash in between
for a clean shutdown, and programs the third pair of positions again. -/
theorem recovery_goes_back : ∃ (s : PowerSystem) (m₁ m₂ : BootblkMetaPage),
    Reaches PowerSystem.step always (.init fun _ => none) s ∧
    s.recoveries.getLast? = some ⟨some m₁,some m₂,some .rebuildSystbl⟩ ∧
    m₁.pdf = .powerDownSafe ∧ m₂.pdf = .powerDownUnsafe ∧ ¬ s.disk.programs.Nodup := by
  obtain ⟨s,hrun,hs,hoff,hcycles,-⟩ := clean_cycle (fun _ => none) .clean
  obtain ⟨r,hr,hpdf,-,hprog,hmeta,hbbt⟩ := hs.off hoff hcycles
  obtain ⟨m,r₃,cmds,-,-,-,hrec,hr₃,-⟩ := hs.recovered hoff hcycles
  obtain ⟨m',p',-,-,-,hflush⟩ := tryRecoverySystbl_ok hrec
  have hpos := flushBootPages_positions hflush hr₃ (by decide)
  obtain ⟨r₄,cmds₄,hdown,hr₄⟩ := flushBootPages_flushed hr₃ .powerDownSafe
  have hlen : 0 < cmds₄.length := by
    rw [flushBootPages_cmds hdown hr₄ (by decide)]
    simp
  -- the pages of the second pair stay on the disk
  have hkeep (x : BootPos) (hx : x.2.1 = 1) :
      ((s.disk.program cmds).program (cmds₄.take 0)).page x = s.disk.page x := by
    rw [BootDisk.program_page_of_notMem (by simp),BootDisk.program_page_of_notMem]
    intro hmem
    rw [hpos] at hmem
    cases hx.symm.trans (pg_of_mem_bootPair hmem)
  obtain ⟨hfound,hsame⟩ := recovery_repeats hr hmeta hbbt (hkeep (4,1,0) rfl) (hkeep (0,1,0) rfl)
  let found := bootblkRecoveryMetaPage s.disk .all bootSetup.metaPage
  let s₁ : PowerSystem := .loaded (s.disk.program cmds) r₃ s.cycles
    (s.recoveries ++ [⟨found,s.newest,some .rebuildSystbl⟩])
  have hstep₁ : s.step .recovery = some s₁ := by
    simp only [PowerSystem.step,hoff,hrec]
    rfl
  let s₂ : PowerSystem := ⟨(s.disk.program cmds).program (cmds₄.take 0),none,s.cycles ++ [.crash 0],
    some r₃.metaPage,s₁.recoveries⟩
  have hstep₂ : s₁.step (.crash 0) = some s₂ := by
    simp only [PowerSystem.step,s₁,PowerSystem.loaded,Option.map_some,flushDownSystbl,hdown,if_pos hlen]
    rfl
  let s₃ : PowerSystem := .loaded (s₂.disk.program cmds) r₃ s₂.cycles
    (s₂.recoveries ++ [⟨some r.metaPage,some r₃.metaPage,some .rebuildSystbl⟩])
  have hstep₃ : s₂.step .recovery = some s₃ := by
    simp only [PowerSystem.step,s₂,hfound,hsame,hrec]
    rfl
  have hrun₃ : Reaches PowerSystem.step always (.init fun _ => none) s₃ :=
    (((hrun.mono fun _ _ _ => trivial).tail trivial hstep₁).tail trivial hstep₂).tail trivial hstep₃
  refine ⟨s₃,r.metaPage,r₃.metaPage,hrun₃,by simp [s₃,PowerSystem.loaded],hpdf,
    (flushBootPages_ok hflush).2.1,?_⟩
  have hmem : (0,2,0) ∈ cmds.map Prod.fst := by
    rw [hpos]
    decide
  have hprog₂ : (0,2,0) ∈ s₂.disk.programs := by
    apply List.mem_append_left
    exact List.mem_append_right _ hmem
  intro hnodup
  exact (List.nodup_append.mp hnodup).2.2 _ hprog₂ _ hmem rfl

end Sdssd.Host
