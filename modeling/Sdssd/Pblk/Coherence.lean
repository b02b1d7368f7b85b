import Sdssd.Pblk.BufferSafety

/-!
# The translation map and the data

The map names for each lba an entry of the write buffer, a sector of the device or nothing. Together with
what was last written to each lba and what the device holds this is an invariant of the write path, if
the line management and the collector do what `Relies` says and no write fails.
-/

namespace Sdssd.Pblk

open Framework

variable {δ : Type} {cfg : Config}

/-! ## What the allocation of sectors depends on -/

structure LineMgmt.SameAlloc (m m' : LineMgmt) : Prop where
  dataLine : m'.dataLine = m.dataLine
  mapBitmap : ∀ i, (m'.line i).mapBitmap = (m.line i).mapBitmap
  curSec : ∀ i, (m'.line i).curSec = (m.line i).curSec

namespace LineMgmt.SameAlloc

variable {m m' : LineMgmt}

theorem refl (m : LineMgmt) : m.SameAlloc m := ⟨rfl,fun _ => rfl,fun _ => rfl⟩

theorem trans {a b c : LineMgmt} (h : a.SameAlloc b) (k : b.SameAlloc c) : a.SameAlloc c :=
  ⟨k.dataLine.trans h.dataLine,fun i => (k.mapBitmap i).trans (h.mapBitmap i),
    fun i => (k.curSec i).trans (h.curSec i)⟩

theorem setLine {i : Nat} {l : Line} (hmap : l.mapBitmap = (m.line i).mapBitmap) (hcur : l.curSec = (m.line i).curSec) :
    m.SameAlloc (m.setLine i l) := by
  have hline : ∀ j, (m.setLine i l).line j = if j = i then l else m.line j := Function.update_apply m.line i l
  refine ⟨rfl,?_,?_⟩ <;> intro j <;> rw [hline] <;> split
  · rename_i heq
    rw [heq,hmap]
  · rfl
  · rename_i heq
    rw [heq,hcur]
  · rfl

theorem gcList {l l' : Line} {k : Option LineList} (h : pblkLineGcList cfg l = (l',k)) :
    l'.mapBitmap = l.mapBitmap ∧ l'.curSec = l.curSec := by
  have hfst : l' = (pblkLineGcList cfg l).1 := by rw [h]
  rw [hfst]
  unfold pblkLineGcList
  dsimp only
  split_ifs <;> exact ⟨rfl,rfl⟩

theorem invalidate {a : DevAddr} : m.SameAlloc (pblkPageInvalidate cfg m a) := by
  unfold pblkPageInvalidate
  dsimp only
  split
  · exact .refl m
  split
  · exact .refl m
  split
  · split
    · rename_i l k heq
      obtain ⟨hmap,hcur⟩ := gcList heq
      have hset : m.SameAlloc (m.setLine a.line l) := .setLine hmap hcur
      exact ⟨hset.dataLine,hset.mapBitmap,hset.curSec⟩
    · rename_i l heq
      obtain ⟨hmap,hcur⟩ := gcList heq
      exact .setLine hmap hcur
  · exact .setLine rfl rfl

theorem syncLine {i : Nat} : m.SameAlloc (pblkSyncLine m i) := by
  have hset : m.SameAlloc (m.setLine i { m.line i with leftSsecs := (m.line i).leftSsecs - 1 }) := .setLine rfl rfl
  unfold pblkSyncLine
  dsimp only
  split
  · exact ⟨hset.dataLine,hset.mapBitmap,hset.curSec⟩
  · exact hset

theorem padInvalidate {a : DevAddr} : m.SameAlloc (pblkPagePadInvalidate m a) := by
  refine SameAlloc.trans (SameAlloc.setLine ?_ ?_) .syncLine <;> rfl

theorem krefPutLocked {i : Nat} (h : krefPutLocked m i = some m') : m.SameAlloc m' := by
  unfold Pblk.krefPutLocked at h
  split at h
  · cases h
  · cases h
    exact .setLine rfl rfl

theorem mapSector {r : RingSize} {rb : Rb δ} {sentry mapSecs i : Nat} {a : DevAddr} :
    m.SameAlloc (mapSector r rb m sentry mapSecs i a).2 := by
  have hget : m.SameAlloc (krefGet m a.line) := .setLine rfl rfl
  unfold Pblk.mapSector
  dsimp only
  split
  · exact hget.trans (.setLine rfl rfl)
  · refine hget.trans (SameAlloc.trans (SameAlloc.setLine ?_ ?_) .padInvalidate) <;> rfl

theorem mapSectors {r : RingSize} {rb : Rb δ} {sentry mapSecs line paddr n i : Nat} :
    m.SameAlloc (mapSectors r sentry mapSecs line paddr n i rb m).2 := by
  refine mapSectors_keeps (fun _ l => m.SameAlloc l) ?_ (.refl m)
  intro a l k hl
  exact hl.trans .mapSector

end LineMgmt.SameAlloc

@[simp] theorem Map.invalidate_transMap {m : Map} {ppa : PpaAddr} : (m.invalidate cfg ppa).transMap = m.transMap := by
  cases ppa <;> rfl

theorem Map.invalidate_alloc {m : Map} {ppa : PpaAddr} : m.lines.SameAlloc (m.invalidate cfg ppa).lines := by
  cases ppa with
  | empty => exact .refl _
  | cacheline pos => exact .refl _
  | dev a =>
    change m.lines.SameAlloc (pblkPageInvalidate cfg m.lines a)
    exact .invalidate

/-! ## Sectors in use -/

namespace Ftl

/-- The `i`-th reservation is read and mapped to a sector, and the map is still to be moved there. -/
def MappedAt (cfg : Config) (s : Ftl δ) (i : Nat) (a : DevAddr) : Prop :=
  s.marks.l2p ≤ i ∧ i < s.marks.mem ∧ (s.slot cfg i).phase = some .submitted ∧ (s.slot cfg i).wCtx.ppa = .dev a

def Unused (cfg : Config) (s : Ftl δ) (a : DevAddr) : Prop :=
  (∀ lba, s.map.transMap lba ≠ .dev a) ∧ ∀ i, ¬s.MappedAt cfg i a

end Ftl

/-- Sectors are mapped in whole pages. -/
structure Line.Aligned (cfg : Config) (l : Line) : Prop where
  curSec : cfg.minWritePgs ∣ l.curSec
  mapBitmap : ∀ i, l.mapBitmap i = l.mapBitmap (i / cfg.minWritePgs * cfg.minWritePgs)

namespace Ftl

/-- The sectors the open line still gives out are not in use, and no two entries share a sector. -/
structure Addresses (cfg : Config) (s : Ftl δ) : Prop where
  cacheline : ∀ pos, (s.rwb.entries pos).cacheline = .cacheline pos
  unmapped : ∀ i, s.marks.l2p ≤ i → i < s.marks.mem → (s.slot cfg i).phase = some .written →
    (s.slot cfg i).wCtx.ppa = .empty
  aligned : ∀ d, s.map.lines.dataLine = some d → (s.map.lines.line d).Aligned cfg
  fresh : ∀ d paddr, s.map.lines.dataLine = some d → (s.map.lines.line d).mapBitmap paddr = false →
    s.Unused cfg ⟨d,paddr⟩
  inj : ∀ i j a, s.MappedAt cfg i a → s.MappedAt cfg j a → i = j
  free : ∀ i a lba, s.MappedAt cfg i a → s.map.transMap lba ≠ .dev a

/-- What the collection of a line needs until its sectors are copied: the line is not written to, and the
entries of the buffer that are mapped are elsewhere. -/
def Collectable (cfg : Config) (s : Ftl δ) (line : Nat) : Prop :=
  s.map.lines.dataLine ≠ some line ∧ ∀ i a, s.MappedAt cfg i a → a.line ≠ line

def WriterOk (cfg : Config) (s : Ftl δ) : Prop :=
  match s.writer with
  | .idle => True
  | .committed _ secs count => secs ≤ count ∨ secs = cfg.minWritePgs
  | .mapping c _ ppas => (c.nrPadded = 0 ∨ c.nrValid + c.nrPadded = cfg.minWritePgs) ∧
      cfg.minWritePgs ∣ ppas.length ∧
      ∀ j a, j < c.nrValid → ppas[j]? = some a → (s.slot cfg (s.lens.sum + j)).wCtx.ppa = .dev a

variable (cfg : Config) (content : Nat → Option δ) (media : DevAddr → Option (Nat × δ))

/-- The map leads to what was last written. -/
structure Faithful (s : Ftl δ) : Prop where
  cached : ∀ lba pos, s.map.transMap lba = .cacheline pos → ∃ i, s.marks.l2p ≤ i ∧ i < s.marks.mem ∧
    pos = cfg.ring.wrap i ∧ (s.slot cfg i).phase ≠ some .reserved ∧ (s.slot cfg i).wCtx.lba = lba ∧
    content lba = some (s.slot cfg i).data
  mapped : ∀ lba a, s.map.transMap lba = .dev a → ∃ v, media a = some (lba,v) ∧ content lba = some v
  empty : ∀ lba, s.map.transMap lba = .empty → content lba = none

/-- The device holds what the requests carried, until the map is moved there. -/
def Programmed (s : Ftl δ) : Prop :=
  ∀ k q, s.device[k]? = some q → q.sent = true → ∀ j t, q.taken[j]? = some t → s.marks.l2p ≤ offset s.lens k + j →
    ∃ a, (s.slot cfg (offset s.lens k + j)).wCtx.ppa = .dev a ∧ media a = some (t.lba,t.data)

/-- What the collector read is what the map leads to, as long as it leads to the line. -/
structure Collecting (s : Ftl δ) : Prop where
  line : ∀ j ∈ s.jobs, ∀ line, j.sector.src = .gc line → s.Collectable cfg line
  data : ∀ j ∈ s.jobs, ∀ line, j.sector.src = .gc line → ∀ a, s.map.transMap j.sector.lba = .dev a → a.line = line →
    media a = some (j.sector.lba,j.sector.data)

structure Coherent (s : Ftl δ) : Prop where
  addresses : s.Addresses cfg
  faithful : s.Faithful cfg content media
  programmed : s.Programmed cfg media
  collecting : s.Collecting cfg media
  writer : s.WriterOk cfg

end Ftl

/-- The data, the addresses and the cachelines are what they were. -/
structure Rb.SameData (rb rb' : Rb δ) : Prop where
  cacheline : ∀ pos, (rb'.entries pos).cacheline = (rb.entries pos).cacheline
  lba : ∀ pos, (rb'.entries pos).wCtx.lba = (rb.entries pos).wCtx.lba
  data : ∀ pos, (rb'.entries pos).data = (rb.entries pos).data
  ppa : ∀ pos, (rb'.entries pos).wCtx.ppa = (rb.entries pos).wCtx.ppa

namespace Rb.SameData

variable {rb rb' : Rb δ} {pos n : Nat} {r : RingSize}

theorem refl (rb : Rb δ) : rb.SameData rb := ⟨fun _ => rfl,fun _ => rfl,fun _ => rfl,fun _ => rfl⟩

theorem trans {a b c : Rb δ} (h : a.SameData b) (k : b.SameData c) : a.SameData c :=
  ⟨fun pos => (k.cacheline pos).trans (h.cacheline pos),fun pos => (k.lba pos).trans (h.lba pos),
    fun pos => (k.data pos).trans (h.data pos),fun pos => (k.ppa pos).trans (h.ppa pos)⟩

theorem of_update {e : RbEntry δ} (h : rb'.entries = Function.update rb.entries pos e)
    (hcacheline : e.cacheline = (rb.entries pos).cacheline) (hlba : e.wCtx.lba = (rb.entries pos).wCtx.lba)
    (hdata : e.data = (rb.entries pos).data) (hppa : e.wCtx.ppa = (rb.entries pos).wCtx.ppa) : rb.SameData rb' := by
  refine ⟨?_,?_,?_,?_⟩ <;> intro q <;> rw [h] <;> by_cases hq : q = pos
  · rw [hq,Function.update_self,hcacheline]
  · rw [Function.update_of_ne hq]
  · rw [hq,Function.update_self,hlba]
  · rw [Function.update_of_ne hq]
  · rw [hq,Function.update_self,hdata]
  · rw [Function.update_of_ne hq]
  · rw [hq,Function.update_self,hppa]
  · rw [Function.update_of_ne hq]

theorem readEntries {ts : List (Taken δ)} (h : readEntries r n rb pos = some (rb',ts)) : rb.SameData rb' := by
  refine readEntries_keeps (fun a => rb.SameData a) ?_ (.refl rb) h
  intro a q b t ha hread
  exact ha.trans (.of_update (readEntry_eq_some hread).2.2.1 rfl rfl rfl rfl)

theorem popBios : rb.SameData (popBios r n rb pos).1 := by
  refine popBios_keeps (fun a => rb.SameData a) ?_ (.refl rb)
  intro a q ha
  exact ha.trans (.of_update rfl rfl rfl rfl rfl)

theorem syncPointSet (r : RingSize) (rb : Rb δ) (bio pos : Nat) : rb.SameData (pblkRbSyncPointSet r rb bio pos).1 := by
  unfold pblkRbSyncPointSet
  split
  · exact .refl rb
  · exact .of_update rfl rfl rfl rfl rfl

end Rb.SameData

namespace Ftl

variable {content : Nat → Option δ} {media : DevAddr → Option (Nat × δ)} {s s' : Ftl δ} {p : Nat}

/-- No sector comes into use: a sector the map names was named, or was the one of an entry that is not
mapped any more. -/
structure Fewer (cfg : Config) (s s' : Ftl δ) : Prop where
  alloc : s.map.lines.SameAlloc s'.map.lines
  mapped : ∀ i a, s'.MappedAt cfg i a → s.MappedAt cfg i a
  lba : ∀ i a, s'.MappedAt cfg i a → (s'.slot cfg i).wCtx.lba = (s.slot cfg i).wCtx.lba
  dev : ∀ lba a, s'.map.transMap lba = .dev a → s.map.transMap lba = .dev a ∨
    ∃ i, s.MappedAt cfg i a ∧ (s.slot cfg i).wCtx.lba = lba ∧ ¬s'.MappedAt cfg i a

namespace Fewer

theorem refl (s : Ftl δ) : Fewer cfg s s := ⟨.refl _,fun _ _ h => h,fun _ _ _ => rfl,fun _ _ h => Or.inl h⟩

theorem trans {s'' : Ftl δ} (h : Fewer cfg s s') (h' : Fewer cfg s' s'') : Fewer cfg s s'' := by
  refine ⟨h.alloc.trans h'.alloc,fun i a hm => h.mapped i a (h'.mapped i a hm),
    fun i a hm => (h'.lba i a hm).trans (h.lba i a (h'.mapped i a hm)),?_⟩
  intro lba a hpos
  rcases h'.dev lba a hpos with hmid | ⟨i,hi,hlba,hgone⟩
  · rcases h.dev lba a hmid with hold | ⟨i,hi,hlba,hgone⟩
    · exact Or.inl hold
    · exact Or.inr ⟨i,hi,hlba,fun hm => hgone (h'.mapped i a hm)⟩
  · exact Or.inr ⟨i,h.mapped i a hi,(h.lba i a hi).symm.trans hlba,hgone⟩

theorem unused (h : Fewer cfg s s') {a : DevAddr} (hu : s.Unused cfg a) : s'.Unused cfg a := by
  refine ⟨?_,fun i hm => hu.2 i (h.mapped i a hm)⟩
  intro lba hpos
  rcases h.dev lba a hpos with hold | ⟨i,hi,-⟩
  · exact hu.1 lba hold
  · exact hu.2 i hi

theorem collectable (h : Fewer cfg s s') {line : Nat} (hc : s.Collectable cfg line) : s'.Collectable cfg line := by
  refine ⟨?_,fun i a hm => hc.2 i a (h.mapped i a hm)⟩
  rw [h.alloc.dataLine]
  exact hc.1

theorem addresses (h : Fewer cfg s s') (ha : s.Addresses cfg)
    (hcacheline : ∀ pos, (s'.rwb.entries pos).cacheline = (s.rwb.entries pos).cacheline)
    (hunmapped : ∀ i, s'.marks.l2p ≤ i → i < s'.marks.mem → (s'.slot cfg i).phase = some .written →
      (s'.slot cfg i).wCtx.ppa = .empty) : s'.Addresses cfg where
  cacheline pos := (hcacheline pos).trans (ha.cacheline pos)
  unmapped := hunmapped
  aligned d hd := by
    rw [h.alloc.dataLine] at hd
    obtain ⟨hcur,hmap⟩ := ha.aligned d hd
    exact ⟨by rw [h.alloc.curSec]; exact hcur,by rw [h.alloc.mapBitmap]; exact hmap⟩
  fresh d paddr hd hbit := by
    rw [h.alloc.dataLine] at hd
    rw [h.alloc.mapBitmap] at hbit
    exact h.unused (ha.fresh d paddr hd hbit)
  inj i j a hi hj := ha.inj i j a (h.mapped i a hi) (h.mapped j a hj)
  free i a lba hi hpos := by
    rcases h.dev lba a hpos with hold | ⟨k,hk,-,hgone⟩
    · exact ha.free i a lba (h.mapped i a hi) hold
    · obtain rfl := ha.inj i k a (h.mapped i a hi) hk
      exact hgone hi

/-- Jobs are either old ones, or may be added. -/
theorem collecting (h : Fewer cfg s s') (hc : s.Collecting cfg media)
    (hjobs : ∀ j ∈ s'.jobs, j ∈ s.jobs ∨ ∀ line, j.sector.src = .gc line → s.Collectable cfg line ∧
      ∀ a, s.map.transMap j.sector.lba = .dev a → a.line = line → media a = some (j.sector.lba,j.sector.data)) :
    s'.Collecting cfg media := by
  have hboth : ∀ j ∈ s'.jobs, ∀ line, j.sector.src = .gc line → s.Collectable cfg line ∧
      ∀ a, s.map.transMap j.sector.lba = .dev a → a.line = line → media a = some (j.sector.lba,j.sector.data) := by
    intro j hj line hsrc
    rcases hjobs j hj with hold | hnew
    · exact ⟨hc.line j hold line hsrc,hc.data j hold line hsrc⟩
    · exact hnew line hsrc
  refine ⟨fun j hj line hsrc => h.collectable (hboth j hj line hsrc).1,?_⟩
  intro j hj line hsrc a hpos hline
  obtain ⟨hcollect,hdata⟩ := hboth j hj line hsrc
  rcases h.dev _ a hpos with hold | ⟨i,hi,-⟩
  · exact hdata a hold hline
  · exact absurd hline (hcollect.2 i a hi)

end Fewer

/-- Steps that neither fill, map nor clean an entry. -/
structure Quiet (cfg : Config) (s s' : Ftl δ) : Prop where
  transMap : s'.map.transMap = s.map.transMap
  alloc : s.map.lines.SameAlloc s'.map.lines
  data : s.rwb.SameData s'.rwb
  phase : ∀ i, s.marks.l2p ≤ i → i < s.marks.mem → (s'.slot cfg i).phase = (s.slot cfg i).phase ∨
    (s.slot cfg i).phase = some .written ∧ (s'.slot cfg i).phase = some .submitted
  l2p : s'.marks.l2p = s.marks.l2p
  mem : s.marks.mem ≤ s'.marks.mem
  new : ∀ i, s.marks.mem ≤ i → i < s'.marks.mem → (s'.slot cfg i).phase = some .reserved

namespace Quiet

theorem of_mappedAt (h : Quiet cfg s s') (ha : s.Addresses cfg) {i : Nat} {a : DevAddr} (hm : s'.MappedAt cfg i a) :
    s.MappedAt cfg i a := by
  obtain ⟨hlow,hhigh,hphase,hppa⟩ := hm
  rw [h.l2p] at hlow
  rw [slot,h.data.ppa] at hppa
  have hold : i < s.marks.mem := by
    by_contra hge
    rw [h.new i (by omega) hhigh] at hphase
    cases hphase
  rcases h.phase i hlow hold with heq | ⟨hwritten,-⟩
  · exact ⟨hlow,hold,heq ▸ hphase,hppa⟩
  · have hempty := ha.unmapped i hlow hold hwritten
    rw [slot,hppa] at hempty
    cases hempty

theorem fewer (h : Quiet cfg s s') (ha : s.Addresses cfg) : Fewer cfg s s' where
  alloc := h.alloc
  mapped _ _ hm := h.of_mappedAt ha hm
  lba i _ _ := h.data.lba (cfg.ring.wrap i)
  dev lba a hpos := by
    rw [h.transMap] at hpos
    exact Or.inl hpos

theorem addresses (h : Quiet cfg s s') (ha : s.Addresses cfg) : s'.Addresses cfg := by
  apply (h.fewer ha).addresses ha h.data.cacheline
  intro i hlow hhigh hphase
  rw [h.l2p] at hlow
  rw [slot,h.data.ppa]
  have hold : i < s.marks.mem := by
    by_contra hge
    rw [h.new i (by omega) hhigh] at hphase
    cases hphase
  rcases h.phase i hlow hold with heq | ⟨-,hsub⟩
  · exact ha.unmapped i hlow hold (heq ▸ hphase)
  · rw [hsub] at hphase
    cases hphase

theorem faithful (h : Quiet cfg s s') (hf : s.Faithful cfg content media) : s'.Faithful cfg content media where
  cached lba pos hpos := by
    rw [h.transMap] at hpos
    obtain ⟨i,hlow,hhigh,hwrap,hphase,hlba,hdata⟩ := hf.cached lba pos hpos
    have hmem := h.mem
    refine ⟨i,by rw [h.l2p]; exact hlow,by omega,hwrap,?_,?_,?_⟩
    · rcases h.phase i hlow hhigh with heq | ⟨-,hsub⟩
      · rw [heq]
        exact hphase
      · rw [hsub]
        exact nofun
    · rw [slot,h.data.lba]
      exact hlba
    · rw [slot,h.data.data]
      exact hdata
  mapped lba a hpos := by
    rw [h.transMap] at hpos
    exact hf.mapped lba a hpos
  empty lba hpos := by
    rw [h.transMap] at hpos
    exact hf.empty lba hpos

theorem programmed (h : Quiet cfg s s') (hp : s.Programmed cfg media) (hdevice : s'.device = s.device) :
    s'.Programmed cfg media := by
  have hlens : s'.lens = s.lens := by rw [lens,lens,hdevice]
  intro k q hk hsent j t ht hlow
  rw [hdevice] at hk
  rw [hlens,h.l2p] at hlow
  rw [hlens,slot,h.data.ppa]
  exact hp k q hk hsent j t ht hlow

theorem coherent (h : Quiet cfg s s') (hc : s.Coherent cfg content media) (hdevice : s'.device = s.device)
    (hjobs : s'.jobs = s.jobs) (hwriter : s'.WriterOk cfg) : s'.Coherent cfg content media := by
  refine ⟨h.addresses hc.addresses,h.faithful hc.faithful,h.programmed hc.programmed hdevice,?_,hwriter⟩
  apply (h.fewer hc.addresses).collecting hc.collecting
  intro j hj
  rw [hjobs] at hj
  exact Or.inl hj

end Quiet

/-! ## Moving the map to the device -/

theorem updateL2pEntry_map {rb rb' : Rb δ} {m m' : Map} (h : updateL2pEntry cfg rb m = some (rb',m')) :
    ∃ a, (rb.entries rb.l2pUpdate).wCtx.ppa = .dev a ∧ m.lines.SameAlloc m'.lines ∧
      m'.transMap = if m.transMap (rb.entries rb.l2pUpdate).wCtx.lba = (rb.entries rb.l2pUpdate).cacheline
        then Function.update m.transMap (rb.entries rb.l2pUpdate).wCtx.lba (.dev a) else m.transMap := by
  unfold updateL2pEntry at h
  dsimp only at h
  split at h
  · rename_i a ha
    obtain ⟨m₁,hm₁,h⟩ := Option.bind_eq_some_iff.mp h
    obtain ⟨lines,hlines,h⟩ := Option.bind_eq_some_iff.mp h
    obtain ⟨w,-,h⟩ := Option.map_eq_some_iff.mp h
    obtain ⟨-,rfl⟩ := Prod.mk.inj h
    have hput := LineMgmt.SameAlloc.krefPutLocked hlines
    refine ⟨a,ha,?_⟩
    unfold pblkUpdateMapDev at hm₁
    rw [ha] at hm₁
    split at hm₁
    · split at hm₁
      · rename_i hmoved
        cases hm₁
        rw [if_neg hmoved.1]
        have hinvalid : m.lines.SameAlloc (m.invalidate cfg (.dev a)).lines := Map.invalidate_alloc
        exact ⟨hinvalid.trans hput,rfl⟩
      · rename_i hsame
        cases hm₁
        have heq : m.transMap (rb.entries rb.l2pUpdate).wCtx.lba = (rb.entries rb.l2pUpdate).cacheline := by
          by_contra hne
          exact hsame ⟨hne,rfl⟩
        rw [if_pos heq]
        exact ⟨hput,rfl⟩
    · cases hm₁
  · cases h

/-- The oldest entry, if it was synced, is on the device. -/
theorem Coherent.oldest (h : s.Coherent cfg content media) (hinv : s.Inv cfg p) (hlt : s.marks.l2p < s.marks.sync) :
    ∃ a, s.MappedAt cfg s.marks.l2p a ∧
      media a = some ((s.slot cfg s.marks.l2p).wCtx.lba,(s.slot cfg s.marks.l2p).data) := by
  have hsync := hinv.ordered.completions.sync
  obtain ⟨k,n,hn,hlow,hhigh⟩ := exists_segment (show s.marks.l2p < s.lens.sum by
    have hle : offset s.lens p ≤ s.lens.sum := offset_le_sum p
    omega)
  have hkp : k < p := by
    by_contra hge
    have hmono : offset s.lens p ≤ offset s.lens k := offset_mono (by omega)
    omega
  obtain ⟨q,hq,hsent⟩ := hinv.ordered.completions.sent k (hinv.inOrder.below k hkp)
  have hvalid : n = q.ctx.nrValid := by
    rw [lens,List.getElem?_map,hq,Option.map_some,Option.some_inj] at hn
    exact hn.symm
  have hj : s.marks.l2p - offset s.lens k < q.taken.length := by
    rw [hinv.ordered.length_taken hq (Or.inl hsent)]
    omega
  have ht : q.taken[s.marks.l2p - offset s.lens k]? = some q.taken[s.marks.l2p - offset s.lens k] :=
    List.getElem?_eq_getElem hj
  have hidx : offset s.lens k + (s.marks.l2p - offset s.lens k) = s.marks.l2p := by omega
  obtain ⟨hmem,hphase,hsector⟩ := hinv.ordered.slot_taken hq hsent ht (by omega)
  obtain ⟨a,hppa,hmedia⟩ := h.programmed k q hq hsent _ _ ht (by omega)
  rw [hidx] at hmem hphase hsector hppa
  refine ⟨a,⟨Nat.le_refl _,hmem,hphase,hppa⟩,?_⟩
  rw [hmedia,← hsector]
  rfl

/-- The entries the write thread is at are the only ones its state depends on. -/
theorem WriterOk.congr (h : s.WriterOk cfg) (hwriter : s'.writer = s.writer)
    (hdevice : s'.device = s.device)
    (hslot : ∀ i, s.Handed i → s.lens.sum ≤ i → (s'.slot cfg i).wCtx.ppa = (s.slot cfg i).wCtx.ppa) :
    s'.WriterOk cfg := by
  have hlens : s'.lens = s.lens := by rw [lens,lens,hdevice]
  unfold WriterOk at h ⊢
  rw [hwriter]
  cases hw : s.writer with
  | idle => trivial
  | committed pos secs count =>
    rw [hw] at h
    exact h
  | mapping c taken ppas =>
    rw [hw] at h
    obtain ⟨hpad,hdvd,hppas⟩ := h
    refine ⟨hpad,hdvd,?_⟩
    intro j b hj hb
    rw [hlens,hslot _ (Or.inr ⟨c,taken,ppas,hw,Nat.le_add_right _ _,Nat.add_lt_add_left hj _⟩) (Nat.le_add_right _ _)]
    exact hppas j b hj hb

/-- The oldest entry has been cleaned, and its lba moved to `a` if the map still named the entry. -/
structure Cleaned (cfg : Config) (s s' : Ftl δ) (a : DevAddr) : Prop where
  mapped : s.MappedAt cfg s.marks.l2p a
  l2p : s'.marks.l2p = s.marks.l2p + 1
  mem : s'.marks.mem = s.marks.mem
  slot : ∀ i, s.marks.l2p < i → i < s.marks.mem → s'.slot cfg i = s.slot cfg i
  cacheline : ∀ pos, (s'.rwb.entries pos).cacheline = (s.rwb.entries pos).cacheline
  alloc : s.map.lines.SameAlloc s'.map.lines
  transMap : ∀ lba, s'.map.transMap lba = s.map.transMap lba ∧
      s.map.transMap lba ≠ .cacheline (cfg.ring.wrap s.marks.l2p) ∨
    lba = (s.slot cfg s.marks.l2p).wCtx.lba ∧ s.map.transMap lba = .cacheline (cfg.ring.wrap s.marks.l2p) ∧
      s'.map.transMap lba = .dev a
  device : s'.device = s.device
  jobs : s'.jobs = s.jobs
  writer : s'.writer = s.writer

namespace Cleaned

variable {a : DevAddr}

theorem of_mappedAt (h : Cleaned cfg s s' a) {i : Nat} {b : DevAddr} (hm : s'.MappedAt cfg i b) :
    s.MappedAt cfg i b ∧ i ≠ s.marks.l2p := by
  obtain ⟨hlow,hhigh,hphase,hppa⟩ := hm
  rw [h.l2p] at hlow
  rw [h.mem] at hhigh
  rw [h.slot i hlow hhigh] at hphase hppa
  exact ⟨⟨Nat.le_of_succ_le hlow,hhigh,hphase,hppa⟩,Nat.ne_of_gt hlow⟩

/-- A sector the map names was named before, or is the one the map has been moved to. -/
theorem of_dev (h : Cleaned cfg s s' a) {lba : Nat} {b : DevAddr} (hpos : s'.map.transMap lba = .dev b) :
    s.map.transMap lba = .dev b ∨ b = a ∧ lba = (s.slot cfg s.marks.l2p).wCtx.lba ∧
      s.map.transMap lba = .cacheline (cfg.ring.wrap s.marks.l2p) := by
  rcases h.transMap lba with ⟨heq,-⟩ | ⟨hlba,hcached,hdev⟩
  · exact Or.inl (heq ▸ hpos)
  · rw [hdev] at hpos
    cases hpos
    exact Or.inr ⟨rfl,hlba,hcached⟩

theorem fewer (h : Cleaned cfg s s' a) : Fewer cfg s s' where
  alloc := h.alloc
  mapped _ _ hm := (h.of_mappedAt hm).1
  lba i b hm := by
    obtain ⟨⟨hlow,hhigh,-,-⟩,hne⟩ := h.of_mappedAt hm
    rw [h.slot i (by omega) hhigh]
  dev lba b hpos := by
    rcases h.of_dev hpos with hold | ⟨rfl,hlba,-⟩
    · exact Or.inl hold
    · exact Or.inr ⟨_,h.mapped,hlba.symm,fun hm => (h.of_mappedAt hm).2 rfl⟩

theorem addresses (h : Cleaned cfg s s' a) (ha : s.Addresses cfg) : s'.Addresses cfg := by
  apply h.fewer.addresses ha h.cacheline
  intro i hlow hhigh hphase
  rw [h.l2p] at hlow
  rw [h.mem] at hhigh
  rw [h.slot i hlow hhigh] at hphase ⊢
  exact ha.unmapped i (Nat.le_of_succ_le hlow) hhigh hphase

theorem faithful (h : Cleaned cfg s s' a) (hcur : s.Cursors cfg) (hf : s.Faithful cfg content media)
    (hmedia : media a = some ((s.slot cfg s.marks.l2p).wCtx.lba,(s.slot cfg s.marks.l2p).data)) :
    s'.Faithful cfg content media where
  cached lba pos hpos := by
    rcases h.transMap lba with ⟨heq,hne⟩ | ⟨-,-,hdev⟩
    · rw [heq] at hpos
      obtain ⟨i,hlow,hhigh,rfl,hphase,hlba,hdata⟩ := hf.cached lba pos hpos
      have hi : s.marks.l2p < i := by
        rcases Nat.eq_or_lt_of_le hlow with rfl | hlt
        · exact absurd hpos hne
        · exact hlt
      have hslot := h.slot i hi hhigh
      exact ⟨i,by rw [h.l2p]; exact hi,by rw [h.mem]; exact hhigh,rfl,by rw [hslot]; exact hphase,
        by rw [hslot]; exact hlba,by rw [hslot]; exact hdata⟩
    · rw [hdev] at hpos
      cases hpos
  mapped lba b hpos := by
    rcases h.of_dev hpos with hold | ⟨rfl,rfl,hcached⟩
    · exact hf.mapped lba b hold
    · obtain ⟨hl2p,hsync,hsubm,hbound,-,-,-,-⟩ := hcur
      obtain ⟨i,hlow,hhigh,hwrap,-,-,hdata⟩ := hf.cached _ _ hcached
      obtain rfl : s.marks.l2p = i := RingSize.wrap_inj (Nat.le_refl _) (by omega) hlow (by omega) hwrap
      exact ⟨_,hmedia,hdata⟩
  empty lba hpos := by
    rcases h.transMap lba with ⟨heq,-⟩ | ⟨-,-,hdev⟩
    · exact hf.empty lba (heq ▸ hpos)
    · rw [hdev] at hpos
      cases hpos

theorem programmed (h : Cleaned cfg s s' a) (hord : s.Ordered cfg p) (hp : s.Programmed cfg media) :
    s'.Programmed cfg media := by
  have hlens : s'.lens = s.lens := by rw [lens,lens,h.device]
  intro k q hq hsent j t ht hlow
  rw [h.device] at hq
  rw [hlens,h.l2p] at hlow
  obtain ⟨hmem,-,-⟩ := hord.slot_taken hq hsent ht (Nat.le_of_succ_le hlow)
  rw [hlens,h.slot _ hlow hmem]
  exact hp k q hq hsent j t ht (Nat.le_of_succ_le hlow)

theorem collecting (h : Cleaned cfg s s' a) (hc : s.Collecting cfg media) : s'.Collecting cfg media := by
  apply h.fewer.collecting hc
  intro j hj
  exact Or.inl (h.jobs ▸ hj)

theorem writerOk (h : Cleaned cfg s s' a) (hord : s.Ordered cfg p) (hlt : s.marks.l2p < s.marks.sync)
    (hw : s.WriterOk cfg) : s'.WriterOk cfg := by
  apply hw.congr h.writer h.device
  intro i hhanded hi
  have hle : s.marks.sync ≤ s.lens.sum := by
    rw [hord.completions.sync]
    exact offset_le_sum p
  have hhigh := Nat.lt_of_lt_of_le (hord.requests.handed_lt hhanded) hord.cursors.subm_le
  rw [h.slot i (by omega) hhigh]

end Cleaned

theorem Coherent.cleaned (h : s.Coherent cfg content media) (hinv : s.Inv cfg p)
    (hlt : s.marks.l2p < s.marks.sync) {rb : Rb δ} {m : Map} (hup : updateL2pEntry cfg s.rwb s.map = some (rb,m)) :
    ∃ a, Cleaned cfg s { s with rwb := rb, map := m, marks := { s.marks with l2p := s.marks.l2p + 1 } } a ∧
      media a = some ((s.slot cfg s.marks.l2p).wCtx.lba,(s.slot cfg s.marks.l2p).data) := by
  obtain ⟨hl2p,hsync,hsubm,hbound,hl2pEq,-,-,-⟩ := hinv.ordered.cursors
  obtain ⟨-,hentries,-,-,-,-⟩ := updateL2pEntry_eq_some hup
  obtain ⟨a,hppa,halloc,htrans⟩ := updateL2pEntry_map hup
  rw [hl2pEq] at hentries hppa htrans
  obtain ⟨b,hmapped,hmedia⟩ := h.oldest hinv hlt
  obtain rfl : b = a := by
    have heq := hmapped.2.2.2
    rw [slot,hppa] at heq
    cases heq
    rfl
  refine ⟨b,⟨hmapped,rfl,rfl,?_,?_,halloc,?_,rfl,rfl,rfl⟩,hmedia⟩
  · intro i hi hi'
    change rb.entries (cfg.ring.wrap i) = _
    rw [hentries]
    exact Function.update_of_ne (RingSize.wrap_ne (l := s.marks.l2p) (by omega) (by omega) (by omega) (by omega) (by omega)) _ _
  · intro pos
    change (rb.entries pos).cacheline = _
    rw [hentries]
    by_cases hpos : pos = cfg.ring.wrap s.marks.l2p
    · rw [hpos,Function.update_self]
      rfl
    · rw [Function.update_of_ne hpos]
  · intro lba
    have hline := h.addresses.cacheline (cfg.ring.wrap s.marks.l2p)
    change m.transMap lba = _ ∧ _ ∨ lba = (s.rwb.entries (cfg.ring.wrap s.marks.l2p)).wCtx.lba ∧ _ ∧ m.transMap lba = _
    rw [htrans,hline]
    by_cases hlba : lba = (s.rwb.entries (cfg.ring.wrap s.marks.l2p)).wCtx.lba
    · subst hlba
      split
      · rename_i heq
        exact Or.inr ⟨rfl,heq,Function.update_self ..⟩
      · rename_i hne
        exact Or.inl ⟨rfl,hne⟩
    · -- another lba that named the entry would be the lba of the entry
      have hne : s.map.transMap lba ≠ .cacheline (cfg.ring.wrap s.marks.l2p) := by
        intro hpos
        obtain ⟨i,hlow,hhigh,hwrap,-,hsame,-⟩ := h.faithful.cached lba _ hpos
        obtain rfl : s.marks.l2p = i := RingSize.wrap_inj (Nat.le_refl _) (by omega) hlow (by omega) hwrap
        exact hlba hsame.symm
      refine Or.inl ⟨?_,hne⟩
      split
      · exact Function.update_of_ne hlba _ _
      · rfl

theorem Coherent.releaseOne (h : s.Coherent cfg content media) (hinv : s.Inv cfg p)
    (hlt : s.marks.l2p < s.marks.sync) {rb : Rb δ} {m : Map} (hup : updateL2pEntry cfg s.rwb s.map = some (rb,m))
    (hs' : s' = { s with rwb := rb, map := m, marks := { s.marks with l2p := s.marks.l2p + 1 } }) :
    Fewer cfg s s' ∧ s'.Coherent cfg content media := by
  subst hs'
  obtain ⟨a,hclean,hmedia⟩ := h.cleaned hinv hlt hup
  exact ⟨hclean.fewer,hclean.addresses h.addresses,hclean.faithful hinv.ordered.cursors h.faithful hmedia,
    hclean.programmed hinv.ordered h.programmed,hclean.collecting h.collecting,
    hclean.writerOk hinv.ordered hlt h.writer⟩

/-- The rule for the loop of `__pblk_rb_update_l2p`. -/
theorem Inv.release_rule (P : Ftl δ → Prop)
    (hP : ∀ {t t' : Ftl δ} {rb : Rb δ} {m : Map}, t.Inv cfg p → P t → t.marks.l2p < t.marks.sync →
      updateL2pEntry cfg t.rwb t.map = some (rb,m) →
      t' = { t with rwb := rb, map := m, marks := { t.marks with l2p := t.marks.l2p + 1 } } → P t')
    (hinv : s.Inv cfg p) (h : P s) {c : Nat} {rb : Rb δ} {m : Map} (hc : s.marks.l2p + c ≤ s.marks.sync)
    (hup : updateL2p cfg c s.rwb s.map = some (rb,m))
    (hs' : s' = { s with rwb := rb, map := m, marks := { s.marks with l2p := s.marks.l2p + c } }) : P s' := by
  induction c generalizing s with
  | zero =>
    obtain ⟨rfl,rfl⟩ := Prod.mk.inj (Option.some.inj hup)
    subst hs'
    exact h
  | succ c ih =>
    rw [updateL2p] at hup
    obtain ⟨⟨rb₁,m₁⟩,hentry,hrest⟩ := Option.bind_eq_some_iff.mp hup
    have hone : updateL2p cfg 1 s.rwb s.map = some (rb₁,m₁) := by simp [updateL2p,hentry]
    have hinv₁ : ({ s with rwb := rb₁, map := m₁, marks := { s.marks with l2p := s.marks.l2p + 1 } } : Ftl δ).Inv cfg p :=
      ⟨hinv.ordered.release (by omega) hone,hinv.inOrder⟩
    have hadd : s.marks.l2p + 1 + c = s.marks.l2p + (c + 1) := by omega
    apply ih hinv₁ (hP hinv h (by omega) hentry rfl) _ hrest
    · rw [hs']
      dsimp only
      rw [hadd]
    · change s.marks.l2p + 1 + c ≤ s.marks.sync
      omega

theorem Coherent.release (h : s.Coherent cfg content media) (hinv : s.Inv cfg p) {c : Nat} {rb : Rb δ} {m : Map}
    (hc : s.marks.l2p + c ≤ s.marks.sync) (hup : updateL2p cfg c s.rwb s.map = some (rb,m))
    (hs' : s' = { s with rwb := rb, map := m, marks := { s.marks with l2p := s.marks.l2p + c } }) :
    Fewer cfg s s' ∧ s'.Coherent cfg content media := by
  refine hinv.release_rule (fun t => Fewer cfg s t ∧ t.Coherent cfg content media) ?_ ⟨.refl s,h⟩ hc hup hs'
  intro t t' rb m hinv ht hlt hentry ht'
  obtain ⟨hfewer,hcoherent⟩ := ht.2.releaseOne hinv hlt hentry ht'
  exact ⟨ht.1.trans hfewer,hcoherent⟩

/-! ## Copies -/

/-- A sector was copied to a reserved entry; the map names the entry now, or it is as it was. -/
structure Filled (cfg : Config) (s s' : Ftl δ) (i : Nat) (x : Sector δ) (named : Prop) : Prop where
  low : s.marks.l2p ≤ i
  high : i < s.marks.mem
  reserved : (s.slot cfg i).phase = some .reserved
  self : s'.slot cfg i = (s.slot cfg i).write x
  slot : ∀ j, s.marks.l2p ≤ j → j < s.marks.mem → j ≠ i → s'.slot cfg j = s.slot cfg j
  cacheline : ∀ pos, (s'.rwb.entries pos).cacheline = (s.rwb.entries pos).cacheline
  alloc : s.map.lines.SameAlloc s'.map.lines
  transMap : ∀ lba, s'.map.transMap lba = s.map.transMap lba ∧ (lba = x.lba → ¬named) ∨
    lba = x.lba ∧ named ∧ s'.map.transMap lba = .cacheline (cfg.ring.wrap i)
  l2p : s'.marks.l2p = s.marks.l2p
  mem : s'.marks.mem = s.marks.mem
  device : s'.device = s.device
  jobs : s'.jobs ⊆ s.jobs
  writer : s'.writer = s.writer

namespace Filled

variable {i : Nat} {x : Sector δ} {named : Prop}

theorem of_mappedAt (h : Filled cfg s s' i x named) {j : Nat} {b : DevAddr} (hm : s'.MappedAt cfg j b) :
    s.MappedAt cfg j b := by
  obtain ⟨hlow,hhigh,hphase,hppa⟩ := hm
  rw [h.l2p] at hlow
  rw [h.mem] at hhigh
  by_cases hj : j = i
  · rw [hj,h.self,RbEntry.write_phase] at hphase
    cases hphase
  · rw [h.slot j hlow hhigh hj] at hphase hppa
    exact ⟨hlow,hhigh,hphase,hppa⟩

theorem of_dev (h : Filled cfg s s' i x named) {lba : Nat} {b : DevAddr} (hpos : s'.map.transMap lba = .dev b) :
    s.map.transMap lba = .dev b := by
  rcases h.transMap lba with ⟨heq,-⟩ | ⟨-,-,hline⟩
  · exact heq ▸ hpos
  · rw [hline] at hpos
    cases hpos

/-- Entries that are read already are not the one that is filled. -/
theorem slot_submitted (h : Filled cfg s s' i x named) {j : Nat} (hlow : s.marks.l2p ≤ j) (hhigh : j < s.marks.mem)
    (hphase : (s.slot cfg j).phase = some .submitted) : s'.slot cfg j = s.slot cfg j := by
  apply h.slot j hlow hhigh
  rintro rfl
  rw [h.reserved] at hphase
  cases hphase

theorem fewer (h : Filled cfg s s' i x named) : Fewer cfg s s' where
  alloc := h.alloc
  mapped _ _ hm := h.of_mappedAt hm
  lba j b hm := by
    obtain ⟨hlow,hhigh,hphase,-⟩ := h.of_mappedAt hm
    rw [h.slot_submitted hlow hhigh hphase]
  dev _ _ hpos := Or.inl (h.of_dev hpos)

theorem addresses (h : Filled cfg s s' i x named) (ha : s.Addresses cfg) : s'.Addresses cfg := by
  apply h.fewer.addresses ha h.cacheline
  intro j hlow hhigh hphase
  rw [h.l2p] at hlow
  rw [h.mem] at hhigh
  by_cases hj : j = i
  · rw [hj,h.self]
    rfl
  · rw [h.slot j hlow hhigh hj] at hphase ⊢
    exact ha.unmapped j hlow hhigh hphase

theorem faithful (h : Filled cfg s s' i x named) (hf : s.Faithful cfg content media) {content' : Nat → Option δ}
    (hother : ∀ lba, lba ≠ x.lba ∨ ¬named → content' lba = content lba) (hself : named → content' x.lba = some x.data) :
    s'.Faithful cfg content' media where
  cached lba pos hpos := by
    rcases h.transMap lba with ⟨heq,hunnamed⟩ | ⟨rfl,hnamed,hline⟩
    · rw [heq] at hpos
      obtain ⟨j,hlow,hhigh,hwrap,hphase,hlba,hdata⟩ := hf.cached lba pos hpos
      have hj : j ≠ i := by
        rintro rfl
        exact hphase h.reserved
      have hslot := h.slot j hlow hhigh hj
      refine ⟨j,by rw [h.l2p]; exact hlow,by rw [h.mem]; exact hhigh,hwrap,by rw [hslot]; exact hphase,
        by rw [hslot]; exact hlba,?_⟩
      rw [hslot,hother lba]
      · exact hdata
      · by_cases hx : lba = x.lba
        · exact Or.inr (hunnamed hx)
        · exact Or.inl hx
    · rw [hline] at hpos
      cases hpos
      refine ⟨i,by rw [h.l2p]; exact h.low,by rw [h.mem]; exact h.high,rfl,?_,?_,?_⟩
      · rw [h.self,RbEntry.write_phase]
        exact nofun
      · rw [h.self]
        rfl
      · rw [h.self]
        exact hself hnamed
  mapped lba b hpos := by
    obtain ⟨v,hmedia,hcontent⟩ := hf.mapped lba b (h.of_dev hpos)
    refine ⟨v,hmedia,?_⟩
    rw [hother lba]
    · exact hcontent
    · rcases h.transMap lba with ⟨-,hunnamed⟩ | ⟨-,-,hline⟩
      · by_cases hx : lba = x.lba
        · exact Or.inr (hunnamed hx)
        · exact Or.inl hx
      · rw [hline] at hpos
        cases hpos
  empty lba hpos := by
    rcases h.transMap lba with ⟨heq,hunnamed⟩ | ⟨-,-,hline⟩
    · rw [hother lba]
      · exact hf.empty lba (heq ▸ hpos)
      · by_cases hx : lba = x.lba
        · exact Or.inr (hunnamed hx)
        · exact Or.inl hx
    · rw [hline] at hpos
      cases hpos

theorem programmed (h : Filled cfg s s' i x named) (hord : s.Ordered cfg p) (hp : s.Programmed cfg media) :
    s'.Programmed cfg media := by
  have hlens : s'.lens = s.lens := by rw [lens,lens,h.device]
  intro k q hq hsent j t ht hlow
  rw [h.device] at hq
  rw [hlens,h.l2p] at hlow
  obtain ⟨hmem,hphase,-⟩ := hord.slot_taken hq hsent ht hlow
  rw [hlens,h.slot_submitted hlow hmem hphase]
  exact hp k q hq hsent j t ht hlow

theorem collecting (h : Filled cfg s s' i x named) (hc : s.Collecting cfg media) : s'.Collecting cfg media := by
  apply h.fewer.collecting hc
  intro j hj
  exact Or.inl (h.jobs hj)

theorem writerOk (h : Filled cfg s s' i x named) (hord : s.Ordered cfg p) (hw : s.WriterOk cfg) : s'.WriterOk cfg := by
  apply hw.congr h.writer h.device
  intro j hhanded hj
  have hlow : s.marks.l2p ≤ j := Nat.le_trans hord.l2p_le_sum hj
  have hhigh := Nat.lt_of_lt_of_le (hord.requests.handed_lt hhanded) hord.cursors.subm_le
  rw [h.slot_submitted hlow hhigh (hord.slots.handed j hlow hhanded)]

theorem coherent (h : Filled cfg s s' i x named) (hord : s.Ordered cfg p) (hc : s.Coherent cfg content media)
    {content' : Nat → Option δ} (hother : ∀ lba, lba ≠ x.lba ∨ ¬named → content' lba = content lba)
    (hself : named → content' x.lba = some x.data) : s'.Coherent cfg content' media :=
  ⟨h.addresses hc.addresses,h.faithful hc.faithful hother hself,h.programmed hord hc.programmed,
    h.collecting hc.collecting,h.writerOk hord hc.writer⟩

end Filled

theorem Coherent.insert (h : s.Coherent cfg content media) (hord : s.Ordered cfg p) {j : Nat}
    (hi : s.insert cfg j = some s') :
    ∃ pos x, s.jobs[j]? = some ⟨pos,x⟩ ∧ Fewer cfg s s' ∧ s'.Coherent cfg
      (if x.src = .user then Function.update content x.lba (some x.data) else content) media := by
  obtain ⟨pos,x,m,hj,-,hm,rfl⟩ := insert_effect hi
  have hmem : (⟨pos,x⟩ : Job δ) ∈ s.jobs := List.mem_of_getElem? hj
  obtain ⟨i,hlow,hhigh,hpos,-,hphase⟩ := hord.slots.jobs _ hmem
  obtain ⟨hl2p,hsync,hsubm,hbound,-,-,-,-⟩ := hord.cursors
  dsimp only at hpos
  subst hpos
  have hline : (s.rwb.entries (cfg.ring.wrap i)).cacheline = .cacheline (cfg.ring.wrap i) := h.addresses.cacheline _
  rw [hline] at hm
  have hself : (s.rwb.setEntry (cfg.ring.wrap i) ((s.slot cfg i).write x)).entries (cfg.ring.wrap i) =
      (s.slot cfg i).write x := Rb.entries_setEntry_self _
  have hslot : ∀ k, s.marks.l2p ≤ k → k < s.marks.mem → k ≠ i →
      (s.rwb.setEntry (cfg.ring.wrap i) ((s.slot cfg i).write x)).entries (cfg.ring.wrap k) = s.slot cfg k := by
    intro k hk hk' hne
    exact Rb.entries_setEntry_of_ne _ (RingSize.wrap_ne hk (by omega) hlow (by omega) hne)
  have hcacheline : ∀ q, ((s.rwb.setEntry (cfg.ring.wrap i) ((s.slot cfg i).write x)).entries q).cacheline =
      (s.rwb.entries q).cacheline := by
    intro q
    rw [Rb.entries_setEntry]
    split
    · rename_i heq
      rw [heq]
      rfl
    · rfl
  have hfill : ∀ named : Prop, s.map.lines.SameAlloc m.lines →
      (∀ lba, m.transMap lba = s.map.transMap lba ∧ (lba = x.lba → ¬named) ∨
        lba = x.lba ∧ named ∧ m.transMap lba = .cacheline (cfg.ring.wrap i)) →
      Filled cfg s { s with rwb := s.rwb.setEntry (cfg.ring.wrap i) ((s.slot cfg i).write x), map := m,
                            jobs := s.jobs.eraseIdx j } i x named := by
    intro named halloc htrans
    exact ⟨hlow,hhigh,hphase,hself,hslot,hcacheline,halloc,htrans,rfl,rfl,rfl,
      (List.eraseIdx_sublist s.jobs j).subset,rfl⟩
  refine ⟨_,x,hj,?_⟩
  cases hsrc : x.src with
  | user =>
    rw [hsrc] at hm
    dsimp only at hm
    unfold pblkUpdateMapCache at hm
    split at hm
    · cases hm
      rw [if_pos rfl]
      have hfilled := hfill True Map.invalidate_alloc ?_
      · refine ⟨hfilled.fewer,hfilled.coherent hord h ?_ ?_⟩
        · intro lba hne
          rw [not_true,or_false] at hne
          exact Function.update_of_ne hne _ _
        · intro _
          exact Function.update_self ..
      · intro lba
        change Function.update (s.map.invalidate cfg _).transMap x.lba _ lba = _ ∧ _ ∨ _
        rw [Map.invalidate_transMap]
        by_cases hlba : lba = x.lba
        · refine Or.inr ⟨hlba,trivial,?_⟩
          rw [hlba]
          exact Function.update_self ..
        · exact Or.inl ⟨Function.update_of_ne hlba _ _,fun heq => absurd heq hlba⟩
    · cases hm
  | gc line =>
    rw [hsrc] at hm
    rw [if_neg nofun]
    cases hm
    -- the map follows only if it still leads to the line
    have hfilled := hfill (∃ a, s.map.transMap x.lba = .dev a ∧ a.line = line) ?_ ?_
    · refine ⟨hfilled.fewer,hfilled.coherent hord h (fun _ _ => rfl) ?_⟩
      rintro ⟨a,ha,hline⟩
      obtain ⟨v,hv,hcontent⟩ := h.faithful.mapped _ a ha
      rw [h.collecting.data _ hmem line hsrc a ha hline] at hv
      cases hv
      exact hcontent
    · unfold pblkUpdateMapGc
      split
      · split <;> exact .refl _
      · exact .refl _
    · intro lba
      unfold pblkUpdateMapGc
      split
      · rename_i a ha
        split
        · rename_i hline
          by_cases hlba : lba = x.lba
          · refine Or.inr ⟨hlba,⟨a,ha,hline⟩,?_⟩
            rw [hlba]
            exact Function.update_self ..
          · exact Or.inl ⟨Function.update_of_ne hlba _ _,fun heq => absurd heq hlba⟩
        · rename_i hline
          refine Or.inl ⟨rfl,?_⟩
          rintro - ⟨b,hb,hbline⟩
          rw [ha] at hb
          cases hb
          exact hline hbline
      · rename_i hnot
        refine Or.inl ⟨rfl,?_⟩
        rintro - ⟨b,hb,-⟩
        exact hnot b hb

end Ftl

end Sdssd.Pblk
