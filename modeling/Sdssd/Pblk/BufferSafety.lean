import Sdssd.Pblk.BufferRun

/-!
# What the write buffer guarantees

The results hold after every run from `pblk_init`, for any interleaving of the callers, the write
thread, the device and the line management.
-/

namespace Sdssd.Pblk

open Framework

variable {δ : Type} {cfg : Config} {pages : Nat → δ} {lines : LineMgmt} {rl : Rl} {s : Ftl δ}

theorem Ftl.exists_inv (h : Reaches (step cfg) always (Ftl.init pages lines rl) s) : ∃ p, s.Inv cfg p := by
  obtain ⟨p,-,hinv,-⟩ := Ftl.Inv.reaches .trivial (fun _ _ _ _ => True.intro) (Ftl.Inv.init pages lines rl) True.intro h
  exact ⟨p,hinv⟩

/-! ## A run with an answer out of order -/

theorem smallOrder_lt : 3 < 32 := by decide

/-- A buffer of eight entries whose requests have two sectors. -/
def smallConfig : Config where
  ring := ⟨3,smallOrder_lt⟩
  nrSecs := 16
  minWritePgs := 2
  maxWritePgs := 2
  secPerLine := 8
  emetaSec := 0
  midThrs := 2
  highThrs := 4
  min_pos := Nat.zero_lt_two
  min_le_max := Nat.le_refl 2

def smallLines : LineMgmt where
  line := fun _ =>
    { state := .opened, gcGroup := .none, secInLine := 8, mapBitmap := fun _ => false, invalidBitmap := fun _ => false
      lbaList := fun _ => none, leftMsecs := 8, leftSsecs := 8, curSec := 0, vsc := 8, ref := 1 }
  lists := fun _ => []
  dataLine := some 0
  dataNext := none
  closing := []

def smallRl : Rl :=
  { highPw := 1, lowPw := 0, rbWindowsPw := 0, rbBudget := 8, rbUserMax := 8, rbUserCnt := 0, rbGcMax := 0, rbGcRsv := 0
    rbGcCnt := 0, rbUserActive := false, freeBlocks := 4 }

def smallInit : Ftl Nat := Ftl.init (fun _ => 0) smallLines smallRl

/-- Four sectors go out in two requests, the second is answered first, and two more entries are reserved. -/
def smallRun : List (Event Nat) :=
  [.writeUser ⟨0,0,[10,11,12,13],true,false⟩,.insert 0,.insert 0,.insert 0,.insert 0,.commit,.read,.mapPage,.send true,
    .commit,.read,.mapPage,.send true,.answer 1 none true,.writeUser ⟨1,0,[20,21],true,false⟩]

theorem smallRun_isSome : (smallRun.foldlM (step smallConfig) smallInit).isSome = true := by decide

def smallState : Ftl Nat := (smallRun.foldlM (step smallConfig) smallInit).get smallRun_isSome

theorem smallState_reaches : Reaches (step smallConfig) always smallInit smallState :=
  Reaches.of_foldlM (Option.some_get smallRun_isSome).symm

/-! ## Results -/

/-- The cursors stay in order within one revolution, so that the distances computed from the masked
positions are exact, and an entry is still writable when its caller comes to copy the sector. -/
theorem cursors_within_revolution (h : Reaches (step cfg) always (Ftl.init pages lines rl) s) :
    s.marks.l2p ≤ s.marks.sync ∧ s.marks.sync ≤ s.marks.subm ∧ s.marks.subm ≤ s.marks.mem ∧
      s.marks.mem < s.marks.l2p + cfg.ring.cells ∧
      pblkRbSpace cfg.ring s.rwb = cfg.ring.cells - 1 - (s.marks.mem - s.marks.sync) ∧
      pblkRbReadCount cfg.ring s.rwb = s.marks.mem - s.marks.subm ∧
      ∀ job ∈ s.jobs, (pblkRbWriteEntry s.rwb job.sector.data job.sector.lba (some job.sector.src.iotype)
        job.pos).isSome := by
  obtain ⟨p,hinv⟩ := Ftl.exists_inv h
  obtain ⟨hl2p,hsync,hsubm,hlt,hl2pEq,hsyncEq,hsubmEq,hmemEq⟩ := hinv.ordered.cursors
  refine ⟨hl2p,hsync,hsubm,hlt,?_,?_,?_⟩
  · rw [pblkRbSpace,hmemEq,hsyncEq]
    exact RingSize.space_wrap (by omega) (by omega)
  · rw [pblkRbReadCount,hmemEq,hsubmEq]
    exact RingSize.count_wrap hsubm (by omega)
  · intro job hjob
    obtain ⟨i,-,-,hpos,-,hphase⟩ := hinv.ordered.slots.jobs job hjob
    have hwritable := RbEntry.phase_reserved hphase
    rw [Ftl.slot,← hpos] at hwritable
    simp [pblkRbWriteEntry,hwritable]

theorem cursors_within_revolution_small : smallState.jobs.map Job.pos = [4,5] ∧
    ∀ job ∈ smallState.jobs, (pblkRbWriteEntry smallState.rwb job.sector.data job.sector.lba
      (some job.sector.src.iotype) job.pos).isSome := by
  refine ⟨by decide,?_⟩
  exact (cursors_within_revolution smallState_reaches).2.2.2.2.2.2

theorem Ftl.Ordered.length_taken {p : Nat} (h : s.Ordered cfg p) {k : Nat} {q : WReq δ} (hk : s.device[k]? = some q)
    (hq : q.sent = true ∨ q.taken ≠ []) : q.taken.length = q.ctx.nrValid := by
  have hslice := congrArg List.length (h.fifo.device k q hk hq)
  have hle := Ftl.offset_add_le hk
  have hsubm := h.requests.subm
  have hmem := h.cursors.subm_le
  have haccepted := h.slots.length
  simp only [Ftl.slice,List.length_map,List.length_take,List.length_drop] at hslice
  omega

theorem Ftl.Ordered.taken_eq {p : Nat} (h : s.Ordered cfg p) (hsent : ∀ q ∈ s.device, q.sent = true) :
    (s.device.flatMap fun q => q.taken.map some) = (s.accepted.take s.lens.sum).map (Option.map Sector.taken) := by
  have hlens : s.lens = (s.device.map fun q => q.taken.map some).map List.length := by
    rw [Ftl.lens,List.map_map]
    apply List.map_congr_left
    intro q hq
    obtain ⟨k,hk⟩ := List.mem_iff_getElem?.mp hq
    simp [h.length_taken hk (Or.inl (hsent q hq))]
  rw [List.flatMap_def,List.map_take]
  apply flatten_eq_take hlens
  intro k xs hk
  rw [List.getElem?_map] at hk
  obtain ⟨q,hq,rfl⟩ := Option.map_eq_some_iff.mp hk
  have hs := hsent q (List.mem_of_getElem? hq)
  rw [List.length_map,h.length_taken hq (Or.inl hs),← List.map_drop,← List.map_take]
  exact h.fifo.device k q hq (Or.inl hs)

/-- As long as no request was lost, the requests carry the sectors in the order in which their entries
were reserved, each exactly once. -/
theorem requests_fifo (h : Reaches (step cfg) always (Ftl.init pages lines rl) s)
    (hsent : ∀ q ∈ s.device, q.sent = true) :
    (s.device.flatMap fun q => q.taken.map some) =
      (s.accepted.take (s.device.map fun q => q.ctx.nrValid).sum).map (Option.map Sector.taken) := by
  obtain ⟨p,hinv⟩ := Ftl.exists_inv h
  exact hinv.ordered.taken_eq hsent

theorem requests_fifo_small : (smallState.device.flatMap fun q => q.taken.map some) =
    (smallState.accepted.take 4).map (Option.map Sector.taken) :=
  requests_fifo smallState_reaches (by decide)

/-- The entries of a request that was sent hold what it carries. -/
theorem Ftl.Ordered.slot_taken {p : Nat} (h : s.Ordered cfg p) {k j : Nat} {q : WReq δ} {t : Taken δ}
    (hq : s.device[k]? = some q) (hsent : q.sent = true) (ht : q.taken[j]? = some t)
    (hlow : s.marks.l2p ≤ offset s.lens k + j) : offset s.lens k + j < s.marks.mem ∧
      (s.slot cfg (offset s.lens k + j)).phase = some .submitted ∧ (s.slot cfg (offset s.lens k + j)).sector = t := by
  have hslice := h.fifo.device k q hq (Or.inl hsent)
  have hj : j < q.ctx.nrValid := by
    rw [← h.length_taken hq (Or.inl hsent)]
    exact (List.getElem?_eq_some_iff.mp ht).1
  have hhanded : s.Handed (offset s.lens k + j) := Or.inl ⟨k,q,hq,hsent,by omega,by omega⟩
  have hhigh := Nat.lt_of_lt_of_le (h.requests.handed_lt hhanded) h.cursors.subm_le
  have hphase := h.slots.handed _ hlow hhanded
  refine ⟨hhigh,hphase,?_⟩
  rcases h.slots.used _ hlow hhigh with hreserved | ⟨x,hx,hsector,-⟩
  · rw [hphase] at hreserved
    cases hreserved
  · have hget := congrArg (fun l => l[j]?) hslice
    rw [Ftl.getElem?_slice hj,hx,List.getElem?_map,ht] at hget
    rw [Option.map_some,Option.map_some,Option.map_some,Option.some_inj,Option.some_inj] at hget
    rw [hget]
    exact hsector

/-- The bio of a request refers to the pages of the buffer. Until `pblk_complete_write` has seen the
request, the pages hold what the write thread took. -/
theorem in_flight_pages_stable (h : Reaches (step cfg) always (Ftl.init pages lines rl) s) {k j : Nat} {q : WReq δ}
    {t : Taken δ} (hq : s.device[k]? = some q) (hsent : q.sent = true) (hopen : k ∉ s.completed)
    (ht : q.taken[j]? = some t) : (s.rwb.entries (cfg.ring.wrap (q.ctx.sentry + j))).sector = t := by
  obtain ⟨p,hinv⟩ := Ftl.exists_inv h
  have hpk : p ≤ k := by
    by_contra hlt
    exact hopen (hinv.inOrder.below k (by omega))
  have hmono : offset s.lens p ≤ offset s.lens k := offset_mono hpk
  have hsync := hinv.ordered.completions.sync
  have hl2p := hinv.ordered.cursors.l2p_le
  rw [hinv.ordered.requests.sentry k q hq,RingSize.wrap_add]
  exact (hinv.ordered.slot_taken hq hsent ht (by omega)).2.2

theorem in_flight_pages_stable_small :
    (smallState.rwb.entries (smallConfig.ring.wrap (0 + 1))).sector = ⟨1,11,some .user⟩ :=
  in_flight_pages_stable smallState_reaches (k := 0) (j := 1) (q := ⟨⟨0,2,0⟩,[⟨0,10,some .user⟩,⟨1,11,some .user⟩],
    [⟨0,0⟩,⟨0,1⟩],true⟩) (by decide) rfl (by decide) rfl

/-- What a reader copies from the buffer was written to the lba it asks for, however long ago it looked the
position up, and the map has not been moved to the device yet. -/
theorem cached_read_belongs (h : Reaches (step cfg) always (Ftl.init pages lines rl) s) {lba pos : Nat} {d : δ}
    (hpos : pos < cfg.ring.cells) (hcopy : pblkRbCopyToBio s.rwb lba pos = some d) :
    ∃ i x, s.marks.l2p ≤ i ∧ i < s.marks.mem ∧ cfg.ring.wrap i = pos ∧ s.accepted[i]? = some (some x) ∧
      x.lba = lba ∧ x.data = d := by
  obtain ⟨p,hinv⟩ := Ftl.exists_inv h
  obtain ⟨i,hlow,hhigh,rfl⟩ := cfg.ring.exists_wrap s.marks.l2p hpos
  unfold pblkRbCopyToBio at hcopy
  dsimp only at hcopy
  split at hcopy
  · cases hcopy
  rename_i hentry
  simp only [not_or,not_not,Bool.not_eq_true] at hentry
  have hnot : (s.slot cfg i).phase ≠ some .reserved := by
    intro hreserved
    have hwritable := RbEntry.phase_reserved hreserved
    rw [Ftl.slot,hentry.2] at hwritable
    cases hwritable
  have hmem : i < s.marks.mem := by
    by_contra hge
    exact hnot (hinv.ordered.slots.free i (by omega) hhigh)
  rcases hinv.ordered.slots.used i hlow hmem with hreserved | ⟨x,haccepted,hsector,-⟩
  · exact absurd hreserved hnot
  · refine ⟨i,x,hlow,hmem,rfl,haccepted,?_,?_⟩
    · rw [← hentry.1]
      exact (congrArg Taken.lba hsector).symm
    · rw [← Option.some.inj hcopy]
      exact (congrArg Taken.data hsector).symm

theorem cached_read_belongs_small : pblkRbCopyToBio smallState.rwb 2 2 = some 12 ∧
    ∃ i x, smallState.marks.l2p ≤ i ∧ i < smallState.marks.mem ∧ smallConfig.ring.wrap i = 2 ∧
      smallState.accepted[i]? = some (some x) ∧ x.lba = 2 ∧ x.data = 12 :=
  ⟨by decide,cached_read_belongs smallState_reaches (by decide) (by decide)⟩

end Sdssd.Pblk
