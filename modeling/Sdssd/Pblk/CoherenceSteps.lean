import Sdssd.Pblk.Coherence

/-!
# The steps that keep the map coherent

Pages are placed on free sectors of the open line, requests are programmed there, and every other step of
the write path leaves the map leading to what was last written.
-/

namespace Sdssd.Pblk

open Framework

variable {δ : Type} {cfg : Config}

/-! ## The allocation of a page -/

theorem findNextZeroBit_spec {bm : Nat → Bool} {size start : Nat}
    (h : ∃ i, start ≤ i ∧ i < size ∧ bm i = false) : start ≤ findNextZeroBit bm size start ∧
      findNextZeroBit bm size start < size ∧ bm (findNextZeroBit bm size start) = false ∧
      ∀ i, start ≤ i → i < findNextZeroBit bm size start → bm i = true := by
  obtain ⟨i,hlow,hhigh,hbit⟩ := h
  unfold findNextZeroBit
  cases hfind : (List.range' start (size - start)).find? fun i => !bm i with
  | none =>
    have hall := List.find?_eq_none.mp hfind i (by rw [List.mem_range'_1]; omega)
    simp [hbit] at hall
  | some r =>
    obtain ⟨hr,hmem,hbefore⟩ := List.find?_range'_eq_some.mp hfind
    rw [List.mem_range'_1] at hmem
    refine ⟨hmem.1,?_,by simpa using hr,?_⟩
    · rw [Option.getD_some]
      omega
    · intro j hj hj'
      simpa using hbefore j hj hj'

/-- There is a sector that is not mapped, which `left_msecs` says. -/
def Line.HasRoom (cfg : Config) (l : Line) : Prop :=
  ∃ i, l.curSec ≤ i ∧ i < cfg.secPerLine ∧ l.mapBitmap i = false

theorem pblkAllocPage_aligned {l l' : Line} {addr : Nat} (ha : l.Aligned cfg) (hroom : l.HasRoom cfg)
    (h : pblkAllocPage cfg l cfg.minWritePgs = some (l',addr)) :
    (∀ t, t < cfg.minWritePgs → l.mapBitmap (addr + t) = false) ∧
      (∀ i, l'.mapBitmap i = true ↔ l.mapBitmap i = true ∨ addr ≤ i ∧ i < addr + cfg.minWritePgs) ∧
      l'.Aligned cfg := by
  have hmin := cfg.min_pos
  obtain ⟨hlow,-,hbit,hbefore⟩ := findNextZeroBit_spec hroom
  obtain ⟨hcur,hmap⟩ := ha
  unfold pblkAllocPage allocPage at h
  obtain ⟨⟨l₁,addr₁⟩,h₁,heq⟩ := Option.map_eq_some_iff.mp h
  split at h₁
  · cases h₁
  cases h₁
  cases heq
  let r := findNextZeroBit l.mapBitmap cfg.secPerLine l.curSec
  -- the start of the page of the free sector is free and not before `cur_sec`
  obtain ⟨k,hk⟩ : cfg.minWritePgs ∣ r := by
    have hstart : l.curSec ≤ r / cfg.minWritePgs * cfg.minWritePgs := by
      obtain ⟨c,hc⟩ := hcur
      have hle : c ≤ r / cfg.minWritePgs := by
        rw [Nat.le_div_iff_mul_le hmin,Nat.mul_comm,← hc]
        exact hlow
      rw [hc,Nat.mul_comm]
      exact Nat.mul_le_mul_right _ hle
    have hle := Nat.div_mul_le_self r cfg.minWritePgs
    rcases Nat.eq_or_lt_of_le hle with heq | hlt
    · exact ⟨r / cfg.minWritePgs,by rw [Nat.mul_comm]; exact heq.symm⟩
    · have hset := hbefore _ hstart hlt
      rw [← hmap,hbit] at hset
      cases hset
  have hdiv : ∀ t, t < cfg.minWritePgs → (r + t) / cfg.minWritePgs * cfg.minWritePgs = r := by
    intro t ht
    rw [hk,Nat.mul_add_div hmin,Nat.div_eq_of_lt ht,Nat.add_zero,Nat.mul_comm]
  have hpage : ∀ i, (r ≤ i / cfg.minWritePgs * cfg.minWritePgs ∧
      i / cfg.minWritePgs * cfg.minWritePgs < r + cfg.minWritePgs) ↔ r ≤ i ∧ i < r + cfg.minWritePgs := by
    intro i
    have hle := Nat.div_mul_le_self i cfg.minWritePgs
    constructor
    · rintro ⟨h₁,h₂⟩
      have hq : i / cfg.minWritePgs < k + 1 := by
        by_contra hge
        have hmul := Nat.mul_le_mul_right cfg.minWritePgs (Nat.le_of_not_lt hge)
        rw [Nat.add_mul,Nat.one_mul,Nat.mul_comm k,← hk] at hmul
        omega
      rw [Nat.div_lt_iff_lt_mul hmin,Nat.add_mul,Nat.one_mul,Nat.mul_comm k,← hk] at hq
      exact ⟨by omega,hq⟩
    · rintro ⟨h₁,h₂⟩
      have hq : k ≤ i / cfg.minWritePgs := by
        rw [Nat.le_div_iff_mul_le hmin,Nat.mul_comm,← hk]
        exact h₁
      have hmul := Nat.mul_le_mul_right cfg.minWritePgs hq
      rw [Nat.mul_comm k,← hk] at hmul
      omega
  refine ⟨?_,?_,?_,?_⟩
  · intro t ht
    rw [hmap]
    change l.mapBitmap ((r + t) / cfg.minWritePgs * cfg.minWritePgs) = false
    rw [hdiv t ht]
    exact hbit
  · intro i
    simp only [Bool.or_eq_true,Bool.and_eq_true,decide_eq_true_eq]
  · change cfg.minWritePgs ∣ r + cfg.minWritePgs
    exact (Nat.dvd_add_self_right).mpr ⟨k,hk⟩
  · intro i
    change (l.mapBitmap i || (decide (r ≤ i) && decide (i < r + cfg.minWritePgs))) = (l.mapBitmap _ ||
      (decide (r ≤ i / cfg.minWritePgs * cfg.minWritePgs) &&
        decide (i / cfg.minWritePgs * cfg.minWritePgs < r + cfg.minWritePgs)))
    rw [hmap i,← Bool.decide_and,← Bool.decide_and,decide_eq_decide.mpr (hpage i)]

namespace Ftl

variable {content : Nat → Option δ} {media : DevAddr → Option (Nat × δ)} {s s' : Ftl δ} {p : Nat}

/-- The `n` entries from `v` on were mapped to consecutive unused sectors of the open line, from `addr` on. -/
structure Placed (cfg : Config) (s s' : Ftl δ) (v n d addr : Nat) : Prop where
  low : s.marks.l2p ≤ v
  inside : ∀ t, t < n → s'.slot cfg (v + t) = (s.slot cfg (v + t)).mapTo ⟨d,addr + t⟩
  outside : ∀ i, s.marks.l2p ≤ i → i < s.marks.mem → i < v ∨ v + n ≤ i → s'.slot cfg i = s.slot cfg i
  rwb : s.rwb.SameSectors s'.rwb
  cacheline : ∀ pos, (s'.rwb.entries pos).cacheline = (s.rwb.entries pos).cacheline
  transMap : s'.map.transMap = s.map.transMap
  open_line : s.map.lines.dataLine = some d
  dataLine : s'.map.lines.dataLine = some d
  unused : ∀ t, t < n → s.Unused cfg ⟨d,addr + t⟩
  aligned : (s'.map.lines.line d).Aligned cfg
  mapBitmap : ∀ i, (s'.map.lines.line d).mapBitmap i = false →
    (s.map.lines.line d).mapBitmap i = false ∧ (i < addr ∨ addr + n ≤ i)
  marks : s'.marks = s.marks
  device : s'.device = s.device
  jobs : s'.jobs = s.jobs

namespace Placed

variable {v n d addr : Nat}

theorem of_mappedAt (h : Placed cfg s s' v n d addr) {i : Nat} {a : DevAddr} (hm : s'.MappedAt cfg i a) :
    s.MappedAt cfg i a ∧ (i < v ∨ v + n ≤ i) ∨ ∃ t, t < n ∧ i = v + t ∧ a = ⟨d,addr + t⟩ := by
  obtain ⟨hlow,hhigh,hphase,hppa⟩ := hm
  rw [h.marks] at hlow hhigh
  by_cases hout : i < v ∨ v + n ≤ i
  · rw [h.outside i hlow hhigh hout] at hphase hppa
    exact Or.inl ⟨⟨hlow,hhigh,hphase,hppa⟩,hout⟩
  · obtain ⟨t,rfl⟩ := Nat.exists_eq_add_of_le (show v ≤ i by omega)
    have ht : t < n := by omega
    rw [h.inside t ht] at hppa
    cases hppa
    exact Or.inr ⟨t,ht,rfl,rfl⟩

theorem addresses (h : Placed cfg s s' v n d addr) (ha : s.Addresses cfg)
    (hsubmitted : ∀ t, t < n → (s.slot cfg (v + t)).phase = some .submitted) : s'.Addresses cfg where
  cacheline pos := (h.cacheline pos).trans (ha.cacheline pos)
  unmapped i hlow hhigh hphase := by
    rw [h.marks] at hlow hhigh
    by_cases hout : i < v ∨ v + n ≤ i
    · rw [h.outside i hlow hhigh hout] at hphase ⊢
      exact ha.unmapped i hlow hhigh hphase
    · obtain ⟨t,rfl⟩ := Nat.exists_eq_add_of_le (show v ≤ i by omega)
      have ht : t < n := by omega
      rw [h.inside t ht,RbEntry.mapTo_phase,hsubmitted t ht] at hphase
      cases hphase
  aligned d' hd' := by
    rw [h.dataLine] at hd'
    cases hd'
    exact h.aligned
  fresh d' paddr hd' hbit := by
    rw [h.dataLine] at hd'
    cases hd'
    obtain ⟨hold,hout⟩ := h.mapBitmap paddr hbit
    obtain ⟨hmap,hentry⟩ := ha.fresh d paddr h.open_line hold
    refine ⟨by rw [h.transMap]; exact hmap,?_⟩
    intro i hm
    rcases h.of_mappedAt hm with ⟨hm',-⟩ | ⟨t,ht,-,heq⟩
    · exact hentry i hm'
    · cases heq
      omega
  inj i j a hi hj := by
    rcases h.of_mappedAt hi with ⟨hi',-⟩ | ⟨t,ht,rfl,rfl⟩ <;> rcases h.of_mappedAt hj with ⟨hj',-⟩ | ⟨u,hu,rfl,heq⟩
    · exact ha.inj i j a hi' hj'
    · rw [heq] at hi'
      exact absurd hi' ((h.unused u hu).2 i)
    · exact absurd hj' ((h.unused t ht).2 j)
    · have hsame : addr + t = addr + u := congrArg DevAddr.paddr heq
      omega
  free i a lba hi := by
    rw [h.transMap]
    rcases h.of_mappedAt hi with ⟨hi',-⟩ | ⟨t,ht,-,rfl⟩
    · exact ha.free i a lba hi'
    · exact (h.unused t ht).1 lba

theorem data (h : Placed cfg s s' v n d addr) (i : Nat) : (s'.slot cfg i).phase = (s.slot cfg i).phase ∧
    (s'.slot cfg i).wCtx.lba = (s.slot cfg i).wCtx.lba ∧ (s'.slot cfg i).data = (s.slot cfg i).data := by
  have hsector := h.rwb.sector (cfg.ring.wrap i)
  exact ⟨h.rwb.phase _,congrArg Taken.lba hsector,congrArg Taken.data hsector⟩

theorem faithful (h : Placed cfg s s' v n d addr) (hf : s.Faithful cfg content media) :
    s'.Faithful cfg content media where
  cached lba pos hpos := by
    rw [h.transMap] at hpos
    obtain ⟨i,hlow,hhigh,hwrap,hphase,hlba,hcontent⟩ := hf.cached lba pos hpos
    obtain ⟨hphase',hlba',hdata'⟩ := h.data i
    exact ⟨i,by rw [h.marks]; exact hlow,by rw [h.marks]; exact hhigh,hwrap,by rw [hphase']; exact hphase,
      by rw [hlba']; exact hlba,by rw [hdata']; exact hcontent⟩
  mapped lba a hpos := by
    rw [h.transMap] at hpos
    exact hf.mapped lba a hpos
  empty lba hpos := by
    rw [h.transMap] at hpos
    exact hf.empty lba hpos

/-- The entries that are mapped are those of the write thread, not of a request. -/
theorem programmed (h : Placed cfg s s' v n d addr) (hord : s.Ordered cfg p) (hp : s.Programmed cfg media)
    (hv : s.lens.sum ≤ v) : s'.Programmed cfg media := by
  have hlens : s'.lens = s.lens := by rw [lens,lens,h.device]
  intro k q hq hsent j t ht hlow
  rw [h.device] at hq
  rw [hlens,h.marks] at hlow
  obtain ⟨hmem,-,-⟩ := hord.slot_taken hq hsent ht hlow
  have hle := offset_add_le hq
  have hj : j < q.ctx.nrValid := by
    rw [← hord.length_taken hq (Or.inl hsent)]
    exact (List.getElem?_eq_some_iff.mp ht).1
  rw [hlens,h.outside _ hlow hmem (Or.inl (by omega))]
  exact hp k q hq hsent j t ht hlow

theorem collecting (h : Placed cfg s s' v n d addr) (hc : s.Collecting cfg media) : s'.Collecting cfg media where
  line j hj line hsrc := by
    rw [h.jobs] at hj
    obtain ⟨hd,hm⟩ := hc.line j hj line hsrc
    refine ⟨?_,?_⟩
    · rw [h.dataLine,← h.open_line]
      exact hd
    · intro i a hi
      rcases h.of_mappedAt hi with ⟨hi',-⟩ | ⟨t,-,-,rfl⟩
      · exact hm i a hi'
      · rintro rfl
        exact hd h.open_line
  data j hj line hsrc a hpos hline := by
    rw [h.jobs] at hj
    rw [h.transMap] at hpos
    exact hc.data j hj line hsrc a hpos hline

end Placed

/-- How many of a page's sectors are data. -/
theorem mapSecs_eq {min valid i : Nat} (hdvd : min ∣ i) (hi : i ≤ valid) :
    (if valid < i + min then valid % min else min) = Nat.min min (valid - i) := by
  obtain ⟨k,rfl⟩ := hdvd
  split
  · rename_i hlt
    have hmod : valid % min = valid - min * k := by
      rw [← Nat.sub_add_cancel hi,Nat.add_mul_mod_self_left,Nat.add_sub_cancel]
      exact Nat.mod_eq_of_lt (by omega)
    rw [hmod]
    exact (Nat.min_eq_right (by omega)).symm
  · exact (Nat.min_eq_left (by omega)).symm

theorem mapSectors_cacheline {r : RingSize} {rb : Rb δ} {lines : LineMgmt} {sentry mapSecs line paddr n i : Nat}
    (pos : Nat) : ((mapSectors r sentry mapSecs line paddr n i rb lines).1.entries pos).cacheline =
      (rb.entries pos).cacheline := by
  refine mapSectors_keeps (fun a _ => (a.entries pos).cacheline = (rb.entries pos).cacheline) ?_ rfl
  intro a l k ha
  rcases mapSector_fst r a with heq | heq <;> rw [heq]
  · exact ha
  · rw [Rb.entries_setEntry]
    split
    · rename_i hpos
      rw [hpos] at ha
      rw [hpos,← ha]
      rfl
    · exact ha

/-- A page of the open line for the entries from `v` on. -/
theorem Addresses.placed (ha : s.Addresses cfg) (hcur : s.Cursors cfg) (writer : Writer δ) {d addr sentry v n : Nat}
    {l : Line} (hd : s.map.lines.dataLine = some d) (hroom : (s.map.lines.line d).HasRoom cfg)
    (halloc : pblkAllocPage cfg (s.map.lines.line d) cfg.minWritePgs = some (l,addr))
    (hsentry : cfg.ring.wrap sentry = cfg.ring.wrap v) (hn : n ≤ cfg.minWritePgs) (hlow : s.marks.l2p ≤ v)
    (hhigh : v + n ≤ s.marks.mem) :
    let x := mapSectors cfg.ring sentry n d addr cfg.minWritePgs 0 s.rwb (s.map.lines.setLine d l)
    Placed cfg s { s with rwb := x.1, map := { s.map with lines := x.2 }, writer := writer } v n d addr := by
  intro x
  obtain ⟨hl2p,hsync,hsubm,hbound,-,-,-,-⟩ := hcur
  obtain ⟨hfree,hbits,haligned⟩ := pblkAllocPage_aligned (ha.aligned d hd) hroom halloc
  have hswept : cfg.ring.Swept (fun k e => e.mapTo ⟨d,addr + (k - v)⟩) n v s.rwb.entries x.1.entries :=
    (mapSectors_spec hsentry (by omega) (Nat.zero_le n) (by omega)).1
  have hsame : (s.map.lines.setLine d l).SameAlloc x.2 := .mapSectors
  have hself : (s.map.lines.setLine d l).line d = l := Function.update_self ..
  have hmap : (x.2.line d).mapBitmap = l.mapBitmap := by rw [hsame.mapBitmap,hself]
  refine ⟨hlow,?_,?_,mapSectors_sameSectors,mapSectors_cacheline,rfl,hd,hsame.dataLine.trans hd,?_,⟨?_,?_⟩,?_,rfl,rfl,rfl⟩
  · intro t ht
    have hin := hswept.inside (v + t) (by omega) (by omega)
    rw [Nat.add_sub_cancel_left] at hin
    exact hin
  · intro i hi hi' hout
    apply hswept.outside
    intro k hk hk'
    exact RingSize.wrap_ne hi (by omega) (by omega) (by omega) (by omega)
  · intro t ht
    exact ha.fresh d _ hd (hfree t (by omega))
  · rw [hsame.curSec,hself]
    exact haligned.curSec
  · rw [hmap]
    exact haligned.mapBitmap
  · intro i hbit
    rw [hmap,← Bool.not_eq_true,hbits,not_or] at hbit
    refine ⟨by simpa using hbit.1,?_⟩
    by_contra hin
    exact hbit.2 ⟨by omega,by omega⟩

theorem getElem?_range_map {β : Type*} {f : Nat → β} {n j : Nat} {b : β} (h : ((List.range n).map f)[j]? = some b) :
    j < n ∧ b = f j := by
  obtain ⟨hj,heq⟩ := List.getElem?_eq_some_iff.mp h
  rw [List.length_map,List.length_range] at hj
  rw [List.getElem_map,List.getElem_range] at heq
  exact ⟨hj,heq.symm⟩

/-- The page of one round of `pblk_map_rq`. -/
theorem Coherent.placed (h : s.Coherent cfg content media) (hord : s.Ordered cfg p)
    (hroom : ∀ d, s.map.lines.dataLine = some d → (s.map.lines.line d).HasRoom cfg) (hm : s.mapPage cfg = some s') :
    ∃ c taken ppas d l addr n, s.writer = .mapping c taken ppas ∧ ppas.length ≤ c.nrValid ∧
      n = Nat.min cfg.minWritePgs (c.nrValid - ppas.length) ∧
      pblkAllocPage cfg (s.map.lines.line d) cfg.minWritePgs = some (l,addr) ∧
      s'.writer = .mapping c taken (ppas ++ (List.range cfg.minWritePgs).map fun j => ⟨d,addr + j⟩) ∧
      s'.map.lines = (mapSectors cfg.ring (c.sentry + ppas.length) n d addr cfg.minWritePgs 0 s.rwb
        (s.map.lines.setLine d l)).2 ∧
      cfg.ring.wrap (c.sentry + ppas.length) = cfg.ring.wrap (s.lens.sum + ppas.length) ∧
      Placed cfg s s' (s.lens.sum + ppas.length) n d addr := by
  obtain ⟨c,taken,ppas,d,l,addr,hw,hmore,hd,halloc,rfl⟩ := mapPage_effect hm
  have hwriter := h.writer
  simp only [WriterOk,hw] at hwriter
  obtain ⟨hpad,hdvd,-⟩ := hwriter
  have hstart := hord.requests.starts
  simp only [Starts,hw] at hstart
  have hheld : s.held = c.nrValid := by simp only [held,hw]
  have hsum := hord.requests.subm
  have hlow := hord.l2p_le_sum
  have hmem := hord.cursors.subm_le
  have hi : ppas.length ≤ c.nrValid := by
    rcases hpad with hzero | hone
    · omega
    · obtain ⟨k,hk⟩ := hdvd
      cases k with
      | zero => omega
      | succ k =>
        rw [hone,hk,Nat.mul_succ] at hmore
        omega
  have hle : Nat.min cfg.minWritePgs (c.nrValid - ppas.length) ≤ c.nrValid - ppas.length := Nat.min_le_right _ _
  have hsentry : cfg.ring.wrap (c.sentry + ppas.length) = cfg.ring.wrap (s.lens.sum + ppas.length) := by
    rw [hstart.1,RingSize.wrap_add]
  dsimp only
  rw [mapSecs_eq hdvd hi]
  exact ⟨c,taken,ppas,d,l,addr,_,hw,hi,rfl,halloc,rfl,rfl,hsentry,
    h.addresses.placed hord.cursors _ hd (hroom d hd) halloc hsentry (Nat.min_le_left _ _) (by omega) (by omega)⟩

theorem Coherent.mapPage (h : s.Coherent cfg content media) (hord : s.Ordered cfg p)
    (hroom : ∀ d, s.map.lines.dataLine = some d → (s.map.lines.line d).HasRoom cfg)
    (hm : s.mapPage cfg = some s') : s'.Coherent cfg content media := by
  obtain ⟨c,taken,ppas,d,l,addr,n,hw,hi,hn,-,hw',-,-,hplaced⟩ := h.placed hord hroom hm
  have hwriter := h.writer
  simp only [WriterOk,hw] at hwriter
  obtain ⟨hpad,hdvd,hppas⟩ := hwriter
  have hheld : s.held = c.nrValid := by simp only [held,hw]
  have hsum := hord.requests.subm
  have hlow := hord.l2p_le_sum
  have hmem := hord.cursors.subm_le
  have hle : n ≤ c.nrValid - ppas.length := by
    rw [hn]
    exact Nat.min_le_right _ _
  have hlens : s'.lens = s.lens := by rw [lens,lens,hplaced.device]
  have hhanded : ∀ t, t < c.nrValid → s.Handed (s.lens.sum + t) := by
    intro t ht
    exact Or.inr ⟨c,taken,ppas,hw,Nat.le_add_right _ _,Nat.add_lt_add_left ht _⟩
  refine ⟨hplaced.addresses h.addresses ?_,hplaced.faithful h.faithful,
    hplaced.programmed hord h.programmed (Nat.le_add_right _ _),hplaced.collecting h.collecting,?_⟩
  · intro t ht
    rw [Nat.add_assoc]
    exact hord.slots.handed _ (by omega) (hhanded _ (by omega))
  · simp only [WriterOk,hw']
    refine ⟨hpad,?_,?_⟩
    · rw [List.length_append,List.length_map,List.length_range]
      exact (Nat.dvd_add_self_right).mpr hdvd
    · intro j b hj hb
      rw [hlens]
      rcases Nat.lt_or_ge j ppas.length with hold | hnew
      · rw [List.getElem?_append_left hold] at hb
        rw [hplaced.outside _ (by omega) (by omega) (Or.inl (by omega))]
        exact hppas j b hj hb
      · rw [List.getElem?_append_right hnew] at hb
        obtain ⟨hjn,rfl⟩ := getElem?_range_map hb
        have hin := hplaced.inside (j - ppas.length) (by rw [hn]; exact Nat.lt_min.mpr ⟨hjn,by omega⟩)
        rw [Nat.add_assoc,Nat.add_sub_cancel' hnew] at hin
        rw [hin]
        rfl

/-! ## Requests -/

end Ftl

/-- The device writes the sectors of a request. -/
def program (media : DevAddr → Option (Nat × δ)) : List DevAddr → List (Taken δ) → DevAddr → Option (Nat × δ)
  | a :: as, t :: ts => program (Function.update media a (some (t.lba,t.data))) as ts
  | _, _ => media

theorem program_of_ne {media : DevAddr → Option (Nat × δ)} {as : List DevAddr} {ts : List (Taken δ)} {a : DevAddr}
    (h : ∀ j, j < ts.length → as[j]? ≠ some a) : program media as ts a = media a := by
  induction ts generalizing media as with
  | nil => cases as <;> rfl
  | cons t ts ih =>
    cases as with
    | nil => rfl
    | cons b as =>
      have hb : a ≠ b := by
        rintro rfl
        exact h 0 (Nat.zero_lt_succ _) rfl
      rw [program,ih fun j hj => h (j + 1) (Nat.succ_lt_succ hj)]
      exact Function.update_of_ne hb _ _

theorem program_of_getElem? {media : DevAddr → Option (Nat × δ)} {as : List DevAddr} {ts : List (Taken δ)} {a : DevAddr}
    {t : Taken δ} {j : Nat} (ha : as[j]? = some a) (ht : ts[j]? = some t)
    (hinj : ∀ i, i < ts.length → as[i]? = some a → i = j) : program media as ts a = some (t.lba,t.data) := by
  induction ts generalizing media as j with
  | nil => cases ht
  | cons u ts ih =>
    cases as with
    | nil => cases ha
    | cons b as =>
      rw [program]
      cases j with
      | zero =>
        cases ha
        cases ht
        rw [program_of_ne]
        · exact Function.update_self ..
        · intro i hi hget
          cases hinj (i + 1) (Nat.succ_lt_succ hi) hget
      | succ j =>
        exact ih ha ht fun i hi hget => Nat.succ.inj (hinj (i + 1) (Nat.succ_lt_succ hi) hget)

namespace Ftl

variable {content : Nat → Option δ} {media : DevAddr → Option (Nat × δ)} {s s' : Ftl δ} {p : Nat}

/-- The write thread is done with a request; the device may have written to sectors that nothing refers
to besides the entries of the request. -/
theorem Coherent.push (h : s.Coherent cfg content media) (hord : s.Ordered cfg p) {q : WReq δ}
    {media' : DevAddr → Option (Nat × δ)} (hquiet : Quiet cfg s s') (hdevice : s'.device = s.device ++ [q])
    (hjobs : s'.jobs = s.jobs) (hidle : s'.writer = .idle)
    (hmap : ∀ lba a, s.map.transMap lba = .dev a → media' a = media a)
    (hentry : ∀ i a, i < s.lens.sum → s.MappedAt cfg i a → media' a = media a)
    (hnew : q.sent = true → ∀ j t, q.taken[j]? = some t →
      ∃ a, (s.slot cfg (s.lens.sum + j)).wCtx.ppa = .dev a ∧ media' a = some (t.lba,t.data)) :
    s'.Coherent cfg content media' := by
  have hf := hquiet.faithful h.faithful
  refine ⟨hquiet.addresses h.addresses,⟨hf.cached,?_,hf.empty⟩,?_,?_,?_⟩
  · intro lba a hpos
    rw [hmap lba a (hquiet.transMap ▸ hpos)]
    exact hf.mapped lba a hpos
  · have hlens : s'.lens = s.lens ++ [q.ctx.nrValid] := by simp [lens,hdevice]
    have hlength : s.lens.length = s.device.length := by simp [lens]
    intro k q' hk hsent j t ht hlow
    rw [hdevice] at hk
    rw [hquiet.l2p] at hlow
    rcases Nat.lt_or_ge k s.device.length with hlt | hge
    · have hoffset : offset s'.lens k = offset s.lens k := by
        rw [hlens]
        exact offset_append (by omega)
      rw [List.getElem?_append_left hlt] at hk
      rw [hoffset] at hlow
      obtain ⟨hmem,hphase,-⟩ := hord.slot_taken hk hsent ht hlow
      obtain ⟨a,hppa,hmedia⟩ := h.programmed k q' hk hsent j t ht hlow
      have hle := offset_add_le hk
      have hj : j < q'.ctx.nrValid := by
        rw [← hord.length_taken hk (Or.inl hsent)]
        exact (List.getElem?_eq_some_iff.mp ht).1
      refine ⟨a,?_,?_⟩
      · rw [hoffset,slot,hquiet.data.ppa]
        exact hppa
      · rw [hentry _ a (by omega) ⟨hlow,hmem,hphase,hppa⟩]
        exact hmedia
    · rw [List.getElem?_append_right hge] at hk
      obtain ⟨hb,heq⟩ := List.getElem?_eq_some_iff.mp hk
      rw [List.length_singleton] at hb
      rw [List.getElem_singleton] at heq
      subst heq
      have hoffset : offset s'.lens k = s.lens.sum := by
        rw [hlens,offset_append (by omega),offset_of_length_le (by omega)]
      rw [hoffset,slot,hquiet.data.ppa]
      exact hnew hsent j t ht
  · have hc := (hquiet.fewer h.addresses).collecting h.collecting fun j hj => Or.inl (hjobs ▸ hj)
    refine ⟨hc.line,?_⟩
    intro j hj line hsrc a hpos hline
    rw [hmap _ a (hquiet.transMap ▸ hpos)]
    exact hc.data j hj line hsrc a hpos hline
  · unfold WriterOk
    rw [hidle]
    trivial

/-- A request that is not sent. -/
theorem Coherent.push_lost (h : s.Coherent cfg content media) (hord : s.Ordered cfg p) {q : WReq δ}
    (hquiet : Quiet cfg s s') (hdevice : s'.device = s.device ++ [q]) (hjobs : s'.jobs = s.jobs)
    (hidle : s'.writer = .idle) (hlost : q.sent = false) : s'.Coherent cfg content media := by
  apply h.push hord hquiet hdevice hjobs hidle
  · intro _ _ _
    rfl
  · intro _ _ _ _
    rfl
  · intro hsent
    rw [hlost] at hsent
    cases hsent

/-- Steps after which the buffer, the map and the marks are the same. -/
theorem Quiet.of_eq (hrwb : s'.rwb = s.rwb) (hmap : s'.map = s.map) (hmarks : s'.marks = s.marks) : Quiet cfg s s' := by
  refine ⟨by rw [hmap],by rw [hmap]; exact .refl _,by rw [hrwb]; exact .refl _,?_,by rw [hmarks],by rw [hmarks],?_⟩
  · intro i _ _
    rw [slot,hrwb]
    exact Or.inl rfl
  · intro i hlow hhigh
    rw [hmarks] at hhigh
    omega

theorem Coherent.send (h : s.Coherent cfg content media) (hord : s.Ordered cfg p) {c : CCtx} {taken : List (Taken δ)}
    {ppas : List DevAddr} (hw : s.writer = .mapping c taken ppas) (hlen : c.nrValid + c.nrPadded ≤ ppas.length) :
    ({ s with writer := .idle, device := s.device ++ [⟨c,taken,ppas,true⟩] } : Ftl δ).Coherent cfg content
      (program media ppas taken) := by
  have hwriter := h.writer
  simp only [WriterOk,hw] at hwriter
  have hheld : s.held = c.nrValid := by simp only [held,hw]
  have hsum := hord.requests.subm
  have hlow := hord.l2p_le_sum
  have hmem := hord.cursors.subm_le
  have hlength := hord.slots.length
  have htaken : taken.length = c.nrValid := by
    have hslice := congrArg List.length (hord.fifo.writer c taken ppas hw)
    simp only [slice,List.length_map,List.length_take,List.length_drop] at hslice
    omega
  -- the sectors of the request belong to its entries
  have hmapped : ∀ j a, j < taken.length → ppas[j]? = some a → s.MappedAt cfg (s.lens.sum + j) a := by
    intro j a hj ha
    have hhanded : s.Handed (s.lens.sum + j) := Or.inr ⟨c,taken,ppas,hw,by omega,by omega⟩
    exact ⟨by omega,by omega,hord.slots.handed _ (by omega) hhanded,hwriter.2.2 j a (by omega) ha⟩
  refine h.push hord (.of_eq rfl rfl rfl) rfl rfl rfl ?_ ?_ ?_
  · intro lba a hpos
    apply program_of_ne
    intro j hj ha
    exact h.addresses.free _ a lba (hmapped j a hj ha) hpos
  · intro i a hi hm
    apply program_of_ne
    intro j hj ha
    have heq := h.addresses.inj i _ a hm (hmapped j a hj ha)
    omega
  · intro _ j t ht
    have hj : j < taken.length := (List.getElem?_eq_some_iff.mp ht).1
    have hjp : j < ppas.length := by omega
    have ha : ppas[j]? = some ppas[j] := List.getElem?_eq_getElem hjp
    refine ⟨ppas[j],(hmapped j _ hj ha).2.2.2,program_of_getElem? ha ht ?_⟩
    intro k hk hk'
    have heq := h.addresses.inj _ _ _ (hmapped k _ hk hk') (hmapped j _ hj ha)
    omega

/-! ## Reservations, reads and discards -/

theorem Quiet.reserve (hord : s.Ordered cfg p) {n : Nat} {xs : List (Sector δ)} {acc : List (Option (Sector δ))}
    (hroom : s.marks.mem + n < s.marks.l2p + cfg.ring.cells) : Quiet cfg s (s.reserve cfg n xs acc) := by
  refine ⟨rfl,.refl _,⟨fun _ => rfl,fun _ => rfl,fun _ => rfl,fun _ => rfl⟩,fun i _ _ => Or.inl rfl,rfl,
    Nat.le_add_right _ _,?_⟩
  intro i hlow hhigh
  have hhigh' : i < s.marks.mem + n := hhigh
  exact hord.slots.free i hlow (by omega)

/-- New jobs are user writes, or copies of what the map leads to. -/
theorem Coherent.reserve (h : s.Coherent cfg content media) (hord : s.Ordered cfg p) {n : Nat} {xs : List (Sector δ)}
    {acc : List (Option (Sector δ))} (hroom : s.marks.mem + n < s.marks.l2p + cfg.ring.cells)
    (hgc : ∀ x ∈ xs, ∀ line, x.src = .gc line → s.Collectable cfg line ∧
      ∀ a, s.map.transMap x.lba = .dev a → a.line = line → media a = some (x.lba,x.data)) :
    (s.reserve cfg n xs acc).Coherent cfg content media := by
  have hq : Quiet cfg s (s.reserve cfg n xs acc) := .reserve hord hroom
  refine ⟨hq.addresses h.addresses,hq.faithful h.faithful,hq.programmed h.programmed rfl,?_,
    h.writer.congr rfl rfl fun _ _ _ => rfl⟩
  apply (hq.fewer h.addresses).collecting h.collecting
  intro j hj
  rcases List.mem_append.mp hj with hold | hnew
  · exact Or.inl hold
  · obtain ⟨t,ht,-⟩ := mem_place hnew
    exact Or.inr (hgc j.sector (List.mem_of_getElem? ht))

theorem Quiet.flush (bio n : Nat) : Quiet cfg s (s.flush cfg bio n).1 := by
  have hsectors := pblkRbSyncPointSet_sameSectors cfg.ring s.rwb bio (cfg.ring.wrap (s.rwb.mem + n))
  have hdata := Rb.SameData.syncPointSet cfg.ring s.rwb bio (cfg.ring.wrap (s.rwb.mem + n))
  unfold Ftl.flush
  split <;> rename_i heq <;> rw [heq] at hsectors hdata <;>
    exact ⟨rfl,.refl _,hdata,fun i _ _ => Or.inl (hsectors.phase _),rfl,Nat.le_refl _,fun i hlow hhigh => absurd hhigh (Nat.not_lt.mpr hlow)⟩

theorem Coherent.flush (h : s.Coherent cfg content media) (bio n : Nat) :
    (s.flush cfg bio n).1.Coherent cfg content media := by
  have hq : Quiet cfg s (s.flush cfg bio n).1 := .flush bio n
  obtain ⟨rb,flushes,heq⟩ := flush_eq cfg s bio n
  rw [heq] at hq ⊢
  exact hq.coherent h rfl rfl (h.writer.congr rfl rfl fun i _ _ => hq.data.ppa _)

theorem Coherent.commit (h : s.Coherent cfg content media) (hc : s.commit cfg = some s') :
    s'.Coherent cfg content media := by
  obtain ⟨-,secs,avail,-,-,hs'⟩ := commit_effect hc
  have hsecs : secs ≤ avail ∨ secs = cfg.minWritePgs := by
    unfold Ftl.commit at hc
    split at hc
    · dsimp only at hc
      split at hc
      · cases hc
      · cases hc
        have hwriter := congrArg Ftl.writer hs'
        injection hwriter with _ hsecs havail
        rw [← hsecs,← havail]
        unfold pblkCalcSecs
        split
        · exact Or.inl ‹_›
        · split
          · exact Or.inl (Nat.mul_div_le _ _)
          · split
            · exact Or.inr rfl
            · exact Or.inl (Nat.zero_le _)
    · cases hc
  subst hs'
  have hq : Quiet cfg s { s with rwb := { s.rwb with subm := cfg.ring.wrap (s.rwb.subm + min secs avail) },
                                 writer := .committed s.rwb.subm secs avail,
                                 marks := { s.marks with subm := s.marks.subm + min secs avail } } :=
    ⟨rfl,.refl _,⟨fun _ => rfl,fun _ => rfl,fun _ => rfl,fun _ => rfl⟩,fun i _ _ => Or.inl rfl,rfl,Nat.le_refl _,
      fun i hlow hhigh => absurd hhigh (Nat.not_lt.mpr hlow)⟩
  exact hq.coherent h rfl rfl hsecs

/-- Entries were handed over. -/
theorem Quiet.moved {rb : Rb δ} {writer : Writer δ} {device : List (WReq δ)} {rl : Rl} (hcur : s.Cursors cfg)
    (hmoved : s.Moved cfg rb) (hdata : s.rwb.SameData rb) :
    Quiet cfg s { s with rwb := rb, writer := writer, device := device, rl := rl } := by
  obtain ⟨hl2p,hsync,hsubm,hbound,-,-,-,-⟩ := hcur
  refine ⟨rfl,.refl _,hdata,?_,rfl,Nat.le_refl _,fun i hlow hhigh => absurd hhigh (Nat.not_lt.mpr hlow)⟩
  intro i hlow hhigh
  rcases hmoved.slots i hlow (by omega) with heq | ⟨hwritten,hsub,-⟩
  · exact Or.inl (congrArg RbEntry.phase heq)
  · exact Or.inr ⟨hwritten,hsub⟩

theorem Quiet.read (hord : s.Ordered cfg p) (hr : s.read cfg = some s') : Quiet cfg s s' := by
  obtain ⟨pos,secs,count,rb,ts,hw,hread,rfl⟩ := read_effect hr
  have hstart := hord.requests.starts
  simp only [Starts,hw] at hstart
  obtain ⟨rfl,-⟩ := hstart
  have hheld : s.held = min secs count := by simp only [held,hw]
  obtain ⟨hmoved,-,-,-⟩ := hord.readEntries (Nat.le_of_eq hheld.symm) hread
  exact Quiet.moved hord.cursors hmoved (.readEntries hread)

theorem Coherent.read (h : s.Coherent cfg content media) (hord : s.Ordered cfg p) (hr : s.read cfg = some s') :
    s'.Coherent cfg content media := by
  have hquiet := Quiet.read hord hr
  obtain ⟨pos,secs,count,rb,ts,hw,hread,rfl⟩ := read_effect hr
  have hwriter := h.writer
  simp only [WriterOk,hw] at hwriter
  refine hquiet.coherent h rfl rfl ⟨?_,Nat.dvd_zero _,?_⟩
  · dsimp only [cCtx]
    omega
  · intro j a _ ha
    cases ha

theorem Quiet.readFail (hord : s.Ordered cfg p) {i : Nat} (hr : s.readFail cfg i = some s') : Quiet cfg s s' := by
  obtain ⟨pos,secs,count,rb,ts,rb',hw,hi,hread,hfail,rfl⟩ := readFail_effect hr
  have hstart := hord.requests.starts
  simp only [Starts,hw] at hstart
  obtain ⟨rfl,-⟩ := hstart
  have hheld : s.held = min secs count := by simp only [held,hw]
  have hdata : s.rwb.SameData rb' :=
    (Rb.SameData.readEntries hread).trans (.of_update (readEntryFail_eq_some hfail).2.1 rfl rfl rfl rfl)
  exact Quiet.moved hord.cursors (hord.readFail_moved (by omega) hread hfail) hdata

theorem Coherent.readFail (h : s.Coherent cfg content media) (hord : s.Ordered cfg p) {i : Nat}
    (hr : s.readFail cfg i = some s') : s'.Coherent cfg content media := by
  have hquiet := Quiet.readFail hord hr
  obtain ⟨pos,secs,count,rb,ts,rb',-,-,-,-,rfl⟩ := readFail_effect hr
  exact h.push_lost hord hquiet rfl rfl rfl rfl

/-- The lbas of a discard name nothing and hold nothing. -/
theorem invalidateRange_transMap {m : Map} {slba n lba : Nat} :
    (pblkInvalidateRange cfg m slba n).transMap lba = if slba ≤ lba ∧ lba < slba + n then .empty else m.transMap lba := by
  induction n generalizing m slba with
  | zero =>
    rw [if_neg (by omega)]
    rfl
  | succ n ih =>
    rw [pblkInvalidateRange,ih]
    change (if _ then _ else Function.update (m.invalidate cfg _).transMap slba _ lba) = _
    rw [Map.invalidate_transMap]
    by_cases hfirst : lba = slba
    · subst hfirst
      rw [if_neg (by omega),if_pos (by omega)]
      exact Function.update_self ..
    · rw [Function.update_of_ne hfirst]
      by_cases hin : slba + 1 ≤ lba ∧ lba < slba + 1 + n
      · rw [if_pos hin,if_pos (by omega)]
      · rw [if_neg hin,if_neg (by omega)]

theorem invalidateRange_alloc {m : Map} {slba n : Nat} :
    m.lines.SameAlloc (pblkInvalidateRange cfg m slba n).lines := by
  induction n generalizing m slba with
  | zero => exact .refl _
  | succ n ih =>
    have hfirst : m.lines.SameAlloc ((m.invalidate cfg (m.transMap slba)).set slba .empty).lines := Map.invalidate_alloc
    rw [pblkInvalidateRange]
    exact hfirst.trans ih

theorem invalidateRange_dev {m : Map} {slba n lba : Nat} (ppa : PpaAddr) (hne : ppa ≠ .empty)
    (hpos : (pblkInvalidateRange cfg m slba n).transMap lba = ppa) :
    m.transMap lba = ppa ∧ ¬(slba ≤ lba ∧ lba < slba + n) := by
  rw [invalidateRange_transMap] at hpos
  split at hpos
  · exact absurd hpos.symm hne
  · exact ⟨hpos,‹_›⟩

theorem Fewer.discard (s : Ftl δ) (slba n : Nat) : Fewer cfg s { s with map := pblkInvalidateRange cfg s.map slba n } :=
  ⟨invalidateRange_alloc,fun _ _ hm => hm,fun _ _ _ => rfl,fun _ a hpos => Or.inl (invalidateRange_dev (.dev a) nofun hpos).1⟩

theorem Coherent.discard (h : s.Coherent cfg content media) (slba n : Nat) :
    ({ s with map := pblkInvalidateRange cfg s.map slba n } : Ftl δ).Coherent cfg
      (fun lba => if slba ≤ lba ∧ lba < slba + n then none else content lba) media := by
  have hfewer : Fewer cfg s { s with map := pblkInvalidateRange cfg s.map slba n } := .discard s slba n
  refine ⟨hfewer.addresses h.addresses (fun _ => rfl) h.addresses.unmapped,⟨?_,?_,?_⟩,h.programmed,
    hfewer.collecting h.collecting fun j hj => Or.inl hj,h.writer.congr rfl rfl fun _ _ _ => rfl⟩
  · intro lba pos hpos
    obtain ⟨hold,hout⟩ := invalidateRange_dev (.cacheline pos) nofun hpos
    rw [if_neg hout]
    exact h.faithful.cached lba pos hold
  · intro lba a hpos
    obtain ⟨hold,hout⟩ := invalidateRange_dev (.dev a) nofun hpos
    rw [if_neg hout]
    exact h.faithful.mapped lba a hold
  · intro lba hpos
    dsimp only at hpos ⊢
    rw [invalidateRange_transMap] at hpos
    split
    · rfl
    · rename_i hout
      rw [if_neg hout] at hpos
      exact h.faithful.empty lba hpos

/-! ## Whole steps -/

theorem Coherent.setRl (h : s.Coherent cfg content media) (rl : Rl) :
    ({ s with rl := rl } : Ftl δ).Coherent cfg content media := by
  have hq : Quiet cfg s { s with rl := rl } := .of_eq rfl rfl rfl
  exact hq.coherent h rfl rfl (h.writer.congr rfl rfl fun _ _ _ => rfl)

theorem Coherent.writeUser (h : s.Coherent cfg content media) (hinv : s.Inv cfg p) {b : Bio δ}
    (hw : s.writeUser cfg b = some s') : s'.Coherent cfg content media := by
  obtain ⟨s₁,xs,acc,hroom,-,hxs,huser,-,rfl⟩ := writeUser_effect hw
  obtain ⟨c,rb,m,hup,hc,hfree,heq⟩ := makeRoom_effect hinv.ordered.cursors hroom
  obtain ⟨-,h₁⟩ := h.release hinv hc hup heq
  have hord₁ : s₁.Ordered cfg p := heq ▸ hinv.ordered.release hc hup
  have hroom₁ : s₁.marks.mem + b.sectors.length < s₁.marks.l2p + cfg.ring.cells := by
    rw [heq]
    exact hfree
  have hjobs : ∀ x ∈ xs, x.src = .user := by
    intro x hx
    obtain ⟨t,ht⟩ := List.getElem?_of_mem hx
    exact huser x (List.mem_of_getElem? (hxs t x ht))
  have hnone (t : Ftl δ) : ∀ x ∈ xs, ∀ line, x.src = .gc line → t.Collectable cfg line ∧
      ∀ a, t.map.transMap x.lba = .dev a → a.line = line → media a = some (x.lba,x.data) := by
    intro x hx line hsrc
    rw [hjobs x hx] at hsrc
    cases hsrc
  refine Coherent.setRl ?_ _
  split
  · refine Coherent.reserve (h₁.flush _ _) (flush_sameOrder.ordered hord₁) ?_ (hnone _)
    rw [flush_sameOrder.marks]
    exact hroom₁
  · exact Coherent.reserve h₁ hord₁ hroom₁ (hnone _)

/-- The collector copies sectors of a line that is not written to, as the map leads to them. -/
def Collects (cfg : Config) (media : DevAddr → Option (Nat × δ)) (s : Ftl δ) (line : Nat) (xs : List (Sector δ)) : Prop :=
  s.Collectable cfg line ∧
    ∀ x ∈ xs, ∀ a, s.map.transMap x.lba = .dev a → a.line = line → media a = some (x.lba,x.data)

theorem Coherent.writeGc (h : s.Coherent cfg content media) (hinv : s.Inv cfg p) {line : Nat}
    {lbas : List (Option Nat)} {data : List δ} (hcollects : s.Collects cfg media line (gcSectors line lbas data))
    (hw : s.writeGc cfg line lbas data = some s') : s'.Coherent cfg content media := by
  obtain ⟨s₁,hroom,-,rfl⟩ := writeGc_effect hw
  obtain ⟨c,rb,m,hup,hc,hfree,heq⟩ := makeRoom_effect hinv.ordered.cursors hroom
  obtain ⟨hfewer,h₁⟩ := h.release hinv hc hup heq
  have hord₁ : s₁.Ordered cfg p := heq ▸ hinv.ordered.release hc hup
  refine Coherent.setRl (Coherent.reserve h₁ hord₁ (by rw [heq]; exact hfree) ?_) _
  intro x hx line' hsrc
  rw [src_gcSectors hx] at hsrc
  cases hsrc
  refine ⟨hfewer.collectable hcollects.1,?_⟩
  intro a hpos hline
  rcases hfewer.dev _ a hpos with hold | ⟨i,hi,-⟩
  · exact hcollects.2 x hx a hold hline
  · exact absurd hline (hcollects.1.2 i a hi)

theorem Coherent.syncL2p (h : s.Coherent cfg content media) (hinv : s.Inv cfg p)
    (hs : step cfg s .syncL2p = some s') : s'.Coherent cfg content media := by
  obtain ⟨⟨rb,m⟩,hup,rfl⟩ := Option.map_eq_some_iff.mp hs
  obtain ⟨hl2p,hsync,hsubm,hlt,hl2pEq,hsyncEq,-,-⟩ := hinv.ordered.cursors
  have hcount : cfg.ring.count s.rwb.sync s.rwb.l2pUpdate = s.marks.sync - s.marks.l2p := by
    rw [hsyncEq,hl2pEq]
    exact RingSize.count_wrap hl2p (by omega)
  exact (h.release hinv (by omega) hup rfl).2

theorem Coherent.giveUp (h : s.Coherent cfg content media) (hord : s.Ordered cfg p) (hg : s.giveUp = some s') :
    s'.Coherent cfg content media := by
  unfold Ftl.giveUp at hg
  split at hg
  · cases hg
    exact h.push_lost hord (.of_eq rfl rfl rfl) rfl rfl rfl rfl
  · cases hg

theorem Quiet.endWBio (q : WReq δ) : Quiet cfg s (s.endWBio cfg q) := by
  let rb := (popBios cfg.ring q.ctx.nrValid s.rwb q.ctx.sentry).1
  have hsame : s.rwb.SameSectors rb := popBios_sameSectors
  have hdata : s.rwb.SameData rb := .popBios
  refine ⟨rfl,?_,⟨hdata.cacheline,hdata.lba,hdata.data,hdata.ppa⟩,fun i _ _ => Or.inl (hsame.phase _),rfl,Nat.le_refl _,
    fun i hlow hhigh => absurd hhigh (Nat.not_lt.mpr hlow)⟩
  change s.map.lines.SameAlloc ((q.ppas.take q.ctx.nrValid).foldl (fun m a => pblkSyncLine m a.line) s.map.lines)
  generalize s.map.lines = m
  induction q.ppas.take q.ctx.nrValid generalizing m with
  | nil => exact .refl m
  | cons a as ih => exact LineMgmt.SameAlloc.syncLine.trans (ih _)

theorem Coherent.retirable : Retirable cfg fun s : Ftl δ => s.Coherent cfg content media where
  complList s l h := by
    have hq : Quiet cfg s { s with complList := l } := .of_eq rfl rfl rfl
    exact hq.coherent h rfl rfl (h.writer.congr rfl rfl fun _ _ _ => rfl)
  completed s l h := by
    have hq : Quiet cfg s { s with completed := l } := .of_eq rfl rfl rfl
    exact hq.coherent h rfl rfl (h.writer.congr rfl rfl fun _ _ _ => rfl)
  answered s l h := by
    have hq : Quiet cfg s { s with answered := l } := .of_eq rfl rfl rfl
    exact hq.coherent h rfl rfl (h.writer.congr rfl rfl fun _ _ _ => rfl)
  endWBio s p q hord hq h := by
    have hquiet : Quiet cfg s (s.endWBio cfg q) := .endWBio q
    exact hquiet.coherent h rfl rfl (h.writer.congr rfl rfl fun _ _ _ => hquiet.data.ppa _)

end Ftl

end Sdssd.Pblk
