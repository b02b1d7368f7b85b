import Sdssd.Pblk.BufferSafety

/-!
# Flushes

A flush bio hangs on the last entry reserved before it and ends when `sync` passes that entry.
`sync_point` makes the write thread go on although there is less than a full request to send.
-/

namespace Sdssd.Pblk

open Framework

variable {δ : Type} {r : RingSize} {cfg : Config}

/-- The bios hang where they hung. -/
def Rb.SameBios (rb rb' : Rb δ) : Prop := ∀ pos, (rb'.entries pos).wCtx.bios = (rb.entries pos).wCtx.bios

namespace Rb.SameBios

variable {rb rb' : Rb δ} {n pos : Nat}

theorem refl (rb : Rb δ) : rb.SameBios rb := fun _ => rfl

theorem trans {a b c : Rb δ} (h : a.SameBios b) (k : b.SameBios c) : a.SameBios c :=
  fun pos => (k pos).trans (h pos)

theorem of_update {e : RbEntry δ} (h : rb'.entries = Function.update rb.entries pos e)
    (he : e.wCtx.bios = (rb.entries pos).wCtx.bios) : rb.SameBios rb' := by
  intro q
  rw [h,Function.update_apply]
  split
  · rename_i heq
    rw [heq,he]
  · rfl

theorem readEntries {ts : List (Taken δ)} (h : readEntries r n rb pos = some (rb',ts)) : rb.SameBios rb' := by
  refine readEntries_keeps (fun a => rb.SameBios a) ?_ (.refl rb) h
  intro a q b t ha hread
  exact ha.trans (.of_update (readEntry_eq_some hread).2.2.1 rfl)

theorem updateL2p {m m' : Map} (h : updateL2p cfg n rb m = some (rb',m')) : rb.SameBios rb' := by
  refine updateL2p_keeps (fun a _ => rb.SameBios a) ?_ (.refl rb) h
  intro a m₁ b m₂ ha hentry
  exact ha.trans (.of_update (updateL2pEntry_eq_some hentry).2.1 rfl)

theorem mapSectors {sentry mapSecs line paddr i : Nat} {lines : LineMgmt} :
    rb.SameBios (mapSectors r sentry mapSecs line paddr n i rb lines).1 := by
  refine mapSectors_keeps (fun a _ => rb.SameBios a) ?_ (.refl rb)
  intro a l k ha
  rcases mapSector_fst r a with heq | heq <;> rw [heq]
  · exact ha
  · exact ha.trans (.of_update rfl rfl)

end Rb.SameBios

theorem readEntries_syncPoint {rb rb' : Rb δ} {n v : Nat} {ts : List (Taken δ)}
    (h : readEntries r n rb (r.wrap v) = some (rb',ts)) :
    rb'.syncPoint = rb.syncPoint ∨ ∃ j, j < n ∧ rb.syncPoint = some (r.wrap (v + j)) := by
  induction n generalizing rb v ts with
  | zero =>
    obtain ⟨rfl,-⟩ := Prod.mk.inj (Option.some.inj h)
    exact Or.inl rfl
  | succ n ih =>
    rw [readEntries] at h
    cases hread : readEntry rb (r.wrap v) with
    | none => simp [hread] at h
    | some x =>
      obtain ⟨rb₁,t⟩ := x
      simp only [hread,RingSize.wrap_add] at h
      obtain ⟨⟨rb₂,ts'⟩,hrest,heq⟩ := Option.map_eq_some_iff.mp h
      obtain ⟨rfl,-⟩ := Prod.mk.inj heq
      have hfirst : rb₁.syncPoint = rb.syncPoint ∨ rb.syncPoint = some (r.wrap v) := by
        unfold readEntry at hread
        dsimp only at hread
        split at hread
        · cases hread
          dsimp only
          split
          · rename_i hclear
            exact Or.inr hclear.2
          · exact Or.inl rfl
        · cases hread
      rcases hfirst with hsame | hhere
      · rcases ih hrest with hkept | ⟨j,hj,hthere⟩
        · exact Or.inl (hkept.trans hsame)
        · refine Or.inr ⟨j + 1,by omega,?_⟩
          rw [← hsame,hthere]
          congr 2
          omega
      · exact Or.inr ⟨0,by omega,hhere⟩

theorem updateL2pEntry_syncPoint {rb rb' : Rb δ} {m m' : Map} (h : updateL2pEntry cfg rb m = some (rb',m')) :
    rb'.syncPoint = rb.syncPoint := by
  unfold updateL2pEntry at h
  dsimp only at h
  split at h
  · obtain ⟨m₂,-,h⟩ := Option.bind_eq_some_iff.mp h
    obtain ⟨lines,-,h⟩ := Option.bind_eq_some_iff.mp h
    obtain ⟨w,-,h⟩ := Option.map_eq_some_iff.mp h
    obtain ⟨rfl,-⟩ := Prod.mk.inj h
    rfl
  · cases h

theorem updateL2p_syncPoint {rb rb' : Rb δ} {m m' : Map} {n : Nat} (h : updateL2p cfg n rb m = some (rb',m')) :
    rb'.syncPoint = rb.syncPoint := by
  refine updateL2p_keeps (fun a _ => a.syncPoint = rb.syncPoint) ?_ rfl h
  intro a m₁ b m₂ ha hentry
  exact (updateL2pEntry_syncPoint hentry).trans ha

theorem popBios_syncPoint {rb : Rb δ} {n pos : Nat} : (popBios r n rb pos).1.syncPoint = rb.syncPoint :=
  popBios_keeps (fun a => a.syncPoint = rb.syncPoint) (fun _ _ ha => ha) rfl

theorem mapSectors_syncPoint {rb : Rb δ} {sentry mapSecs line paddr n i : Nat} {lines : LineMgmt} :
    (mapSectors r sentry mapSecs line paddr n i rb lines).1.syncPoint = rb.syncPoint := by
  refine mapSectors_keeps (fun a _ => a.syncPoint = rb.syncPoint) ?_ rfl
  intro a l k ha
  rcases mapSector_fst r a with heq | heq <;> rw [heq] <;> exact ha

namespace Ftl

/-- The flushes that wait for the entries before the `t`-th. -/
def dueAt (s : Ftl δ) (t : Nat) : List Nat := (s.flushes.filter fun f => decide (f.2 = t)).map Prod.fst

/-- Every flush hangs on the entry it waits for, or has ended, and `sync_point` is set as long as the write
thread has not come to the last one. -/
structure Hung (cfg : Config) (s : Ftl δ) : Prop where
  le_mem : ∀ f ∈ s.flushes, f.2 ≤ s.marks.mem
  bios : ∀ i, s.marks.sync ≤ i → i < s.marks.l2p + cfg.ring.cells → (s.slot cfg i).wCtx.bios = s.dueAt (i + 1)
  gone : ∀ i, s.marks.l2p ≤ i → i < s.marks.sync → (s.slot cfg i).wCtx.bios = []
  ended : s.ended.Perm ((s.flushes.filter fun f => decide (f.2 ≤ s.marks.sync)).map Prod.fst)
  last : ∀ f, s.flushes.getLast? = some f → ∀ g ∈ s.flushes, g.2 ≤ f.2
  point : ∀ f, s.flushes.getLast? = some f → s.marks.subm < f.2 → s.rwb.syncPoint = some (cfg.ring.wrap (f.2 - 1))

variable {s s' : Ftl δ} {p : Nat}

theorem dueAt_eq_nil {t : Nat} (h : ∀ f ∈ s.flushes, f.2 < t) : s.dueAt t = [] := by
  rw [dueAt,List.map_eq_nil_iff,List.filter_eq_nil_iff]
  intro f hf
  have hlt := h f hf
  simp only [decide_eq_true_eq]
  omega

/-- Steps that leave the flushes alone. -/
theorem Hung.congr (h : s.Hung cfg) (hbios : s.rwb.SameBios s'.rwb)
    (hpoint : ∀ f, s.flushes.getLast? = some f → s.marks.subm < f.2 → s'.rwb.syncPoint = s.rwb.syncPoint)
    (hl2p : s'.marks.l2p = s.marks.l2p) (hsync : s'.marks.sync = s.marks.sync)
    (hsubm : s.marks.subm ≤ s'.marks.subm) (hmem : s.marks.mem ≤ s'.marks.mem)
    (hflushes : s'.flushes = s.flushes) (hended : s'.ended = s.ended) : s'.Hung cfg := by
  have hdue : ∀ t, s'.dueAt t = s.dueAt t := by
    intro t
    rw [dueAt,dueAt,hflushes]
  constructor
  · rw [hflushes]
    intro f hf
    exact Nat.le_trans (h.le_mem f hf) hmem
  · rw [hsync,hl2p]
    intro i hi hi'
    rw [hdue,slot,hbios]
    exact h.bios i hi hi'
  · rw [hsync,hl2p]
    intro i hi hi'
    rw [slot,hbios]
    exact h.gone i hi hi'
  · rw [hended,hflushes,hsync]
    exact h.ended
  · rw [hflushes]
    exact h.last
  · rw [hflushes]
    intro f hf hlt
    have hlt' : s.marks.subm < f.2 := by omega
    rw [hpoint f hf hlt']
    exact h.point f hf hlt'

theorem Hung.release (h : s.Hung cfg) (hcur : s.Cursors cfg) {c : Nat} {rb : Rb δ} {m : Map}
    (hc : s.marks.l2p + c ≤ s.marks.sync) (hup : updateL2p cfg c s.rwb s.map = some (rb,m)) :
    ({ s with rwb := rb, map := m, marks := { s.marks with l2p := s.marks.l2p + c } } : Ftl δ).Hung cfg := by
  have hbios := Rb.SameBios.updateL2p hup
  have hslot : ∀ i, (rb.entries (cfg.ring.wrap i)).wCtx.bios = (s.slot cfg i).wCtx.bios := fun i => hbios _
  obtain ⟨hl2p,hsync,hsubm,hlt,-,-,-,-⟩ := hcur
  refine ⟨h.le_mem,?_,?_,h.ended,h.last,?_⟩ <;> dsimp only
  · intro i hi hi'
    refine (hslot i).trans ?_
    by_cases hold : i < s.marks.l2p + cfg.ring.cells
    · exact h.bios i hi hold
    · -- the cell of an entry whose bios were taken off one revolution ago
      have hback : cfg.ring.wrap i = cfg.ring.wrap (i - cfg.ring.cells) := by
        rw [← cfg.ring.wrap_add_cells (i - cfg.ring.cells),Nat.sub_add_cancel (by omega)]
      have hnone : s.dueAt (i + 1) = [] := by
        apply dueAt_eq_nil
        intro f hf
        have hle := h.le_mem f hf
        omega
      change (s.slot cfg i).wCtx.bios = s.dueAt (i + 1)
      rw [hnone,slot,hback]
      exact h.gone (i - cfg.ring.cells) (by omega) (by omega)
  · intro i hi hi'
    exact (hslot i).trans (h.gone i (by omega) hi')
  · intro f hf hlt'
    rw [updateL2p_syncPoint hup]
    exact h.point f hf hlt'

/-- A flush either finds nothing to wait for or hangs on the last entry that is reserved with it. -/
theorem flush_effect (h : s.Cursors cfg) (bio : Nat) {n : Nat} (hroom : s.marks.mem + n < s.marks.l2p + cfg.ring.cells) :
    s.marks.mem + n = s.marks.subm ∧ (s.flush cfg bio n).1 = s ∨
      s.marks.subm < s.marks.mem + n ∧ (s.flush cfg bio n).1 =
        { s with rwb := { s.rwb.setEntry (cfg.ring.wrap (s.marks.mem + n - 1))
                            ((s.slot cfg (s.marks.mem + n - 1)).hang bio) with
                          syncPoint := some (cfg.ring.wrap (s.marks.mem + n - 1)) },
                 flushes := s.flushes ++ [(bio,s.marks.mem + n)] } := by
  obtain ⟨hl2p,hsync,hsubm,hlt,-,-,hsubmEq,hmemEq⟩ := h
  have hpos : cfg.ring.wrap (s.rwb.mem + n) = cfg.ring.wrap (s.marks.mem + n) := by
    rw [hmemEq,RingSize.wrap_add]
  unfold Ftl.flush pblkRbSyncPointSet
  rw [hpos,hsubmEq]
  by_cases heq : cfg.ring.wrap (s.marks.mem + n) = cfg.ring.wrap s.marks.subm
  · have hsame : s.marks.mem + n = s.marks.subm :=
      RingSize.wrap_inj (l := s.marks.l2p) (by omega) hroom (by omega) (by omega) heq
    rw [if_pos heq]
    exact Or.inl ⟨hsame,rfl⟩
  · have hne : s.marks.mem + n ≠ s.marks.subm := fun hsame => heq (by rw [hsame])
    rw [if_neg heq,RingSize.wrap_pred (by omega)]
    exact Or.inr ⟨by omega,rfl⟩

theorem dueAt_append (bio : Nat) {t u : Nat} (h : s'.flushes = s.flushes ++ [(bio,t)]) :
    s'.dueAt u = s.dueAt u ++ if t = u then [bio] else [] := by
  rw [dueAt,dueAt,h,List.filter_append,List.map_append]
  split
  · rename_i heq
    simp [heq]
  · rename_i hne
    simp [hne]

theorem Hung.reserve (h : s.Hung cfg) {n : Nat} (xs : List (Sector δ)) (acc : List (Option (Sector δ))) :
    (s.reserve cfg n xs acc).Hung cfg :=
  h.congr (.refl _) (fun _ _ _ => rfl) rfl rfl (Nat.le_refl _) (Nat.le_add_right _ _) rfl rfl

theorem Hung.flush (h : s.Hung cfg) (hcur : s.Cursors cfg) {bio n : Nat} (xs : List (Sector δ))
    (acc : List (Option (Sector δ))) (hroom : s.marks.mem + n < s.marks.l2p + cfg.ring.cells) :
    ((s.flush cfg bio n).1.reserve cfg n xs acc).Hung cfg := by
  rcases flush_effect hcur bio hroom with ⟨-,heq⟩ | ⟨hbehind,heq⟩ <;> rw [heq]
  · exact h.reserve xs acc
  obtain ⟨hl2p,hsync,hsubm,hlt,-,-,-,-⟩ := hcur
  let e := (s.slot cfg (s.marks.mem + n - 1)).hang bio
  have hself : (s.rwb.setEntry (cfg.ring.wrap (s.marks.mem + n - 1)) e).entries
      (cfg.ring.wrap (s.marks.mem + n - 1)) = e := Rb.entries_setEntry_self _
  have hother : ∀ i, s.marks.l2p ≤ i → i < s.marks.l2p + cfg.ring.cells → i ≠ s.marks.mem + n - 1 →
      (s.rwb.setEntry (cfg.ring.wrap (s.marks.mem + n - 1)) e).entries (cfg.ring.wrap i) = s.slot cfg i := by
    intro i hi hi' hne
    exact Rb.entries_setEntry_of_ne _ (RingSize.wrap_ne hi hi' (by omega) (by omega) hne)
  refine ⟨?_,?_,?_,?_,?_,?_⟩
  · intro f hf
    change f.2 ≤ s.marks.mem + n
    rcases List.mem_append.mp hf with hf | hf
    · have hle := h.le_mem f hf
      omega
    · rw [List.mem_singleton.mp hf]
  · intro i hi hi'
    have hlow : s.marks.sync ≤ i := hi
    have hhigh : i < s.marks.l2p + cfg.ring.cells := hi'
    rw [dueAt_append (s := s) (t := s.marks.mem + n) bio rfl]
    by_cases hlast : i = s.marks.mem + n - 1
    · subst hlast
      rw [if_pos (by omega)]
      refine (congrArg (fun x => x.wCtx.bios) hself).trans ?_
      change (s.slot cfg (s.marks.mem + n - 1)).wCtx.bios ++ [bio] = _
      rw [h.bios _ hlow hhigh]
    · rw [if_neg (by omega),List.append_nil]
      exact (congrArg (fun x => x.wCtx.bios) (hother i (by omega) hhigh hlast)).trans (h.bios i hlow hhigh)
  · intro i hi hi'
    have hlow : s.marks.l2p ≤ i := hi
    have hhigh : i < s.marks.sync := hi'
    exact (congrArg (fun x => x.wCtx.bios) (hother i hlow (by omega) (by omega))).trans (h.gone i hlow hhigh)
  · change s.ended.Perm (((s.flushes ++ [(bio,s.marks.mem + n)]).filter fun f => decide (f.2 ≤ s.marks.sync)).map Prod.fst)
    have hnew : ¬ s.marks.mem + n ≤ s.marks.sync := by omega
    rw [List.filter_append]
    simpa [hnew] using h.ended
  · intro f hf g hg
    have hlast : (s.flushes ++ [(bio,s.marks.mem + n)]).getLast? = some f := hf
    rw [List.getLast?_concat] at hlast
    cases hlast
    rcases List.mem_append.mp hg with hg | hg
    · exact Nat.le_trans (h.le_mem g hg) (Nat.le_add_right _ _)
    · rw [List.mem_singleton.mp hg]
  · intro f hf _
    have hlast : (s.flushes ++ [(bio,s.marks.mem + n)]).getLast? = some f := hf
    rw [List.getLast?_concat] at hlast
    cases hlast
    rfl

/-- The entries of the request that is retired lose their bios, which are those that were due. -/
theorem Hung.endWBio (h : s.Hung cfg) (hord : s.Ordered cfg p) {q : WReq δ} (hq : s.device[p]? = some q) :
    (s.endWBio cfg q).Hung cfg := by
  obtain ⟨hl2p,hsync,hsubm,hlt,-,-,-,-⟩ := hord.cursors
  have hle := offset_add_le hq
  have hsum := hord.requests.subm
  have hstart : s.marks.sync = offset s.lens p := hord.completions.sync
  have hsentry : cfg.ring.wrap q.ctx.sentry = cfg.ring.wrap s.marks.sync := by
    rw [hord.requests.sentry p q hq,RingSize.wrap_wrap,hstart]
  obtain ⟨hswept,-,hpopped⟩ := popBios_spec s.rwb (show q.ctx.nrValid ≤ cfg.ring.cells by omega) hsentry
  have hout : ∀ i, s.marks.l2p ≤ i → i < s.marks.l2p + cfg.ring.cells →
      i < s.marks.sync ∨ s.marks.sync + q.ctx.nrValid ≤ i →
      (popBios cfg.ring q.ctx.nrValid s.rwb q.ctx.sentry).1.entries (cfg.ring.wrap i) = s.slot cfg i := by
    intro i hi hi' hcase
    apply hswept.outside
    intro k hk hk'
    exact RingSize.wrap_ne hi hi' (by omega) (by omega) (by omega)
  refine ⟨h.le_mem,?_,?_,?_,h.last,?_⟩
  · intro i hi hi'
    have hlow : s.marks.sync + q.ctx.nrValid ≤ i := hi
    have hhigh : i < s.marks.l2p + cfg.ring.cells := hi'
    exact (congrArg (fun x => x.wCtx.bios) (hout i (by omega) hhigh (Or.inr hlow))).trans (h.bios i (by omega) hhigh)
  · intro i hi hi'
    have hlow : s.marks.l2p ≤ i := hi
    have hhigh : i < s.marks.sync + q.ctx.nrValid := hi'
    by_cases hold : i < s.marks.sync
    · exact (congrArg (fun x => x.wCtx.bios) (hout i hlow (by omega) (Or.inl hold))).trans (h.gone i hlow hold)
    · exact congrArg (fun x => x.wCtx.bios) (hswept.inside i (by omega) hhigh)
  · change (s.ended ++ (popBios cfg.ring q.ctx.nrValid s.rwb q.ctx.sentry).2).Perm
      ((s.flushes.filter fun f => decide (f.2 ≤ s.marks.sync + q.ctx.nrValid)).map Prod.fst)
    have hdue : (popBios cfg.ring q.ctx.nrValid s.rwb q.ctx.sentry).2 =
        ((List.range q.ctx.nrValid).flatMap fun j =>
          s.flushes.filter fun f => decide (f.2 = s.marks.sync + j + 1)).map Prod.fst := by
      rw [hpopped,List.map_flatMap]
      apply List.flatMap_congr
      intro j hj
      have hjn := List.mem_range.mp hj
      exact h.bios (s.marks.sync + j) (by omega) (by omega)
    rw [hdue]
    refine (h.ended.append_right _).trans ?_
    rw [← List.map_append]
    exact ((filter_due_perm s.flushes Prod.snd s.marks.sync q.ctx.nrValid).map Prod.fst).symm
  · intro f hf hbehind
    change (popBios cfg.ring q.ctx.nrValid s.rwb q.ctx.sentry).1.syncPoint = _
    rw [popBios_syncPoint]
    exact h.point f hf hbehind

theorem Hung.retirable : Retirable cfg fun s : Ftl δ => s.Hung cfg where
  complList _ _ h := h.congr (.refl _) (fun _ _ _ => rfl) rfl rfl (Nat.le_refl _) (Nat.le_refl _) rfl rfl
  completed _ _ h := h.congr (.refl _) (fun _ _ _ => rfl) rfl rfl (Nat.le_refl _) (Nat.le_refl _) rfl rfl
  answered _ _ h := h.congr (.refl _) (fun _ _ _ => rfl) rfl rfl (Nat.le_refl _) (Nat.le_refl _) rfl rfl
  endWBio _ _ _ hord hq h := h.endWBio hord hq

/-- Steps that change neither the marks nor the buffer. -/
theorem Hung.frame (h : s.Hung cfg) (hrwb : s'.rwb = s.rwb) (hmarks : s'.marks = s.marks)
    (hflushes : s'.flushes = s.flushes) (hended : s'.ended = s.ended) : s'.Hung cfg := by
  refine h.congr ?_ ?_ (by rw [hmarks]) (by rw [hmarks]) (by rw [hmarks]) (by rw [hmarks]) hflushes hended
  · rw [hrwb]
    exact .refl _
  · intro _ _ _
    rw [hrwb]

/-- The entries that are read lie before `subm`, and the last flush does not, if it is to keep the write
thread going. -/
theorem Hung.point_kept (h : s.Hung cfg) (hord : s.Ordered cfg p) {n : Nat} {rb : Rb δ} {ts : List (Taken δ)}
    (hn : n ≤ s.held) (hread : readEntries cfg.ring n s.rwb (cfg.ring.wrap s.lens.sum) = some (rb,ts)) {f : Nat × Nat}
    (hf : s.flushes.getLast? = some f) (hbehind : s.marks.subm < f.2) : rb.syncPoint = s.rwb.syncPoint := by
  rcases readEntries_syncPoint hread with hsame | ⟨j,hj,hhere⟩
  · exact hsame
  · obtain ⟨hl2p,hsync,hsubm,hlt,-,-,-,-⟩ := hord.cursors
    have hsum := hord.requests.subm
    have hlow := hord.l2p_le_sum
    have hle := h.le_mem f (List.mem_of_getLast? hf)
    rw [h.point f hf hbehind,Option.some_inj] at hhere
    have hsame : f.2 - 1 = s.lens.sum + j :=
      RingSize.wrap_inj (l := s.marks.l2p) (by omega) (by omega) (by omega) (by omega) hhere
    omega

theorem Hung.read (h : s.Hung cfg) (hord : s.Ordered cfg p) (hr : s.read cfg = some s') : s'.Hung cfg := by
  obtain ⟨pos,secs,count,rb,ts,hw,hread,rfl⟩ := read_effect hr
  have hstart := hord.requests.starts
  simp only [Starts,hw] at hstart
  obtain ⟨rfl,-⟩ := hstart
  have hheld : s.held = min secs count := by simp only [held,hw]
  refine h.congr (.readEntries hread) ?_ rfl rfl (Nat.le_refl _) (Nat.le_refl _) rfl rfl
  intro f hf hbehind
  exact h.point_kept hord (Nat.le_of_eq hheld.symm) hread hf hbehind

theorem Hung.readFail (h : s.Hung cfg) (hord : s.Ordered cfg p) {i : Nat} (hr : s.readFail cfg i = some s') :
    s'.Hung cfg := by
  obtain ⟨pos,secs,count,rb,ts,rb',hw,hi,hread,hfail,rfl⟩ := readFail_effect hr
  have hstart := hord.requests.starts
  simp only [Starts,hw] at hstart
  obtain ⟨rfl,-⟩ := hstart
  have hheld : s.held = min secs count := by simp only [held,hw]
  obtain ⟨-,hentries,-,hpoint⟩ := readEntryFail_eq_some hfail
  have hbios : s.rwb.SameBios rb' := (Rb.SameBios.readEntries hread).trans (.of_update hentries rfl)
  refine h.congr hbios ?_ rfl rfl (Nat.le_refl _) (Nat.le_refl _) rfl rfl
  intro f hf hbehind
  exact hpoint.trans (h.point_kept hord (by omega) hread hf hbehind)

theorem Hung.step (h : s.Hung cfg) (hord : s.Ordered cfg p) {e : Event δ} (hs : Pblk.step cfg s e = some s')
    (he : ∀ k failed recovery, e ≠ .answer k failed recovery) : s'.Hung cfg := by
  cases e with
  | writeUser b =>
    obtain ⟨s₁,xs,acc,hroom,-,-,-,-,rfl⟩ := writeUser_effect hs
    obtain ⟨c,rb,m,hup,hc,hfree,rfl⟩ := makeRoom_effect hord.cursors hroom
    have h₁ := h.release hord.cursors hc hup
    have h₂ := (hord.release hc hup).cursors
    split
    · exact (h₁.flush h₂ xs acc hfree).frame rfl rfl rfl rfl
    · exact (h₁.reserve xs acc).frame rfl rfl rfl rfl
  | writeGc line lbas data =>
    obtain ⟨s₁,hroom,-,rfl⟩ := writeGc_effect hs
    obtain ⟨c,rb,m,hup,hc,hfree,rfl⟩ := makeRoom_effect hord.cursors hroom
    exact ((h.release hord.cursors hc hup).reserve (gcSectors line lbas data)
      ((gcSectors line lbas data).map some)).frame rfl rfl rfl rfl
  | insert j =>
    obtain ⟨pos,x,m,-,-,-,rfl⟩ := insert_effect hs
    exact h.congr (.of_update rfl rfl) (fun _ _ _ => rfl) rfl rfl (Nat.le_refl _) (Nat.le_refl _) rfl rfl
  | commit =>
    obtain ⟨-,secs,avail,-,-,rfl⟩ := commit_effect hs
    exact h.congr (.refl _) (fun _ _ _ => rfl) rfl rfl (Nat.le_add_right _ _) (Nat.le_refl _) rfl rfl
  | read => exact h.read hord hs
  | readFail i => exact h.readFail hord hs
  | giveUp =>
    simp only [Pblk.step,Ftl.giveUp] at hs
    split at hs <;> cases hs
    exact h.frame rfl rfl rfl rfl
  | mapPage =>
    obtain ⟨c,taken,ppas,d,l,paddr,-,-,-,-,rfl⟩ := mapPage_effect hs
    exact h.congr .mapSectors (fun _ _ _ => mapSectors_syncPoint) rfl rfl (Nat.le_refl _) (Nat.le_refl _) rfl rfl
  | send ok =>
    simp only [Pblk.step,Ftl.send] at hs
    split at hs
    · split at hs <;> cases hs
      exact h.frame rfl rfl rfl rfl
    · cases hs
  | answer k failed recovery => exact absurd rfl (he k failed recovery)
  | discard slba n =>
    cases hs
    exact h.frame rfl rfl rfl rfl
  | syncL2p =>
    obtain ⟨⟨rb,m⟩,hup,rfl⟩ := Option.map_eq_some_iff.mp hs
    obtain ⟨hl2p,hsync,hsubm,hlt,hl2pEq,hsyncEq,-,-⟩ := hord.cursors
    have hcount : cfg.ring.count s.rwb.sync s.rwb.l2pUpdate = s.marks.sync - s.marks.l2p := by
      rw [hsyncEq,hl2pEq]
      exact RingSize.count_wrap hl2p (by omega)
    exact h.release hord.cursors (by omega) hup
  | lines m =>
    cases hs
    exact h.frame rfl rfl rfl rfl
  | rates n =>
    obtain ⟨x,-,rfl⟩ := Option.map_eq_some_iff.mp hs
    exact h.frame rfl rfl rfl rfl
  | userTimer =>
    cases hs
    exact h.frame rfl rfl rfl rfl

theorem Hung.init (pages : Nat → δ) (lines : LineMgmt) (rl : Rl) : (Ftl.init pages lines rl).Hung cfg where
  le_mem f hf := by cases hf
  bios _ _ _ := rfl
  gone i _ hi := by cases hi
  ended := List.Perm.nil
  last f hf := by cases hf
  point f hf := by cases hf

end Ftl

section Results

variable {pages : Nat → δ} {lines : LineMgmt} {rl : Rl} {s : Ftl δ}

theorem Ftl.exists_inv_hung (h : Reaches (step cfg) always (Ftl.init pages lines rl) s) :
    ∃ p, s.Inv cfg p ∧ s.Hung cfg := by
  obtain ⟨p,-,hinv⟩ := Ftl.Inv.reaches Ftl.Hung.retirable (fun hord hh hs he => hh.step hord hs he)
    (Ftl.Inv.init pages lines rl) (Ftl.Hung.init pages lines rl) h
  exact ⟨p,hinv⟩

/-- One sector with a flush: the request is padded. -/
def flushRun : List (Event Nat) :=
  [.writeUser ⟨7,0,[10],true,true⟩,.insert 0,.commit,.read,.mapPage,.send true,.answer 0 none true]

theorem flushRun_isSome : (flushRun.foldlM (step smallConfig) smallInit).isSome = true := by decide

def flushState : Ftl Nat := (flushRun.foldlM (step smallConfig) smallInit).get flushRun_isSome

end Results

end Sdssd.Pblk
