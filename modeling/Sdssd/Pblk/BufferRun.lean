import Sdssd.Pblk.BufferOrder

/-!
# Runs of the write buffer

The steps of the write thread and of the device keep the order of the buffer, and so does every run.
-/

namespace Sdssd.Pblk

open Framework

variable {δ : Type} {cfg : Config}

namespace Ftl

variable {s s' : Ftl δ} {p : Nat}

/-! ## The write thread -/

/-- Entries may go from written to submitted; the write thread hands over only such entries. -/
theorem Slots.of_moved (h : s.Slots cfg) (hcur : s.Cursors cfg)
    (hl2p : s'.marks.l2p = s.marks.l2p) (hmem : s'.marks.mem = s.marks.mem) (hjobs : s'.jobs = s.jobs)
    (haccepted : s'.accepted = s.accepted)
    (hmoved : ∀ i, s.marks.l2p ≤ i → i < s.marks.l2p + cfg.ring.cells → s'.slot cfg i = s.slot cfg i ∨
      (s.slot cfg i).phase = some .written ∧ (s'.slot cfg i).phase = some .submitted ∧
        (s'.slot cfg i).sector = (s.slot cfg i).sector)
    (hhanded : ∀ i, s.marks.l2p ≤ i → s'.Handed i → i < s.marks.mem ∧
      (s.Handed i ∨ (s'.slot cfg i).phase = some .submitted)) : s'.Slots cfg := by
  obtain ⟨hle,hle',hle'',hlt,-,-,-,-⟩ := hcur
  have hreserved : ∀ i, s.marks.l2p ≤ i → i < s.marks.l2p + cfg.ring.cells →
      (s.slot cfg i).phase = some .reserved → (s'.slot cfg i).phase = some .reserved := by
    intro i hi hi' hphase
    rcases hmoved i hi hi' with heq | ⟨hwritten,-,-⟩
    · rw [heq,hphase]
    · rw [hphase] at hwritten
      cases hwritten
  constructor
  · rw [haccepted,hmem]
    exact h.length
  · rw [hmem,hl2p]
    intro i hi hi'
    exact hreserved i (by omega) hi' (h.free i hi hi')
  · rw [hmem,hl2p,haccepted]
    intro i hi hi'
    rcases h.used i hi hi' with hphase | ⟨x,hx,hsector,hphase⟩
    · exact Or.inl (hreserved i hi (by omega) hphase)
    · rcases hmoved i hi (by omega) with heq | ⟨-,hsubmitted,hsame⟩
      · rw [heq]
        exact Or.inr ⟨x,hx,hsector,hphase⟩
      · exact Or.inr ⟨x,hx,hsame.trans hsector,Or.inr hsubmitted⟩
  · rw [hl2p]
    intro i hi hh
    obtain ⟨hlt,hold | hnew⟩ := hhanded i hi hh
    · rcases hmoved i hi (by omega) with heq | ⟨-,hsubmitted,-⟩
      · rw [heq]
        exact h.handed i hi hold
      · exact hsubmitted
    · exact hnew
  · rw [hjobs]
    intro j hj
    obtain ⟨i,hi,hi',hpos,hacc,hphase⟩ := h.jobs j hj
    exact ⟨i,by omega,by omega,hpos,haccepted ▸ hacc,hreserved i hi (by omega) hphase⟩
  · rw [hjobs]
    exact h.nodup

theorem pblkCalcSecs_pos {avail toFlush : Nat} (havail : avail ≠ 0)
    (h : ¬(toFlush = 0 ∧ avail < cfg.maxWritePgs)) : 0 < min (pblkCalcSecs cfg avail toFlush) avail := by
  have hmin := cfg.min_pos
  have hle := cfg.min_le_max
  unfold pblkCalcSecs
  split
  · omega
  · split
    · rename_i hfull
      have hpages : 0 < avail / cfg.minWritePgs := Nat.div_pos hfull hmin
      have hsecs := Nat.mul_pos hmin hpages
      omega
    · split <;> omega

theorem commit_effect (h : s.commit cfg = some s') :
    s.writer = .idle ∧ ∃ secs avail, avail = pblkRbReadCount cfg.ring s.rwb ∧ 0 < min secs avail ∧
      s' = { s with rwb := { s.rwb with subm := cfg.ring.wrap (s.rwb.subm + min secs avail) },
                    writer := .committed s.rwb.subm secs avail,
                    marks := { s.marks with subm := s.marks.subm + min secs avail } } := by
  unfold commit at h
  split at h
  · rename_i hw
    dsimp only at h
    split at h
    · cases h
    · rename_i hgo
      rw [not_or] at hgo
      cases h
      exact ⟨hw,_,_,rfl,pblkCalcSecs_pos hgo.1 hgo.2,rfl⟩
  · cases h

theorem commit_enabled (hidle : s.writer = .idle) (havail : pblkRbReadCount cfg.ring s.rwb ≠ 0)
    (hgo : ¬(pblkRbSyncPointCount cfg.ring s.rwb = 0 ∧ pblkRbReadCount cfg.ring s.rwb < cfg.maxWritePgs)) :
    ∃ s', s.commit cfg = some s' := by
  unfold Ftl.commit
  rw [hidle]
  dsimp only
  rw [if_neg (not_or.mpr ⟨havail,hgo⟩)]
  exact ⟨_,rfl⟩

theorem Ordered.commit (h : s.Ordered cfg p) (hc : s.commit cfg = some s') : s'.Ordered cfg p := by
  obtain ⟨hl2p,hsync,hsubm,hlt,hl2pEq,hsyncEq,hsubmEq,hmemEq⟩ := h.cursors
  obtain ⟨hw,secs,avail,havail,hpos,rfl⟩ := commit_effect hc
  have hcount : avail = s.marks.mem - s.marks.subm := by
    rw [havail,pblkRbReadCount,hmemEq,hsubmEq]
    exact RingSize.count_wrap hsubm (by omega)
  have hsum : s.marks.subm = s.lens.sum := by
    have hheld : s.held = 0 := by simp only [held,hw]
    rw [h.requests.subm,hheld,Nat.add_zero]
  refine ⟨⟨hl2p,?_,?_,hlt,hl2pEq,hsyncEq,?_,hmemEq⟩,⟨?_,h.requests.sentry,h.requests.valid,?_,hpos⟩,
    ⟨h.completions.sync,h.completions.le_length,h.completions.sent,h.completions.answered⟩,?_,
    ⟨h.fifo.device,?_⟩⟩ <;> dsimp only
  · omega
  · omega
  · rw [hsubmEq,RingSize.wrap_add]
  · rw [hsum]
    rfl
  · rw [hsubmEq,hsum]
    rfl
  · refine h.slots.of_moved h.cursors rfl rfl rfl rfl ?_ ?_
    · intro i _ _
      exact Or.inl rfl
    · intro i _ hh
      have hold : s.Handed i := by
        rcases hh with hh | ⟨c,taken,ppas,hw',-⟩
        · exact Or.inl hh
        · cases hw'
      have hbound := h.requests.handed_lt hold
      exact ⟨by omega,Or.inl hold⟩
  · intro c taken ppas hw'
    cases hw'

/-- The buffer after entries have gone from written to submitted. -/
structure Moved (cfg : Config) (s : Ftl δ) (rb : Rb δ) : Prop where
  cursors : s.rwb.SameCursors rb
  slots : ∀ i, s.marks.l2p ≤ i → i < s.marks.l2p + cfg.ring.cells → rb.entries (cfg.ring.wrap i) = s.slot cfg i ∨
    (s.slot cfg i).phase = some .written ∧ (rb.entries (cfg.ring.wrap i)).phase = some .submitted ∧
      (rb.entries (cfg.ring.wrap i)).sector = (s.slot cfg i).sector

theorem Ordered.moved (h : s.Ordered cfg p) {rb : Rb δ} (hm : s.Moved cfg rb) :
    ({ s with rwb := rb } : Ftl δ).Ordered cfg p := by
  obtain ⟨hl2p,hsync,hsubm,hlt,hl2pEq,hsyncEq,hsubmEq,hmemEq⟩ := h.cursors
  refine ⟨⟨hl2p,hsync,hsubm,hlt,hm.cursors.l2pUpdate.trans hl2pEq,hm.cursors.sync.trans hsyncEq,
    hm.cursors.subm.trans hsubmEq,hm.cursors.mem.trans hmemEq⟩,h.requests.congr rfl rfl rfl,
    h.completions.congr rfl rfl rfl (List.Subset.refl _),?_,h.fifo.congr rfl rfl rfl⟩
  refine h.slots.of_moved h.cursors rfl rfl rfl rfl hm.slots ?_
  intro i _ hh
  have hbound := h.requests.handed_lt hh
  exact ⟨by omega,Or.inl hh⟩

theorem Slots.written (h : s.Slots cfg) {i : Nat} (hi : s.marks.l2p ≤ i) (hi' : i < s.marks.mem)
    (hw : (s.slot cfg i).wCtx.flags.written = true) : (s.slot cfg i).phase = some .written ∧
      ∃ x, s.accepted[i]? = some (some x) ∧ (s.slot cfg i).sector = x.taken := by
  rcases h.used i hi hi' with hphase | ⟨x,hx,hsector,hphase | hphase⟩
  · cases RbEntry.written_of_flag hphase hw
  · exact ⟨hphase,x,hx,hsector⟩
  · cases RbEntry.written_of_flag hphase hw

theorem getElem?_slice {o n j : Nat} (hj : j < n) :
    (s.slice o n)[j]? = (s.accepted[o + j]?).map (Option.map Sector.taken) := by
  rw [slice,List.getElem?_map,List.getElem?_take_of_lt hj,List.getElem?_drop]

theorem Ordered.l2p_le_sum (h : s.Ordered cfg p) : s.marks.l2p ≤ s.lens.sum := by
  refine Nat.le_trans h.cursors.l2p_le ?_
  rw [h.completions.sync]
  exact offset_le_sum p

theorem Ordered.readEntries (h : s.Ordered cfg p) {n : Nat} {rb : Rb δ} {ts : List (Taken δ)} (hn : n ≤ s.held)
    (hread : readEntries cfg.ring n s.rwb (cfg.ring.wrap s.lens.sum) = some (rb,ts)) :
    s.Moved cfg rb ∧ (∀ j, j < n → (rb.entries (cfg.ring.wrap (s.lens.sum + j))).phase = some .submitted) ∧
      (∀ i, s.lens.sum + n ≤ i → i < s.marks.l2p + cfg.ring.cells → rb.entries (cfg.ring.wrap i) = s.slot cfg i) ∧
      ts.map some = s.slice s.lens.sum n := by
  obtain ⟨hl2p,hsync,hsubm,hlt,-,-,-,-⟩ := h.cursors
  have hlow := h.l2p_le_sum
  have hsum := h.requests.subm
  obtain ⟨hswept,hcur,hlen,hall⟩ := readEntries_spec (by omega) hread
  have hwritten : ∀ j, j < n → (s.slot cfg (s.lens.sum + j)).phase = some .written ∧
      ∃ x, s.accepted[s.lens.sum + j]? = some (some x) ∧ (s.slot cfg (s.lens.sum + j)).sector = x.taken := by
    intro j hj
    exact h.slots.written (by omega) (by omega) (hall j hj).1
  have hinside : ∀ j, j < n →
      rb.entries (cfg.ring.wrap (s.lens.sum + j)) = (s.slot cfg (s.lens.sum + j)).hand := by
    intro j hj
    exact hswept.inside (s.lens.sum + j) (by omega) (by omega)
  have houtside : ∀ i, s.marks.l2p ≤ i → i < s.marks.l2p + cfg.ring.cells → i < s.lens.sum ∨ s.lens.sum + n ≤ i →
      rb.entries (cfg.ring.wrap i) = s.slot cfg i := by
    intro i hi hi' hout
    apply hswept.outside
    intro k hk hk'
    exact RingSize.wrap_ne hi hi' (by omega) (by omega) (by omega)
  refine ⟨⟨hcur,?_⟩,?_,?_,?_⟩
  · intro i hi hi'
    by_cases hout : i < s.lens.sum ∨ s.lens.sum + n ≤ i
    · exact Or.inl (houtside i hi hi' hout)
    · obtain ⟨j,rfl⟩ := Nat.exists_eq_add_of_le (show s.lens.sum ≤ i by omega)
      have hphase := (hwritten j (by omega)).1
      rw [hinside j (by omega)]
      exact Or.inr ⟨hphase,RbEntry.hand_phase hphase,RbEntry.hand_sector⟩
  · intro j hj
    rw [hinside j hj]
    exact RbEntry.hand_phase (hwritten j hj).1
  · intro i hi hi'
    exact houtside i (by omega) hi' (Or.inr hi)
  · apply List.ext_getElem?
    intro j
    by_cases hj : j < n
    · obtain ⟨-,x,hx,hsector⟩ := hwritten j hj
      rw [getElem?_slice hj,hx,List.getElem?_map,(hall j hj).2]
      exact congrArg (fun t => some (some t)) hsector
    · have hleft : (ts.map some).length ≤ j := by simp [hlen]; omega
      have hright : (s.slice s.lens.sum n).length ≤ j := by simp [slice]; omega
      rw [List.getElem?_eq_none hleft,List.getElem?_eq_none hright]

theorem read_effect (h : s.read cfg = some s') :
    ∃ pos secs count rb ts, s.writer = .committed pos secs count ∧
      readEntries cfg.ring (min secs count) s.rwb pos = some (rb,ts) ∧
      s' = { s with rwb := rb, writer := .mapping (cCtx pos secs count) ts [],
                    rl := pblkRlOut s.rl (countIo .user ts) (countIo .gc ts) } := by
  unfold read at h
  split at h
  · rename_i pos secs count hw
    obtain ⟨⟨rb,ts⟩,hread,rfl⟩ := Option.map_eq_some_iff.mp h
    exact ⟨pos,secs,count,rb,ts,hw,hread,rfl⟩
  · cases h

theorem Ordered.read (h : s.Ordered cfg p) (hr : s.read cfg = some s') : s'.Ordered cfg p := by
  obtain ⟨pos,secs,count,rb,ts,hw,hread,rfl⟩ := read_effect hr
  have hstart := h.requests.starts
  simp only [Starts,hw] at hstart
  obtain ⟨rfl,hpos⟩ := hstart
  have hheld : s.held = min secs count := by simp only [held,hw]
  obtain ⟨hmoved,hsubmitted,-,hslice⟩ := h.readEntries (Nat.le_of_eq hheld.symm) hread
  have hnew := h.moved hmoved
  have hsum := h.requests.subm
  have hmem := h.cursors.subm_le
  refine ⟨⟨hnew.cursors.l2p_le,hnew.cursors.sync_le,hnew.cursors.subm_le,hnew.cursors.mem_lt,hnew.cursors.l2p_eq,
    hnew.cursors.sync_eq,hnew.cursors.subm_eq,hnew.cursors.mem_eq⟩,
    ⟨?_,h.requests.sentry,h.requests.valid,rfl,hpos⟩,h.completions.congr rfl rfl rfl (List.Subset.refl _),?_,
    ⟨h.fifo.device,?_⟩⟩
  · rw [hheld] at hsum
    exact hsum
  · refine hnew.slots.of_moved hnew.cursors rfl rfl rfl rfl ?_ ?_
    · intro i _ _
      exact Or.inl rfl
    · intro i _ hh
      rcases hh with hh | ⟨c,taken,ppas,hw',hlo,hhi⟩
      · have hbound := h.requests.handed_lt (Or.inl hh)
        exact ⟨Nat.lt_of_lt_of_le hbound hmem,Or.inl (Or.inl hh)⟩
      · cases hw'
        have hlo' : s.lens.sum ≤ i := hlo
        have hhi' : i < s.lens.sum + min secs count := hhi
        obtain ⟨j,rfl⟩ := Nat.exists_eq_add_of_le hlo'
        refine ⟨show s.lens.sum + j < s.marks.mem by omega,Or.inr (hsubmitted j (by omega))⟩
  · intro c taken ppas hw'
    cases hw'
    exact hslice

/-- The write thread is done with a request, whether it has sent it or given up. -/
theorem Ordered.push (h : s.Ordered cfg p) {q : WReq δ} (hheld : s.held = q.ctx.nrValid)
    (hstart : q.ctx.sentry = cfg.ring.wrap s.lens.sum) (hpos : 0 < q.ctx.nrValid)
    (hsent : q.sent = true ∨ q.taken ≠ [] → ∃ ppas, s.writer = .mapping q.ctx q.taken ppas) :
    ({ s with writer := .idle, device := s.device ++ [q] } : Ftl δ).Ordered cfg p := by
  let s₁ : Ftl δ := { s with writer := .idle, device := s.device ++ [q] }
  have hlens : s₁.lens = s.lens ++ [q.ctx.nrValid] := by simp [s₁,lens]
  have hlength : s.lens.length = s.device.length := by simp [lens]
  have hoffset : ∀ k, k ≤ s.device.length → offset s₁.lens k = offset s.lens k := by
    intro k hk
    rw [hlens]
    exact offset_append (by omega)
  have hend : offset s₁.lens s.device.length = s.lens.sum := by
    rw [hoffset _ (Nat.le_refl _),← hlength,offset_length]
  have hget : ∀ k q', (s.device ++ [q])[k]? = some q' →
      s.device[k]? = some q' ∧ k < s.device.length ∨ k = s.device.length ∧ q' = q := by
    intro k q' hk
    rcases Nat.lt_or_ge k s.device.length with hlt | hge
    · rw [List.getElem?_append_left hlt] at hk
      exact Or.inl ⟨hk,hlt⟩
    · rw [List.getElem?_append_right hge] at hk
      obtain ⟨hb,hq⟩ := List.getElem?_eq_some_iff.mp hk
      rw [List.length_singleton] at hb
      rw [List.getElem_singleton] at hq
      exact Or.inr ⟨by omega,hq.symm⟩
  -- whatever the new request hands over was handed to the write thread before
  have hhanded : ∀ i, s₁.Handed i → s.Handed i := by
    rintro i (⟨k,q',hk,hs,hlo,hhi⟩ | ⟨c,taken,ppas,hw,-⟩)
    · rcases hget k q' hk with ⟨hold,hlt⟩ | ⟨rfl,rfl⟩
      · rw [hoffset k (by omega)] at hlo hhi
        exact Or.inl ⟨k,q',hold,hs,hlo,hhi⟩
      · obtain ⟨ppas,hw⟩ := hsent (Or.inl hs)
        rw [hend] at hlo hhi
        exact Or.inr ⟨_,_,ppas,hw,hlo,hhi⟩
    · cases hw
  refine ⟨⟨h.cursors.l2p_le,h.cursors.sync_le,h.cursors.subm_le,h.cursors.mem_lt,h.cursors.l2p_eq,
    h.cursors.sync_eq,h.cursors.subm_eq,h.cursors.mem_eq⟩,⟨?_,?_,?_,trivial⟩,⟨?_,?_,?_,h.completions.answered⟩,?_,
    ⟨?_,?_⟩⟩
  · change s.marks.subm = s₁.lens.sum + 0
    rw [hlens,List.sum_append,List.sum_singleton,← hheld]
    exact h.requests.subm
  · intro k q' hk
    change q'.ctx.sentry = cfg.ring.wrap (offset s₁.lens k)
    rcases hget k q' hk with ⟨hold,hlt⟩ | ⟨rfl,rfl⟩
    · rw [hoffset k (by omega)]
      exact h.requests.sentry k q' hold
    · rw [hend]
      exact hstart
  · intro q' hq'
    rcases List.mem_append.mp hq' with hold | hnew
    · exact h.requests.valid q' hold
    · rw [List.mem_singleton.mp hnew]
      exact hpos
  · change s.marks.sync = offset s₁.lens p
    rw [hoffset p h.completions.le_length]
    exact h.completions.sync
  · change p ≤ (s.device ++ [q]).length
    rw [List.length_append]
    exact Nat.le_add_right_of_le h.completions.le_length
  · intro k hk
    obtain ⟨q',hq',hs⟩ := h.completions.sent k hk
    exact ⟨q',getElem?_append_of_some hq',hs⟩
  · refine h.slots.of_moved h.cursors rfl rfl rfl rfl ?_ ?_
    · intro i _ _
      exact Or.inl rfl
    · intro i _ hh
      have hbound := h.requests.handed_lt (hhanded i hh)
      exact ⟨Nat.lt_of_lt_of_le hbound h.cursors.subm_le,Or.inl (hhanded i hh)⟩
  · intro k q' hk hs
    change q'.taken.map some = s.slice (offset s₁.lens k) q'.ctx.nrValid
    rcases hget k q' hk with ⟨hold,hlt⟩ | ⟨rfl,rfl⟩
    · rw [hoffset k (by omega)]
      exact h.fifo.device k q' hold hs
    · obtain ⟨ppas,hw⟩ := hsent hs
      rw [hend]
      exact h.fifo.writer _ _ ppas hw
  · intro c taken ppas hw
    cases hw

theorem Ordered.push_mapping (h : s.Ordered cfg p) {c : CCtx} {taken : List (Taken δ)} {ppas ppas' : List DevAddr}
    {ok : Bool} (hw : s.writer = .mapping c taken ppas) :
    ({ s with writer := .idle, device := s.device ++ [⟨c,taken,ppas',ok⟩] } : Ftl δ).Ordered cfg p := by
  have hstart := h.requests.starts
  simp only [Starts,hw] at hstart
  apply h.push
  · simp only [held,hw]
  · exact hstart.1
  · exact hstart.2
  · intro _
    exact ⟨ppas,hw⟩

theorem Ordered.giveUp (h : s.Ordered cfg p) (hg : s.giveUp = some s') : s'.Ordered cfg p := by
  unfold Ftl.giveUp at hg
  split at hg
  · rename_i c taken hw
    cases hg
    exact h.push_mapping hw
  · cases hg

theorem Ordered.send (h : s.Ordered cfg p) {ok : Bool} (hs : s.send ok = some s') : s'.Ordered cfg p := by
  unfold Ftl.send at hs
  split at hs
  · rename_i c taken ppas hw
    split at hs
    · cases hs
      exact h.push_mapping hw
    · cases hs
  · cases hs

theorem readFail_effect {i : Nat} (h : s.readFail cfg i = some s') :
    ∃ pos secs count rb ts rb', s.writer = .committed pos secs count ∧ i < min secs count ∧
      readEntries cfg.ring i s.rwb pos = some (rb,ts) ∧
      readEntryFail rb (cfg.ring.wrap (pos + i)) = some rb' ∧
      s' = { s with rwb := rb', writer := .idle, device := s.device ++ [⟨cCtx pos secs count,[],[],false⟩] } := by
  unfold readFail at h
  split at h
  · rename_i pos secs count hw
    dsimp only at h
    split at h
    · rename_i hi
      obtain ⟨⟨rb,ts⟩,hread,h⟩ := Option.bind_eq_some_iff.mp h
      obtain ⟨rb',hfail,rfl⟩ := Option.map_eq_some_iff.mp h
      exact ⟨pos,secs,count,rb,ts,rb',hw,hi,hread,hfail,rfl⟩
    · cases h
  · cases h

theorem Moved.trans {rb rb' : Rb δ} (h : s.Moved cfg rb) (h' : ({ s with rwb := rb } : Ftl δ).Moved cfg rb') :
    s.Moved cfg rb' := by
  refine ⟨h.cursors.trans h'.cursors,?_⟩
  intro i hi hi'
  rcases h.slots i hi hi' with heq | ⟨hwritten,hsub,hsector⟩
  · rcases h'.slots i hi hi' with heq' | ⟨hwritten',hsub',hsector'⟩
    · exact Or.inl (heq'.trans heq)
    · change (rb.entries (cfg.ring.wrap i)).phase = _ at hwritten'
      rw [heq] at hwritten'
      exact Or.inr ⟨hwritten',hsub',hsector'.trans (congrArg RbEntry.sector heq)⟩
  · rcases h'.slots i hi hi' with heq' | ⟨hwritten',-,-⟩
    · rw [heq']
      exact Or.inr ⟨hwritten,hsub,hsector⟩
    · have hphase := hsub.symm.trans hwritten'
      cases hphase

/-- The entries that were read before the page could not be added, and the one of that page. -/
theorem Ordered.readFail_moved (h : s.Ordered cfg p) {i : Nat} {rb rb' : Rb δ} {ts : List (Taken δ)} (hi : i < s.held)
    (hread : Pblk.readEntries cfg.ring i s.rwb (cfg.ring.wrap s.lens.sum) = some (rb,ts))
    (hfail : readEntryFail rb (cfg.ring.wrap (cfg.ring.wrap s.lens.sum + i)) = some rb') : s.Moved cfg rb' := by
  have hsum := h.requests.subm
  have hlow := h.l2p_le_sum
  have hmem := h.cursors.subm_le
  obtain ⟨hmoved,-,-,-⟩ := h.readEntries (Nat.le_of_lt hi) hread
  obtain ⟨hwritten,hentries,hcur,-⟩ := readEntryFail_eq_some hfail
  rw [RingSize.wrap_add] at hwritten hentries
  have hphase := ((h.moved hmoved).slots.written (show s.marks.l2p ≤ s.lens.sum + i by omega)
    (show s.lens.sum + i < s.marks.mem by omega) hwritten).1
  refine hmoved.trans ⟨hcur,?_⟩
  intro k _ _
  rw [hentries]
  by_cases hk : cfg.ring.wrap k = cfg.ring.wrap (s.lens.sum + i)
  · rw [hk,Function.update_self,slot,hk]
    exact Or.inr ⟨hphase,RbEntry.drop_phase hphase,RbEntry.drop_sector⟩
  · rw [Function.update_of_ne hk]
    exact Or.inl rfl

theorem Ordered.readFail (h : s.Ordered cfg p) {i : Nat} (hr : s.readFail cfg i = some s') : s'.Ordered cfg p := by
  obtain ⟨pos,secs,count,rb,ts,rb',hw,hi,hread,hfail,rfl⟩ := readFail_effect hr
  have hstart := h.requests.starts
  simp only [Starts,hw] at hstart
  obtain ⟨rfl,hpos⟩ := hstart
  have hheld : s.held = min secs count := by simp only [held,hw]
  exact (h.moved (h.readFail_moved (by omega) hread hfail)).push hheld rfl hpos (by simp)

theorem mapPage_effect (h : s.mapPage cfg = some s') :
    ∃ c taken ppas d l paddr, s.writer = .mapping c taken ppas ∧ ppas.length < c.nrValid + c.nrPadded ∧
      s.map.lines.dataLine = some d ∧ pblkAllocPage cfg (s.map.lines.line d) cfg.minWritePgs = some (l,paddr) ∧
      s' =
        (let mapSecs := if c.nrValid < ppas.length + cfg.minWritePgs then c.nrValid % cfg.minWritePgs
          else cfg.minWritePgs
        let x := mapSectors cfg.ring (c.sentry + ppas.length) mapSecs d paddr cfg.minWritePgs 0 s.rwb
          (s.map.lines.setLine d l)
        { s with rwb := x.1, map := { s.map with lines := x.2 },
                 writer := .mapping c taken (ppas ++ (List.range cfg.minWritePgs).map fun j => ⟨d,paddr + j⟩) }) := by
  unfold mapPage at h
  split at h
  · rename_i c taken ppas hw
    dsimp only at h
    split at h
    · cases h
    · rename_i hmore
      split at h
      · cases h
      · rename_i d hd
        obtain ⟨⟨l,paddr⟩,halloc,rfl⟩ := Option.map_eq_some_iff.mp h
        exact ⟨c,taken,ppas,d,l,paddr,hw,by omega,hd,halloc,rfl⟩
  · cases h

theorem SameOrder.mapPage (h : s.mapPage cfg = some s') : SameOrder s s' := by
  obtain ⟨c,taken,ppas,d,l,paddr,hw,-,-,-,rfl⟩ := mapPage_effect h
  exact ⟨mapSectors_sameSectors,rfl,rfl,rfl,rfl,rfl,List.Subset.refl _,Or.inr ⟨c,taken,ppas,_,hw,rfl⟩⟩

/-! ## Completions -/

theorem Ordered.endWBio (h : s.Ordered cfg p) {q : WReq δ} (hq : s.device[p]? = some q) :
    (s.endWBio cfg q).Ordered cfg (p + 1) := by
  let x := popBios cfg.ring q.ctx.nrValid s.rwb q.ctx.sentry
  let lines := (q.ppas.take q.ctx.nrValid).foldl (fun m a => pblkSyncLine m a.line) s.map.lines
  have hsame : SameOrder s { s with rwb := x.1, map := { s.map with lines := lines }, ended := s.ended ++ x.2 } :=
    ⟨popBios_sameSectors,rfl,rfl,rfl,rfl,rfl,List.Subset.refl _,Or.inl rfl⟩
  obtain ⟨⟨hl2p,hsync,hsubm,hlt,hl2pEq,hsyncEq,hsubmEq,hmemEq⟩,hrequests,hcompletions,hslots,hfifo⟩ := hsame.ordered h
  have hlen : s.lens[p]? = some q.ctx.nrValid := by simp [lens,hq]
  have hle := offset_add_le hq
  have hsum := h.requests.subm
  have hold := h.completions.sync
  refine ⟨⟨Nat.le_add_right_of_le hl2p,?_,hsubm,hlt,hl2pEq,?_,hsubmEq,hmemEq⟩,
    ⟨hrequests.subm,hrequests.sentry,hrequests.valid,hrequests.starts⟩,
    ⟨?_,?_,hcompletions.sent,hcompletions.answered⟩,
    ⟨hslots.length,hslots.free,hslots.used,hslots.handed,hslots.jobs,hslots.nodup⟩,⟨hfifo.device,hfifo.writer⟩⟩
  · change s.marks.sync + q.ctx.nrValid ≤ s.marks.subm
    omega
  · change (fun t => cfg.ring.wrap (t + 1))^[q.ctx.nrValid] x.1.sync = cfg.ring.wrap (s.marks.sync + q.ctx.nrValid)
    rw [show x.1.sync = cfg.ring.wrap s.marks.sync from hsyncEq]
    exact cfg.ring.iterate_wrap _ _
  · change s.marks.sync + q.ctx.nrValid = offset s.lens (p + 1)
    rw [offset_succ hlen,hold]
  · exact (List.getElem?_eq_some_iff.mp hq).1

/-- The request `sync` has come to is the first one that is not retired. -/
theorem Ordered.sentry_eq_sync (h : s.Ordered cfg p) {k : Nat} {q : WReq δ} (hpk : p ≤ k)
    (hq : s.device[k]? = some q) : q.ctx.sentry = s.rwb.sync ↔ k = p := by
  have hsync := h.completions.sync
  rw [h.requests.sentry k q hq,h.cursors.sync_eq]
  constructor
  · intro heq
    have hle := offset_add_le hq
    have hmono : offset s.lens p ≤ offset s.lens k := offset_mono hpk
    have hsum := h.requests.subm
    have hpos := h.requests.valid q (List.mem_of_getElem? hq)
    obtain ⟨hl2p,-,hsubm,hlt,-,-,-,-⟩ := h.cursors
    have hsame : offset s.lens k = s.marks.sync :=
      RingSize.wrap_inj (l := s.marks.l2p) (by omega) (by omega) hl2p (by omega) heq
    by_contra hne
    have hlens : ∀ n ∈ s.lens, 0 < n := by
      intro n hn
      obtain ⟨q',hq',rfl⟩ := List.mem_map.mp hn
      exact h.requests.valid q' hq'
    have hk : k < s.lens.length := by simpa [lens] using (List.getElem?_eq_some_iff.mp hq).1
    have hstrict := offset_lt (k := k) hlens (show p < k by omega) (by omega)
    omega
  · rintro rfl
    rw [hsync]

theorem nextDone_eq_some {k : Nat} {q : WReq δ} (h : s.nextDone = some (k,q)) :
    k ∈ s.complList ∧ s.device[k]? = some q ∧ q.ctx.sentry = s.rwb.sync := by
  obtain ⟨k',hk',h⟩ := List.exists_of_findSome?_eq_some h
  obtain ⟨q',hq',h⟩ := Option.bind_eq_some_iff.mp h
  split at h
  · rename_i hsync
    cases h
    exact ⟨hk',hq',hsync⟩
  · cases h

theorem nextDone_eq_none (h : s.nextDone = none) {k : Nat} (hk : k ∈ s.complList) {q : WReq δ}
    (hq : s.device[k]? = some q) : q.ctx.sentry ≠ s.rwb.sync := by
  have hnone := List.findSome?_eq_none_iff.mp h k hk
  rw [hq,Option.bind_some] at hnone
  intro heq
  rw [if_pos heq] at hnone
  cases hnone

/-- What holds of a state whatever `compl_list` and the record of answers are, and is kept when the next
request is retired. -/
structure Retirable (cfg : Config) (P : Ftl δ → Prop) : Prop where
  complList : ∀ s l, P s → P { s with complList := l }
  completed : ∀ s l, P s → P { s with completed := l }
  answered : ∀ s l, P s → P { s with answered := l }
  endWBio : ∀ s p q, s.Ordered cfg p → s.device[p]? = some q → P s → P (s.endWBio cfg q)

variable {P : Ftl δ → Prop}

theorem Ordered.drain (hP : Retirable cfg P) (h : s.Ordered cfg p) (hs : P s) {n : Nat}
    (hret : Retiring p s.complList s.completed) (hn : s.complList.length ≤ n) :
    ∃ p', p ≤ p' ∧ (s.drain cfg n).Inv cfg p' ∧ P (s.drain cfg n) := by
  induction n generalizing s p with
  | zero =>
    have hnil : s.complList = [] := List.length_eq_zero_iff.mp (Nat.le_zero.mp hn)
    exact ⟨p,Nat.le_refl p,⟨h,hret.settle (by simp [hnil])⟩,hs⟩
  | succ n ih =>
    rw [Ftl.drain]
    cases hnext : s.nextDone with
    | none =>
      refine ⟨p,Nat.le_refl p,⟨h,hret.settle ?_⟩,hs⟩
      intro hp
      obtain ⟨q,hq,-⟩ := h.completions.sent p ((hret.waiting_iff p).mp hp).2
      exact nextDone_eq_none hnext hp hq ((h.sentry_eq_sync (Nat.le_refl p) hq).mpr rfl)
    | some x =>
      obtain ⟨k,q⟩ := x
      obtain ⟨hmem,hq,hsync⟩ := nextDone_eq_some hnext
      have hpk := ((hret.waiting_iff k).mp hmem).1
      obtain rfl := (h.sentry_eq_sync hpk hq).mp hsync
      have hsame : SameOrder s { s with complList := s.complList.erase k } :=
        ⟨.refl _,rfl,rfl,rfl,rfl,rfl,List.Subset.refl _,Or.inl rfl⟩
      have hlen : (s.complList.erase k).length ≤ n := by
        rw [List.length_erase_of_mem hmem]
        omega
      have hs' := hP.endWBio _ k q (hsame.ordered h) hq (hP.complList s _ hs)
      obtain ⟨p',hp',hinv⟩ := ih ((hsame.ordered h).endWBio hq) hs' (hret.pop hmem) hlen
      exact ⟨p',by omega,hinv⟩

theorem Inv.completeWrite (hP : Retirable cfg P) (h : s.Inv cfg p) (hs : P s) {k : Nat} {q : WReq δ}
    (hq : s.device[k]? = some q) (hsent : q.sent = true) (hanswered : k ∈ s.answered) (hnew : k ∉ s.completed) :
    ∃ p', p ≤ p' ∧ (s.completeWrite cfg k q).Inv cfg p' ∧ P (s.completeWrite cfg k q) := by
  have hpk : p ≤ k := by
    by_contra hlt
    exact hnew (h.inOrder.below k (by omega))
  have hdone : ({ s with completed := s.completed ++ [k] } : Ftl δ).Ordered cfg p := by
    obtain ⟨hcursors,hrequests,hcompletions,hslots,hfifo⟩ := h.ordered
    refine ⟨⟨hcursors.l2p_le,hcursors.sync_le,hcursors.subm_le,hcursors.mem_lt,hcursors.l2p_eq,hcursors.sync_eq,
      hcursors.subm_eq,hcursors.mem_eq⟩,hrequests.congr rfl rfl rfl,⟨hcompletions.sync,hcompletions.le_length,?_,?_⟩,
      ⟨hslots.length,hslots.free,hslots.used,hslots.handed,hslots.jobs,hslots.nodup⟩,hfifo.congr rfl rfl rfl⟩
    · intro j hj
      rcases List.mem_append.mp hj with hj | hj
      · exact hcompletions.sent j hj
      · rw [List.mem_singleton.mp hj]
        exact ⟨q,hq,hsent⟩
    · intro j hj
      rcases List.mem_append.mp hj with hj | hj
      · exact hcompletions.answered j hj
      · rw [List.mem_singleton.mp hj]
        exact hanswered
  unfold Ftl.completeWrite
  dsimp only
  split
  · rename_i hsync
    obtain rfl := (h.ordered.sentry_eq_sync hpk hq).mp hsync.symm
    have hs' := hP.endWBio _ k q hdone hq (hP.completed s _ hs)
    obtain ⟨p',hp',hinv⟩ := (hdone.endWBio hq).drain hP hs' h.inOrder.finish_next (Nat.le_refl _)
    exact ⟨p',by omega,hinv⟩
  · rename_i hsync
    have hlt : p < k := by
      rcases Nat.eq_or_lt_of_le hpk with rfl | hlt
      · exact absurd ((h.ordered.sentry_eq_sync (Nat.le_refl p) hq).mpr rfl).symm hsync
      · exact hlt
    have hsame : SameOrder { s with completed := s.completed ++ [k] }
        { s with completed := s.completed ++ [k], complList := s.complList ++ [k] } :=
      ⟨.refl _,rfl,rfl,rfl,rfl,rfl,List.Subset.refl _,Or.inl rfl⟩
    exact ⟨p,Nat.le_refl p,⟨hsame.ordered hdone,h.inOrder.finish_later hlt hnew⟩,
      hP.complList _ (s.complList ++ [k]) (hP.completed s (s.completed ++ [k]) hs)⟩

theorem answer_effect {k : Nat} {failed : Option Nat} {recovery : Bool} (h : s.answer cfg k failed recovery = some s') :
    ∃ q, s.device[k]? = some q ∧ q.sent = true ∧ k ∉ s.answered ∧
      (s' = ({ s with answered := s.answered ++ [k] } : Ftl δ).completeWrite cfg k q ∨
        failed.isSome ∧ s' = { s with answered := s.answered ++ [k] }) := by
  unfold answer at h
  split at h
  · cases h
  · rename_i q hq
    split at h
    · rename_i hgo
      have hnew : k ∉ s.answered := by simpa using hgo.2
      refine ⟨q,hq,hgo.1,hnew,?_⟩
      dsimp only at h
      split at h
      · cases h
        exact Or.inl rfl
      · obtain ⟨done,-,rfl⟩ := Option.map_eq_some_iff.mp h
        cases done with
        | true => exact Or.inl rfl
        | false => exact Or.inr ⟨rfl,rfl⟩
    · cases h

theorem Inv.answer (hP : Retirable cfg P) (h : s.Inv cfg p) (hs : P s) {k : Nat} {failed : Option Nat}
    {recovery : Bool} (ha : s.answer cfg k failed recovery = some s') : ∃ p', p ≤ p' ∧ s'.Inv cfg p' ∧ P s' := by
  obtain ⟨q,hq,hsent,hnew,hcase⟩ := answer_effect ha
  have hsame : SameOrder s { s with answered := s.answered ++ [k] } :=
    ⟨.refl _,rfl,rfl,rfl,rfl,rfl,List.subset_append_left _ _,Or.inl rfl⟩
  have hinv : ({ s with answered := s.answered ++ [k] } : Ftl δ).Inv cfg p := ⟨hsame.ordered h.ordered,h.inOrder⟩
  rcases hcase with rfl | ⟨-,rfl⟩
  · apply hinv.completeWrite hP (hP.answered s _ hs) hq hsent
    · exact List.mem_append_right _ List.mem_cons_self
    · intro hk
      exact hnew (h.ordered.completions.answered k hk)
  · exact ⟨p,Nat.le_refl p,hinv,hP.answered s _ hs⟩

/-! ## Runs -/

theorem flush_sameOrder {bio n : Nat} : SameOrder s (s.flush cfg bio n).1 := by
  have hset := pblkRbSyncPointSet_sameSectors cfg.ring s.rwb bio (cfg.ring.wrap (s.rwb.mem + n))
  unfold Ftl.flush
  split <;> rename_i heq <;> rw [heq] at hset <;>
    exact ⟨hset,rfl,rfl,rfl,rfl,rfl,List.Subset.refl _,Or.inl rfl⟩

theorem flush_eq (cfg : Config) (s : Ftl δ) (bio n : Nat) :
    ∃ rb flushes, (s.flush cfg bio n).1 = { s with rwb := rb, flushes := flushes } := by
  unfold Ftl.flush
  split
  · exact ⟨_,_,rfl⟩
  · exact ⟨_,s.flushes,rfl⟩

/-- The reservation of a user bio: room, the flush, the entries. -/
theorem writeUser_effect {b : Bio δ} (h : s.writeUser cfg b = some s') :
    ∃ s₁ xs acc, s.makeRoom cfg b.sectors.length = some s₁ ∧ acc.length = b.sectors.length ∧
      (∀ (t : Nat) x, xs[t]? = some x → acc[t]? = some (some x)) ∧
      (∀ x, some x ∈ acc → x.src = .user) ∧ pblkRlUserMayInsert s.rl b.sectors.length = true ∧
      s' = { (if b.preflush then (s₁.flush cfg b.id b.sectors.length).1 else s₁).reserve cfg b.sectors.length xs acc
        with rl := pblkRlUserIn s.rl b.sectors.length } := by
  unfold Ftl.writeUser at h
  dsimp only at h
  split at h
  · rename_i hmay
    obtain ⟨s₁,hroom,rfl⟩ := Option.map_eq_some_iff.mp h
    cases b.hasData with
    | true =>
      refine ⟨s₁,userSectors b.lba b.sectors,(userSectors b.lba b.sectors).map some,hroom,?_,?_,?_,hmay,rfl⟩
      · rw [List.length_map]
        exact length_userSectors
      · intro t x hx
        rw [List.getElem?_map,hx,Option.map_some]
      · intro x hx
        obtain ⟨y,hy,heq⟩ := List.mem_map.mp hx
        cases heq
        exact src_userSectors hy
    | false =>
      refine ⟨s₁,[],List.replicate b.sectors.length none,hroom,List.length_replicate,?_,?_,hmay,rfl⟩
      · intro t x hx
        cases hx
      · intro x hx
        cases List.eq_of_mem_replicate hx
  · cases h

theorem writeGc_effect {line : Nat} {lbas : List (Option Nat)} {data : List δ}
    (h : s.writeGc cfg line lbas data = some s') :
    ∃ s₁, s.makeRoom cfg (gcSectors line lbas data).length = some s₁ ∧
      pblkRlGcMayInsert s.rl (gcSectors line lbas data).length = true ∧
      s' = { s₁.reserve cfg (gcSectors line lbas data).length (gcSectors line lbas data)
          ((gcSectors line lbas data).map some) with rl := pblkRlGcIn s.rl (gcSectors line lbas data).length } := by
  unfold Ftl.writeGc at h
  dsimp only at h
  split at h
  · rename_i hmay
    obtain ⟨s₁,hroom,rfl⟩ := Option.map_eq_some_iff.mp h
    exact ⟨s₁,hroom,hmay,rfl⟩
  · cases h

theorem Ordered.setRl (h : s.Ordered cfg p) (rl : Rl) : ({ s with rl := rl } : Ftl δ).Ordered cfg p := by
  have hsame : SameOrder s { s with rl := rl } := ⟨.refl _,rfl,rfl,rfl,rfl,rfl,List.Subset.refl _,Or.inl rfl⟩
  exact hsame.ordered h

theorem Ordered.setMap (h : s.Ordered cfg p) (m : Map) : ({ s with map := m } : Ftl δ).Ordered cfg p := by
  have hsame : SameOrder s { s with map := m } := ⟨.refl _,rfl,rfl,rfl,rfl,rfl,List.Subset.refl _,Or.inl rfl⟩
  exact hsame.ordered h

theorem Ordered.writeUser (h : s.Ordered cfg p) {b : Bio δ} (hw : s.writeUser cfg b = some s') :
    s'.Ordered cfg p := by
  obtain ⟨s₁,xs,acc,hroom,hlen,hxs,-,-,rfl⟩ := writeUser_effect hw
  obtain ⟨c,rb,m,hup,hc,hfree,rfl⟩ := makeRoom_effect h.cursors hroom
  have h₁ := h.release hc hup
  refine Ordered.setRl (Ordered.reserve ?_ ?_ hlen hxs) _
  · split
    · exact flush_sameOrder.ordered h₁
    · exact h₁
  · split
    · rw [flush_sameOrder.marks]
      exact hfree
    · exact hfree

theorem Ordered.writeGc (h : s.Ordered cfg p) {line : Nat} {lbas : List (Option Nat)} {data : List δ}
    (hw : s.writeGc cfg line lbas data = some s') : s'.Ordered cfg p := by
  obtain ⟨s₁,hroom,-,rfl⟩ := writeGc_effect hw
  obtain ⟨c,rb,m,hup,hc,hfree,rfl⟩ := makeRoom_effect h.cursors hroom
  refine Ordered.setRl (Ordered.reserve (h.release hc hup) hfree (List.length_map _) ?_) _
  intro t x hx
  rw [List.getElem?_map,hx,Option.map_some]

theorem Ordered.syncL2p (h : s.Ordered cfg p) (hs : step cfg s .syncL2p = some s') : s'.Ordered cfg p := by
  obtain ⟨⟨rb,m⟩,hup,rfl⟩ := Option.map_eq_some_iff.mp hs
  obtain ⟨hl2p,hsync,hsubm,hlt,hl2pEq,hsyncEq,-,-⟩ := h.cursors
  have hcount : cfg.ring.count s.rwb.sync s.rwb.l2pUpdate = s.marks.sync - s.marks.l2p := by
    rw [hsyncEq,hl2pEq]
    exact RingSize.count_wrap hl2p (by omega)
  exact h.release (by omega) hup

theorem Ordered.insertStep (h : s.Ordered cfg p) {j : Nat} (hi : s.insert cfg j = some s') : s'.Ordered cfg p := by
  obtain ⟨pos,x,m,hj,-,-,rfl⟩ := insert_effect hi
  exact h.insert hj

/-- Every step but an answer keeps the order with the same requests retired. -/
theorem Ordered.step (h : s.Ordered cfg p) {e : Event δ} (hs : step cfg s e = some s')
    (he : ∀ k failed recovery, e ≠ .answer k failed recovery) : s'.Ordered cfg p := by
  cases e with
  | writeUser b => exact h.writeUser hs
  | writeGc line lbas data => exact h.writeGc hs
  | insert j => exact h.insertStep hs
  | commit => exact h.commit hs
  | read => exact h.read hs
  | readFail i => exact h.readFail hs
  | giveUp => exact h.giveUp hs
  | mapPage => exact (SameOrder.mapPage hs).ordered h
  | send ok => exact h.send hs
  | answer k failed recovery => exact absurd rfl (he k failed recovery)
  | discard slba n =>
    cases hs
    exact h.setMap _
  | syncL2p => exact h.syncL2p hs
  | lines m =>
    cases hs
    exact h.setMap _
  | rates n =>
    obtain ⟨x,-,rfl⟩ := Option.map_eq_some_iff.mp hs
    exact h.setRl _
  | userTimer =>
    cases hs
    exact h.setRl _

theorem makeRoom_done {n : Nat} (h : s.makeRoom cfg n = some s') :
    s'.complList = s.complList ∧ s'.completed = s.completed := by
  unfold makeRoom at h
  split at h
  · cases h
  · obtain ⟨x,-,rfl⟩ := Option.map_eq_some_iff.mp h
    exact ⟨rfl,rfl⟩

theorem step_done {e : Event δ} (hs : step cfg s e = some s')
    (he : ∀ k failed recovery, e ≠ .answer k failed recovery) :
    s'.complList = s.complList ∧ s'.completed = s.completed := by
  cases e with
  | writeUser b =>
    obtain ⟨s₁,xs,acc,hroom,-,-,-,-,rfl⟩ := writeUser_effect hs
    obtain ⟨rb,flushes,heq⟩ := flush_eq cfg s₁ b.id b.sectors.length
    split
    · rw [heq]
      exact ⟨(makeRoom_done hroom).1,(makeRoom_done hroom).2⟩
    · exact ⟨(makeRoom_done hroom).1,(makeRoom_done hroom).2⟩
  | writeGc line lbas data =>
    obtain ⟨s₁,hroom,-,rfl⟩ := writeGc_effect hs
    exact ⟨(makeRoom_done hroom).1,(makeRoom_done hroom).2⟩
  | insert j =>
    obtain ⟨pos,x,m,-,-,-,rfl⟩ := insert_effect hs
    exact ⟨rfl,rfl⟩
  | commit =>
    obtain ⟨-,secs,avail,-,-,rfl⟩ := commit_effect hs
    exact ⟨rfl,rfl⟩
  | read =>
    obtain ⟨pos,secs,count,rb,ts,-,-,rfl⟩ := read_effect hs
    exact ⟨rfl,rfl⟩
  | readFail i =>
    obtain ⟨pos,secs,count,rb,ts,rb',-,-,-,-,rfl⟩ := readFail_effect hs
    exact ⟨rfl,rfl⟩
  | giveUp =>
    simp only [Pblk.step,Ftl.giveUp] at hs
    split at hs <;> cases hs
    exact ⟨rfl,rfl⟩
  | mapPage =>
    obtain ⟨c,taken,ppas,d,l,paddr,-,-,-,-,rfl⟩ := mapPage_effect hs
    exact ⟨rfl,rfl⟩
  | send ok =>
    simp only [Pblk.step,Ftl.send] at hs
    split at hs
    · split at hs <;> cases hs
      exact ⟨rfl,rfl⟩
    · cases hs
  | answer k failed recovery => exact absurd rfl (he k failed recovery)
  | discard slba n =>
    cases hs
    exact ⟨rfl,rfl⟩
  | syncL2p =>
    obtain ⟨x,-,rfl⟩ := Option.map_eq_some_iff.mp hs
    exact ⟨rfl,rfl⟩
  | lines m =>
    cases hs
    exact ⟨rfl,rfl⟩
  | rates n =>
    obtain ⟨x,-,rfl⟩ := Option.map_eq_some_iff.mp hs
    exact ⟨rfl,rfl⟩
  | userTimer =>
    cases hs
    exact ⟨rfl,rfl⟩

/-- The rule for invariants of the write path: an answer retires requests by `Retirable`, every other step
keeps the order. -/
theorem Inv.step (h : s.Inv cfg p) {e : Event δ} (hstep : Pblk.step cfg s e = some s')
    (hother : (∀ k failed recovery, e ≠ .answer k failed recovery) → P s')
    (hanswer : ∀ k failed recovery, e = .answer k failed recovery → Retirable cfg P ∧ P s) :
    ∃ p', p ≤ p' ∧ s'.Inv cfg p' ∧ P s' := by
  by_cases he : ∀ k failed recovery, e ≠ .answer k failed recovery
  · obtain ⟨hlist,hcompleted⟩ := step_done hstep he
    refine ⟨p,Nat.le_refl p,⟨h.ordered.step hstep he,?_⟩,hother he⟩
    rw [hlist,hcompleted]
    exact h.inOrder
  · simp only [not_forall,not_not] at he
    obtain ⟨k,failed,recovery,rfl⟩ := he
    obtain ⟨hP,hs⟩ := hanswer k failed recovery rfl
    exact h.answer hP hs hstep

theorem Inv.init (pages : Nat → δ) (lines : LineMgmt) (rl : Rl) : (Ftl.init pages lines rl).Inv cfg 0 where
  ordered := by
    have hcells := cfg.ring.cells_pos
    have hzero : cfg.ring.wrap 0 = 0 := by rw [RingSize.wrap_eq,Nat.zero_mod]
    refine ⟨⟨Nat.le_refl _,Nat.le_refl _,Nat.le_refl _,?_,hzero.symm,hzero.symm,hzero.symm,hzero.symm⟩,
      ⟨rfl,?_,?_,trivial⟩,⟨rfl,Nat.le_refl _,?_,?_⟩,⟨rfl,?_,?_,?_,?_,List.nodup_nil⟩,⟨?_,?_⟩⟩
    · simpa [Ftl.init] using hcells
    · intro k q hk
      cases hk
    · intro q hq
      cases hq
    · intro k hk
      cases hk
    · intro k hk
      cases hk
    · intro i _ _
      rfl
    · intro i _ hi
      cases hi
    · rintro i _ (⟨k,q,hk,-⟩ | ⟨c,taken,ppas,hw,-⟩)
      · cases hk
      · cases hw
    · intro j hj
      cases hj
    · intro k q hk
      cases hk
    · intro c taken ppas hw
      cases hw
  inOrder := InOrder.nil

theorem Inv.reaches (hP : Retirable cfg P)
    (hother : ∀ {s s' : Ftl δ} {p : Nat} {e : Event δ}, s.Ordered cfg p → P s → Pblk.step cfg s e = some s' →
      (∀ k failed recovery, e ≠ .answer k failed recovery) → P s')
    (h : s.Inv cfg p) (hs : P s) (hr : Reaches (Pblk.step cfg) always s s') :
    ∃ p', p ≤ p' ∧ s'.Inv cfg p' ∧ P s' := by
  refine hr.invariant (fun t => ∃ p', p ≤ p' ∧ t.Inv cfg p' ∧ P t) ⟨p,Nat.le_refl p,h,hs⟩ ?_
  rintro t e u ⟨p₁,hp₁,ht,hPt⟩ - hstep
  obtain ⟨p₂,hp₂,hu⟩ := ht.step hstep (hother ht.ordered hPt hstep) fun _ _ _ _ => ⟨hP,hPt⟩
  exact ⟨p₂,Nat.le_trans hp₁ hp₂,hu⟩

theorem Retirable.trivial : Retirable cfg fun _ : Ftl δ => True :=
  ⟨fun _ _ _ => True.intro,fun _ _ _ => True.intro,fun _ _ _ => True.intro,fun _ _ _ _ _ _ => True.intro⟩

end Ftl

end Sdssd.Pblk
