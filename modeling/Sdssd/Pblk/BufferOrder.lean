import Sdssd.Pblk.RingLoops
import Sdssd.Framework.Reorder
import Sdssd.Framework.Segments

/-!
# The order of the write buffer

Whatever the callers, the write thread and the device do, the four cursors stay in order within one
revolution, every entry is in the phase its position says, and the requests cut the entries into
consecutive pieces.
-/

namespace Sdssd.Pblk

open Framework

variable {δ : Type} {cfg : Config}

def Sector.taken (x : Sector δ) : Taken δ := ⟨x.lba,x.data,some x.src.iotype⟩

namespace Ftl

/-- How many entries each request has taken. -/
def lens (s : Ftl δ) : List Nat := s.device.map fun q => q.ctx.nrValid

/-- How many entries the write thread has taken for the request it is at. -/
def held (s : Ftl δ) : Nat :=
  match s.writer with
  | .idle => 0
  | .committed _ secs count => min secs count
  | .mapping c _ _ => c.nrValid

/-- The entry for the `i`-th reservation. -/
def slot (cfg : Config) (s : Ftl δ) (i : Nat) : RbEntry δ := s.rwb.entries (cfg.ring.wrap i)

/-- The cursors are the wrapped marks, and the marks are in order within one revolution. -/
structure Cursors (cfg : Config) (s : Ftl δ) : Prop where
  l2p_le : s.marks.l2p ≤ s.marks.sync
  sync_le : s.marks.sync ≤ s.marks.subm
  subm_le : s.marks.subm ≤ s.marks.mem
  mem_lt : s.marks.mem < s.marks.l2p + cfg.ring.cells
  l2p_eq : s.rwb.l2pUpdate = cfg.ring.wrap s.marks.l2p
  sync_eq : s.rwb.sync = cfg.ring.wrap s.marks.sync
  subm_eq : s.rwb.subm = cfg.ring.wrap s.marks.subm
  mem_eq : s.rwb.mem = cfg.ring.wrap s.marks.mem

/-- The write thread's piece starts where the requests end and is not empty. -/
def Starts (cfg : Config) (s : Ftl δ) : Prop :=
  match s.writer with
  | .idle => True
  | .committed pos secs count => pos = cfg.ring.wrap s.lens.sum ∧ 0 < min secs count
  | .mapping c _ _ => c.sentry = cfg.ring.wrap s.lens.sum ∧ 0 < c.nrValid

structure Requests (cfg : Config) (s : Ftl δ) : Prop where
  subm : s.marks.subm = s.lens.sum + s.held
  sentry : ∀ k q, s.device[k]? = some q → q.ctx.sentry = cfg.ring.wrap (offset s.lens k)
  valid : ∀ q ∈ s.device, 0 < q.ctx.nrValid
  starts : s.Starts cfg

/-- The first `p` requests have been retired. -/
structure Completions (s : Ftl δ) (p : Nat) : Prop where
  sync : s.marks.sync = offset s.lens p
  le_length : p ≤ s.device.length
  sent : ∀ k ∈ s.completed, ∃ q, s.device[k]? = some q ∧ q.sent = true
  answered : ∀ k ∈ s.completed, k ∈ s.answered

/-- The write thread has read the entry for a request that was sent, or for the one it is at. -/
def Handed (s : Ftl δ) (i : Nat) : Prop :=
  (∃ k q, s.device[k]? = some q ∧ q.sent = true ∧ offset s.lens k ≤ i ∧ i < offset s.lens k + q.ctx.nrValid) ∨
    ∃ c taken ppas, s.writer = .mapping c taken ppas ∧ s.lens.sum ≤ i ∧ i < s.lens.sum + c.nrValid

/-- A job's entry is reserved for its sector. -/
def JobAt (cfg : Config) (s : Ftl δ) (j : Job δ) (i : Nat) : Prop :=
  s.marks.l2p ≤ i ∧ i < s.marks.mem ∧ j.pos = cfg.ring.wrap i ∧ s.accepted[i]? = some (some j.sector) ∧
    (s.slot cfg i).phase = some .reserved

structure Slots (cfg : Config) (s : Ftl δ) : Prop where
  length : s.accepted.length = s.marks.mem
  free : ∀ i, s.marks.mem ≤ i → i < s.marks.l2p + cfg.ring.cells → (s.slot cfg i).phase = some .reserved
  used : ∀ i, s.marks.l2p ≤ i → i < s.marks.mem → (s.slot cfg i).phase = some .reserved ∨
    ∃ x, s.accepted[i]? = some (some x) ∧ (s.slot cfg i).sector = x.taken ∧
      ((s.slot cfg i).phase = some .written ∨ (s.slot cfg i).phase = some .submitted)
  handed : ∀ i, s.marks.l2p ≤ i → s.Handed i → (s.slot cfg i).phase = some .submitted
  jobs : ∀ j ∈ s.jobs, ∃ i, s.JobAt cfg j i
  nodup : (s.jobs.map Job.pos).Nodup

/-- The sectors for `n` reservations from the `o`-th on. -/
def slice (s : Ftl δ) (o n : Nat) : List (Option (Taken δ)) :=
  ((s.accepted.drop o).take n).map (Option.map Sector.taken)

/-- A request carries what was reserved, in the order in which it was reserved. -/
structure Fifo (s : Ftl δ) : Prop where
  device : ∀ k q, s.device[k]? = some q → q.sent = true ∨ q.taken ≠ [] →
    q.taken.map some = s.slice (offset s.lens k) q.ctx.nrValid
  writer : ∀ c taken ppas, s.writer = .mapping c taken ppas → taken.map some = s.slice s.lens.sum c.nrValid

/-- What holds also while `pblk_complete_write` goes through `compl_list`. -/
structure Ordered (cfg : Config) (s : Ftl δ) (p : Nat) : Prop where
  cursors : s.Cursors cfg
  requests : s.Requests cfg
  completions : s.Completions p
  slots : s.Slots cfg
  fifo : s.Fifo

structure Inv (cfg : Config) (s : Ftl δ) (p : Nat) : Prop where
  ordered : s.Ordered cfg p
  inOrder : InOrder p s.complList s.completed

variable {s s' : Ftl δ} {p : Nat}

/-- Only parts the order does not depend on have changed. -/
structure SameOrder (s s' : Ftl δ) : Prop where
  rwb : s.rwb.SameSectors s'.rwb
  marks : s'.marks = s.marks
  jobs : s'.jobs = s.jobs
  accepted : s'.accepted = s.accepted
  device : s'.device = s.device
  completed : s'.completed = s.completed
  answered : s.answered ⊆ s'.answered
  writer : s'.writer = s.writer ∨
    ∃ c taken ppas ppas', s.writer = .mapping c taken ppas ∧ s'.writer = .mapping c taken ppas'

namespace SameOrder

theorem lens (h : SameOrder s s') : s'.lens = s.lens := by
  rw [Ftl.lens,Ftl.lens,h.device]

theorem held (h : SameOrder s s') : s'.held = s.held := by
  rcases h.writer with hw | ⟨c,taken,ppas,ppas',hw,hw'⟩
  · simp only [Ftl.held,hw]
  · simp only [Ftl.held,hw,hw']

theorem starts (h : SameOrder s s') (hs : s.Starts cfg) : s'.Starts cfg := by
  unfold Starts at hs ⊢
  rw [h.lens]
  rcases h.writer with hw | ⟨c,taken,ppas,ppas',hw,hw'⟩
  · rwa [hw]
  · rw [hw] at hs
    rw [hw']
    exact hs

theorem mapping (h : SameOrder s s') {c : CCtx} {taken : List (Taken δ)} {ppas : List DevAddr}
    (hw : s'.writer = .mapping c taken ppas) : ∃ ppas, s.writer = .mapping c taken ppas := by
  rcases h.writer with heq | ⟨c₁,taken₁,ppas₁,ppas₂,hw₁,hw₂⟩
  · exact ⟨ppas,heq ▸ hw⟩
  · rw [hw₂] at hw
    cases hw
    exact ⟨ppas₁,hw₁⟩

theorem of_handed (h : SameOrder s s') {i : Nat} (hi : s'.Handed i) : s.Handed i := by
  unfold Handed at hi ⊢
  rw [h.device,h.lens] at hi
  rcases hi with hi | ⟨c,taken,ppas,hw,hi⟩
  · exact Or.inl hi
  · obtain ⟨ppas',hw'⟩ := h.mapping hw
    exact Or.inr ⟨c,taken,ppas',hw',hi⟩

theorem ordered (h : SameOrder s s') (hinv : s.Ordered cfg p) : s'.Ordered cfg p where
  cursors := by
    obtain ⟨h₁,h₂,h₃,h₄,h₅,h₆,h₇,h₈⟩ := hinv.cursors
    constructor <;> simp only [h.marks,h.rwb.cursors.mem,h.rwb.cursors.subm,h.rwb.cursors.sync,
      h.rwb.cursors.l2pUpdate]
    all_goals assumption
  requests := by
    refine ⟨?_,?_,?_,h.starts hinv.requests.starts⟩
    · rw [h.marks,h.lens,h.held]
      exact hinv.requests.subm
    · rw [h.device,h.lens]
      exact hinv.requests.sentry
    · rw [h.device]
      exact hinv.requests.valid
  completions := by
    refine ⟨?_,?_,?_,?_⟩
    · rw [h.marks,h.lens]
      exact hinv.completions.sync
    · rw [h.device]
      exact hinv.completions.le_length
    · rw [h.completed,h.device]
      exact hinv.completions.sent
    · rw [h.completed]
      intro k hk
      exact h.answered (hinv.completions.answered k hk)
  slots := by
    have hphase : ∀ i, (s'.slot cfg i).phase = (s.slot cfg i).phase := fun i => h.rwb.phase _
    have hsector : ∀ i, (s'.slot cfg i).sector = (s.slot cfg i).sector := fun i => h.rwb.sector _
    refine ⟨?_,?_,?_,?_,?_,?_⟩
    · rw [h.accepted,h.marks]
      exact hinv.slots.length
    · simp only [h.marks,hphase]
      exact hinv.slots.free
    · simp only [h.marks,h.accepted,hphase,hsector]
      exact hinv.slots.used
    · intro i hi hhanded
      rw [h.marks] at hi
      rw [hphase]
      exact hinv.slots.handed i hi (h.of_handed hhanded)
    · simp only [JobAt,h.jobs,h.marks,h.accepted,hphase]
      exact hinv.slots.jobs
    · rw [h.jobs]
      exact hinv.slots.nodup
  fifo := by
    refine ⟨?_,?_⟩
    · simp only [slice,h.device,h.lens,h.accepted]
      exact hinv.fifo.device
    · intro c taken ppas hw
      obtain ⟨ppas',hw'⟩ := h.mapping hw
      simp only [slice,h.lens,h.accepted]
      exact hinv.fifo.writer c taken ppas' hw'

end SameOrder

theorem Requests.congr (h : s.Requests cfg) (hdevice : s'.device = s.device) (hwriter : s'.writer = s.writer)
    (hsubm : s'.marks.subm = s.marks.subm) : s'.Requests cfg := by
  have hlens : s'.lens = s.lens := by rw [lens,lens,hdevice]
  have hheld : s'.held = s.held := by simp only [held,hwriter]
  refine ⟨?_,?_,?_,?_⟩
  · rw [hsubm,hlens,hheld]
    exact h.subm
  · rw [hdevice,hlens]
    exact h.sentry
  · rw [hdevice]
    exact h.valid
  · unfold Starts
    rw [hwriter,hlens]
    exact h.starts

theorem offset_add_le {k : Nat} {q : WReq δ} (hk : s.device[k]? = some q) :
    offset s.lens k + q.ctx.nrValid ≤ s.lens.sum := by
  have hlen : s.lens[k]? = some q.ctx.nrValid := by simp [lens,hk]
  rw [← offset_succ hlen]
  exact offset_le_sum (k + 1)

theorem Requests.handed_lt (h : s.Requests cfg) {i : Nat} (hi : s.Handed i) : i < s.marks.subm := by
  rw [h.subm]
  rcases hi with ⟨k,q,hk,-,-,hlt⟩ | ⟨c,taken,ppas,hw,-,hlt⟩
  · have hle := offset_add_le hk
    omega
  · simp only [held,hw]
    exact hlt

theorem Completions.congr (h : s.Completions p) (hdevice : s'.device = s.device)
    (hsync : s'.marks.sync = s.marks.sync)
    (hcompleted : s'.completed = s.completed) (hanswered : s.answered ⊆ s'.answered) : s'.Completions p := by
  have hlens : s'.lens = s.lens := by rw [lens,lens,hdevice]
  refine ⟨?_,?_,?_,?_⟩
  · rw [hsync,hlens]
    exact h.sync
  · rw [hdevice]
    exact h.le_length
  · rw [hcompleted,hdevice]
    exact h.sent
  · rw [hcompleted]
    intro k hk
    exact hanswered (h.answered k hk)

theorem Fifo.congr (h : s.Fifo) (hdevice : s'.device = s.device) (hwriter : s'.writer = s.writer)
    (haccepted : s'.accepted = s.accepted) : s'.Fifo := by
  have hlens : s'.lens = s.lens := by rw [lens,lens,hdevice]
  refine ⟨?_,?_⟩
  · simp only [slice,hdevice,hlens,haccepted]
    exact h.device
  · simp only [slice,hlens,haccepted,hwriter]
    exact h.writer

/-! ## Reservations -/

theorem Ordered.release (h : s.Ordered cfg p) {c : Nat} {rb : Rb δ} {m : Map} (hc : s.marks.l2p + c ≤ s.marks.sync)
    (hup : updateL2p cfg c s.rwb s.map = some (rb,m)) :
    ({ s with rwb := rb, map := m, marks := { s.marks with l2p := s.marks.l2p + c } } : Ftl δ).Ordered cfg p := by
  obtain ⟨hl2p,hsync,hsubm,hlt,hl2pEq,hsyncEq,hsubmEq,hmemEq⟩ := h.cursors
  obtain ⟨hswept,hl2p',hmem',hsubm',hsync',hsub⟩ := updateL2p_spec (by omega) hl2pEq hup
  -- entries from the new `l2p` up to one revolution after the old one are untouched
  have hkept : ∀ i, s.marks.l2p + c ≤ i → i < s.marks.l2p + cfg.ring.cells →
      rb.entries (cfg.ring.wrap i) = s.slot cfg i := by
    intro i hi hi'
    apply hswept.outside
    intro j hj hj'
    exact RingSize.wrap_ne (l := s.marks.l2p) (by omega) hi' hj (by omega) (by omega)
  have hslots := h.slots
  refine ⟨⟨hc,hsync,hsubm,?_,hl2p',hsync'.trans hsyncEq,hsubm'.trans hsubmEq,hmem'.trans hmemEq⟩,
    h.requests.congr rfl rfl rfl,h.completions.congr rfl rfl rfl (List.Subset.refl _),
    ⟨hslots.length,?_,?_,?_,?_,hslots.nodup⟩,h.fifo.congr rfl rfl rfl⟩ <;> dsimp only
  · omega
  · intro i hi hi'
    by_cases hold : i < s.marks.l2p + cfg.ring.cells
    · exact (congrArg RbEntry.phase (hkept i (by omega) hold)).trans (hslots.free i hi hold)
    · -- the cell of an entry that was cleaned
      have hback : cfg.ring.wrap i = cfg.ring.wrap (i - cfg.ring.cells) := by
        rw [← cfg.ring.wrap_add_cells (i - cfg.ring.cells),Nat.sub_add_cancel (by omega)]
      change (rb.entries (cfg.ring.wrap i)).phase = _
      rw [hback,hswept.inside (i - cfg.ring.cells) (by omega) (by omega)]
      exact RbEntry.clean_phase
  · intro i hi hi'
    have hold := hslots.used i (by omega) hi'
    rw [← hkept i hi (by omega)] at hold
    exact hold
  · intro i hi hhanded
    have hbound := h.requests.handed_lt hhanded
    exact (congrArg RbEntry.phase (hkept i hi (by omega))).trans (hslots.handed i (by omega) hhanded)
  · intro j hj
    obtain ⟨i,hi,hi',hpos,hacc,hphase⟩ := hslots.jobs j hj
    -- a reserved entry is not a submitted one
    have hnew : s.marks.l2p + c ≤ i := by
      by_contra hlow
      have hflag := hsub (i - s.marks.l2p) (by omega)
      rw [Nat.add_sub_cancel' hi] at hflag
      exact RbEntry.reserved_not_submitted hphase hflag
    exact ⟨i,hnew,hi',hpos,hacc,(congrArg RbEntry.phase (hkept i hnew (by omega))).trans hphase⟩

/-- What a reservation that is granted has done: enough entries were moved to the device. -/
theorem makeRoom_effect (h : s.Cursors cfg) {n : Nat} (hm : s.makeRoom cfg n = some s') :
    ∃ c rb m, updateL2p cfg c s.rwb s.map = some (rb,m) ∧ s.marks.l2p + c ≤ s.marks.sync ∧
      s.marks.mem + n < s.marks.l2p + c + cfg.ring.cells ∧
      s' = { s with rwb := rb, map := m, marks := { s.marks with l2p := s.marks.l2p + c } } := by
  obtain ⟨hl2p,hsync,hsubm,hlt,hl2pEq,hsyncEq,hsubmEq,hmemEq⟩ := h
  have hspace : pblkRbSpace cfg.ring s.rwb = cfg.ring.cells - 1 - (s.marks.mem - s.marks.sync) := by
    rw [pblkRbSpace,hmemEq,hsyncEq]
    exact RingSize.space_wrap (by omega) (by omega)
  have hback : cfg.ring.space s.rwb.mem s.rwb.l2pUpdate = cfg.ring.cells - 1 - (s.marks.mem - s.marks.l2p) := by
    rw [hmemEq,hl2pEq]
    exact RingSize.space_wrap (by omega) (by omega)
  unfold makeRoom at hm
  split at hm
  · cases hm
  · rename_i hroom
    obtain ⟨⟨rb,m⟩,hup,rfl⟩ := Option.map_eq_some_iff.mp hm
    rw [hspace] at hroom
    rw [pblkRbUpdateL2p,hback] at hup
    refine ⟨n - cfg.ring.space s.rwb.mem s.rwb.l2pUpdate,rb,m,?_,?_,?_,rfl⟩
    · rw [hback]
      split at hup
      · rename_i hfree
        rw [Nat.sub_eq_zero_of_le (Nat.le_of_lt hfree)]
        exact hup
      · exact hup
    · omega
    · omega

theorem mem_place {r : RingSize} {pos : Nat} {xs : List (Sector δ)} {j : Job δ} (h : j ∈ place r pos xs) :
    ∃ t, xs[t]? = some j.sector ∧ j.pos = r.wrap (pos + t) := by
  induction xs generalizing pos with
  | nil => cases h
  | cons x xs ih =>
    rcases List.mem_cons.mp h with rfl | h
    · exact ⟨0,rfl,rfl⟩
    · obtain ⟨t,ht,hpos⟩ := ih h
      exact ⟨t + 1,ht,by rw [hpos,show pos + 1 + t = pos + (t + 1) by omega]⟩

theorem place_pos {r : RingSize} {pos : Nat} {xs : List (Sector δ)} :
    (place r pos xs).map Job.pos = (List.range xs.length).map fun t => r.wrap (pos + t) := by
  induction xs generalizing pos with
  | nil => rfl
  | cons x xs ih =>
    rw [place,List.map_cons,ih,List.length_cons,List.range_succ_eq_map,List.map_cons,List.map_map]
    refine congrArg₂ _ rfl (List.map_congr_left ?_)
    intro t _
    rw [Function.comp_apply,show pos + 1 + t = pos + t.succ by omega]

/-- What was reserved stays where it is when more is reserved. -/
theorem slice_append {acc : List (Option (Sector δ))} {o n : Nat} (h : o + n ≤ s.accepted.length)
    (ha : s'.accepted = s.accepted ++ acc) : s'.slice o n = s.slice o n := by
  rw [slice,slice,ha,List.drop_append_of_le_length (by omega),List.take_append_of_le_length (by simp; omega)]

theorem Fifo.append (h : s.Fifo) (hr : s.Requests cfg) {acc : List (Option (Sector δ))}
    (hlen : s.marks.subm ≤ s.accepted.length) (hdevice : s'.device = s.device) (hwriter : s'.writer = s.writer)
    (ha : s'.accepted = s.accepted ++ acc) : s'.Fifo := by
  have hlens : s'.lens = s.lens := by rw [lens,lens,hdevice]
  have hsubm := hr.subm
  refine ⟨?_,?_⟩
  · intro k q hk hsent
    rw [hdevice] at hk
    have hle := offset_add_le hk
    rw [hlens,slice_append (by omega) ha]
    exact h.device k q hk hsent
  · intro c taken ppas hw
    rw [hwriter] at hw
    have hheld : s.held = c.nrValid := by simp only [held,hw]
    rw [hlens,slice_append (by omega) ha]
    exact h.writer c taken ppas hw

theorem getElem?_append_of_some {α : Type*} {l l' : List α} {i : Nat} {a : α} (h : l[i]? = some a) :
    (l ++ l')[i]? = some a :=
  (List.getElem?_append_left (List.getElem?_eq_some_iff.mp h).1).trans h

theorem JobAt.append {j : Job δ} {i : Nat} {acc : List (Option (Sector δ))} (h : s.JobAt cfg j i)
    (hentries : s'.rwb.entries = s.rwb.entries) (hl2p : s'.marks.l2p = s.marks.l2p)
    (hmem : s.marks.mem ≤ s'.marks.mem) (ha : s'.accepted = s.accepted ++ acc) : s'.JobAt cfg j i := by
  obtain ⟨hi,hi',hpos,hacc,hphase⟩ := h
  refine ⟨hl2p ▸ hi,by omega,hpos,?_,?_⟩
  · rw [ha]
    exact getElem?_append_of_some hacc
  · rw [slot,hentries]
    exact hphase

theorem Ordered.reserve (h : s.Ordered cfg p) {n : Nat} {xs : List (Sector δ)} {acc : List (Option (Sector δ))}
    (hroom : s.marks.mem + n < s.marks.l2p + cfg.ring.cells) (hlen : acc.length = n)
    (hxs : ∀ (t : Nat) x, xs[t]? = some x → acc[t]? = some (some x)) : (s.reserve cfg n xs acc).Ordered cfg p := by
  obtain ⟨hl2p,hsync,hsubm,hlt,hl2pEq,hsyncEq,hsubmEq,hmemEq⟩ := h.cursors
  have hslots := h.slots
  have hlength := hslots.length
  have hfits : xs.length ≤ n := by
    by_contra hlong
    have hlast := hxs n (xs[n]) (List.getElem?_eq_getElem (by omega))
    rw [List.getElem?_eq_none (by omega)] at hlast
    cases hlast
  refine ⟨⟨hl2p,hsync,Nat.le_trans hsubm (Nat.le_add_right _ _),hroom,hl2pEq,hsyncEq,hsubmEq,?_⟩,
    h.requests.congr rfl rfl rfl,h.completions.congr rfl rfl rfl (List.Subset.refl _),
    ⟨?_,?_,?_,hslots.handed,?_,?_⟩,h.fifo.append h.requests (by omega) rfl rfl rfl⟩
  · change cfg.ring.wrap (s.rwb.mem + n) = cfg.ring.wrap (s.marks.mem + n)
    rw [hmemEq,RingSize.wrap_add]
  · simp [Ftl.reserve,hlength,hlen]
  · intro i hi hi'
    exact hslots.free i (Nat.le_trans (Nat.le_add_right _ _) hi) hi'
  · intro i hi hi'
    by_cases hold : i < s.marks.mem
    · refine (hslots.used i hi hold).imp_right ?_
      rintro ⟨x,hx,hrest⟩
      exact ⟨x,getElem?_append_of_some hx,hrest⟩
    · have hbound : i < s.marks.mem + n := hi'
      exact Or.inl (hslots.free i (by omega) (by omega))
  · intro j hj
    rcases List.mem_append.mp hj with hj | hj
    · obtain ⟨i,hi⟩ := hslots.jobs j hj
      exact ⟨i,hi.append rfl rfl (Nat.le_add_right _ _) rfl⟩
    · obtain ⟨t,ht,hpos⟩ := mem_place hj
      have htn : t < xs.length := (List.getElem?_eq_some_iff.mp ht).1
      have hlow : s.marks.l2p ≤ s.marks.mem + t := by omega
      refine ⟨s.marks.mem + t,hlow,?_,?_,?_,?_⟩
      · exact Nat.add_lt_add_left (by omega) _
      · rw [hpos,hmemEq,RingSize.wrap_add]
      · change (s.accepted ++ acc)[s.marks.mem + t]? = _
        rw [List.getElem?_append_right (by omega),hlength,Nat.add_sub_cancel_left]
        exact hxs t _ ht
      · exact hslots.free (s.marks.mem + t) (Nat.le_add_right _ t) (by omega)
  · change ((s.jobs ++ place cfg.ring s.rwb.mem xs).map Job.pos).Nodup
    rw [List.map_append,place_pos,List.nodup_append]
    refine ⟨hslots.nodup,List.nodup_range.map_on ?_,?_⟩
    · intro t ht u hu heq
      rw [List.mem_range] at ht hu
      rw [hmemEq,RingSize.wrap_add,RingSize.wrap_add] at heq
      have hsame := RingSize.wrap_inj (l := s.marks.mem) (Nat.le_add_right _ t) (by omega) (Nat.le_add_right _ u)
        (by omega) heq
      omega
    · intro a ha b hb
      obtain ⟨j,hj,rfl⟩ := List.mem_map.mp ha
      obtain ⟨t,ht,rfl⟩ := List.mem_map.mp hb
      obtain ⟨i,hi,hi',hpos,-,-⟩ := hslots.jobs j hj
      rw [List.mem_range] at ht
      rw [hpos,hmemEq,RingSize.wrap_add]
      exact RingSize.wrap_ne (l := s.marks.l2p) hi (by omega) (by omega) (by omega) (by omega)

/-! ## Copies -/

theorem insert_effect {j : Nat} (h : s.insert cfg j = some s') :
    ∃ pos x m, s.jobs[j]? = some ⟨pos,x⟩ ∧ (s.rwb.entries pos).wCtx.flags.writable = true ∧
      (match x.src with
        | .user => pblkUpdateMapCache cfg s.map x.lba (s.rwb.entries pos).cacheline
        | .gc line => some (pblkUpdateMapGc s.map x.lba (s.rwb.entries pos).cacheline line)) = some m ∧
      s' = { s with rwb := s.rwb.setEntry pos ((s.rwb.entries pos).write x), map := m,
                    jobs := s.jobs.eraseIdx j } := by
  unfold insert at h
  split at h
  · cases h
  · rename_i pos x hj
    obtain ⟨⟨rb,line⟩,hwrite,h⟩ := Option.bind_eq_some_iff.mp h
    obtain ⟨m,hm,rfl⟩ := Option.map_eq_some_iff.mp h
    obtain ⟨hwritable,rfl,rfl⟩ := pblkRbWriteEntry_eq_some hwrite
    exact ⟨pos,x,m,hj,hwritable,hm,rfl⟩

theorem Ordered.insert (h : s.Ordered cfg p) {j pos : Nat} {x : Sector δ} {m : Map} (hj : s.jobs[j]? = some ⟨pos,x⟩) :
    ({ s with rwb := s.rwb.setEntry pos ((s.rwb.entries pos).write x), map := m,
              jobs := s.jobs.eraseIdx j } : Ftl δ).Ordered cfg p := by
  obtain ⟨hl2p,hsync,hsubm,hlt,hl2pEq,hsyncEq,hsubmEq,hmemEq⟩ := h.cursors
  have hslots := h.slots
  obtain ⟨o,ho,ho',hpos,hacc,hphase⟩ := hslots.jobs ⟨pos,x⟩ (List.mem_of_getElem? hj)
  dsimp only at hpos hacc
  subst hpos
  have hself : (s.rwb.setEntry (cfg.ring.wrap o) ((s.slot cfg o).write x)).entries (cfg.ring.wrap o) =
      (s.slot cfg o).write x := Rb.entries_setEntry_self _
  have hother : ∀ i, s.marks.l2p ≤ i → i < s.marks.l2p + cfg.ring.cells → i ≠ o →
      (s.rwb.setEntry (cfg.ring.wrap o) ((s.slot cfg o).write x)).entries (cfg.ring.wrap i) = s.slot cfg i := by
    intro i hi hi' hne
    exact Rb.entries_setEntry_of_ne _ (RingSize.wrap_ne hi hi' ho (by omega) hne)
  refine ⟨⟨hl2p,hsync,hsubm,hlt,hl2pEq,hsyncEq,hsubmEq,hmemEq⟩,h.requests.congr rfl rfl rfl,
    h.completions.congr rfl rfl rfl (List.Subset.refl _),⟨hslots.length,?_,?_,?_,?_,?_⟩,h.fifo.congr rfl rfl rfl⟩ <;>
    dsimp only
  · intro i hi hi'
    exact (congrArg RbEntry.phase (hother i (by omega) hi' (by omega))).trans (hslots.free i hi hi')
  · intro i hi hi'
    by_cases hio : i = o
    · subst hio
      refine Or.inr ⟨x,hacc,?_,Or.inl ?_⟩
      · exact congrArg RbEntry.sector hself
      · exact congrArg RbEntry.phase hself
    · have hold := hslots.used i hi hi'
      rw [← hother i hi (by omega) hio] at hold
      exact hold
  · intro i hi hhanded
    have hbound := h.requests.handed_lt hhanded
    have hold := hslots.handed i hi hhanded
    have hio : i ≠ o := by
      rintro rfl
      rw [hphase] at hold
      cases hold
    exact (congrArg RbEntry.phase (hother i hi (by omega) hio)).trans hold
  · intro k hk
    obtain ⟨t,htne,ht⟩ := List.mem_eraseIdx_iff_getElem?.mp hk
    obtain ⟨i,hi,hi',hpos,hacc',hphase'⟩ := hslots.jobs k (List.mem_of_getElem? ht)
    -- two jobs have two entries
    have hio : i ≠ o := by
      rintro rfl
      have hmap : ∀ (u : Nat) (y : Job δ), s.jobs[u]? = some y → (s.jobs.map Job.pos)[u]? = some y.pos := by
        intro u y hy
        rw [List.getElem?_map,hy,Option.map_some]
      have hsame : (s.jobs.map Job.pos)[t]? = (s.jobs.map Job.pos)[j]? := by
        rw [hmap t k ht,hmap j _ hj,hpos]
      exact htne ((List.getElem?_inj (by simpa using (List.getElem?_eq_some_iff.mp ht).1) hslots.nodup).mp hsame)
    exact ⟨i,hi,hi',hpos,hacc',(congrArg RbEntry.phase (hother i hi (by omega) hio)).trans hphase'⟩
  · exact hslots.nodup.sublist ((List.eraseIdx_sublist s.jobs j).map Job.pos)

end Ftl

end Sdssd.Pblk
