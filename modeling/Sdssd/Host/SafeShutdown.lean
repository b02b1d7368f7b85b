import Sdssd.Host.BootBlock
import Sdssd.Host.Schedules

/-!
# What a clean shutdown leaves in the cache

`fscftl_module_exit` removes the disk, lets `flush_down_systbl` write the boot pages with
`POWER_DOWN_SAFE`, and frees the cache. It neither fills up the open entity nor waits for the entities
that are full or in flight.
-/

namespace Sdssd.Host

open Framework

variable {α : Type}

/-- The write path and the boot pages of a loaded driver. -/
structure Driver (α : Type) where
  path : WritePath α
  boot : BootRam

/-- `fscftl_module_exit` up to the end of `flush_down_systbl`. -/
def fscftlModuleExit (d : Driver α) : Except Fault (Driver α × List (BootPos × BootPage)) :=
  (flushDownSystbl d.boot).map fun (boot,cmds) => ({ d with boot := boot },cmds)

theorem fscftlModuleExit_ok {d d' : Driver α} {cmds : List (BootPos × BootPage)}
    (h : fscftlModuleExit d = .ok (d',cmds)) :
    d'.path = d.path ∧ d'.boot.metaPage.pdf = .powerDownSafe := by
  unfold fscftlModuleExit at h
  cases hflush : flushDownSystbl d.boot with
  | error x => simp [hflush,Except.map] at h
  | ok y =>
    simp only [hflush,Except.map,Except.ok.injEq,Prod.mk.injEq] at h
    rw [← h.1]
    exact ⟨rfl,(flushBootPages_ok hflush).2.1⟩

/-- The first page of the LUN stripe of a PPA. -/
def stripeOf (ppa : Nat) : Nat := ppa / raidLunSecNum * raidLunSecNum

theorem stripeOf_add {b p : Nat} (hb : b % raidLunSecNum = 0) (hp : p < raidLunSecNum) :
    stripeOf (b + p) = b := by
  unfold stripeOf
  simp only [raidLunSecNum_eq] at *
  omega

/-- The stripe of the page was submitted, or the page is in an entity that has no line in flight. -/
def PageKept (s : WritePath α) (ppa : Nat) : Prop :=
  (∃ w ∈ s.programmed, w.toNat = stripeOf ppa) ∨
    ∃ slot, Live s.ftl s.place slot ∧ heldBy s.inflight slot.1 = [] ∧ s.ftl.ppaAt slot = ppa

section Step

variable {s s' : WritePath α} {l : Label α}

/-- An entity in flight has a line that is not yet complete. -/
theorem WritePath.Sane.not_flight (hs : s.Sane) {e : Nat} (h : heldBy s.inflight e = []) :
    s.place e ≠ .flight := by
  intro hfl
  have hok := hs.ents e
  rw [hfl,h] at hok
  apply hok.2.flag_ne
  apply Conserved.flag_eq_of_bits hok.2.flag_lt
  intro j hj
  have hbit := (hok.2.mem j).not.mp (by simp)
  simpa [hj] using hbit

/-- Steps other than an allocation keep the slots live whose entity is not in flight. -/
theorem Shift.live (h : Shift s s' l) (hs : s.Sane) (hf : Frame s.ftl s'.ftl)
    (hcall : ∀ i, l = .wcbSection i → ∃ c, s'.calls[i]? = some c ∧ ∀ todo, c.pc ≠ .flush todo 0)
    {slot : Slot} (hl : Live s.ftl s.place slot) (hground : heldBy s.inflight slot.1 = []) :
    Live s'.ftl s'.place slot := by
  have hplace {e : Nat} {k : Place} (hk : s'.place = Function.update s.place e k)
      (hne : slot.1 = e → k ≠ .empty ∧ k ≠ .outside) : Live s'.ftl s'.place slot := by
    rw [Live.frame hf,hk]
    by_cases he : slot.1 = e
    · have := hne he
      rw [Live,he,Function.update_self,← he]
      exact ⟨this.1,this.2,hl.2.2⟩
    · rw [Live,Function.update_of_ne he]
      exact hl
  cases h with
  | same _ _ hsame =>
    rw [Live.frame hf,hsame]
    exact hl
  | alloc i hpc =>
    obtain ⟨c,hc,hne⟩ := hcall i rfl
    obtain ⟨todo,htodo⟩ := hpc c hc
    exact absurd htodo (hne todo)
  | filled i e _ hk => exact hplace hk fun _ => ⟨by simp,by simp⟩
  | submitted e _ hk => exact hplace hk fun _ => ⟨by simp,by simp⟩
  | emptied e line hfl hk =>
    apply hplace hk
    intro he
    exact absurd (he ▸ hfl) (hs.not_flight hground)

/-- A page stays kept when its slot does, or when the stripe of the slot is submitted. -/
theorem PageKept.step (s' : WritePath α) {ppa : Nat} (h : PageKept s ppa)
    (hprog : ∀ w ∈ s.programmed, w ∈ s'.programmed)
    (hslot : ∀ slot, Live s.ftl s.place slot → heldBy s.inflight slot.1 = [] →
      s.ftl.ppaAt slot = ppa → PageKept s' ppa) : PageKept s' ppa := by
  rcases h with ⟨w,hw,hstripe⟩ | ⟨slot,hl,hground,hppa⟩
  · exact Or.inl ⟨w,hprog w hw,hstripe⟩
  · exact hslot slot hl hground hppa

theorem le_allotCount (bio : Bio α) : getBioNppa bio ≤ allotCount (getBioNppa bio) := by
  have hlt := bio.size_lt
  rw [getBioNppa_eq]
  unfold expPpaSize at hlt
  unfold allotCount
  split <;> omega

/-- Pages of all calls are kept, and a call that was served has a PPA for each of its pages. -/
structure Stored (s : WritePath α) : Prop where
  striped : Striped s.ftl s.place
  page : ∀ c ∈ s.calls, ∀ ppa ∈ c.ppas, PageKept s ppa
  count : ∀ c ∈ s.calls, c.pc ≠ .start → c.pc ≠ .returned .resubmit → c.nrPpas ≤ c.ppas.length

/-- Steps that allot nothing. -/
private theorem Stored.keep (h : Stored s) (hstriped : Striped s'.ftl s'.place)
    (hkeep : ∀ ppa, PageKept s ppa → PageKept s' ppa)
    (hcalls : ∀ c' ∈ s'.calls, c'.ppas = [] ∧ c'.pc = .start ∨
      ∃ c ∈ s.calls, c'.ppas = c.ppas ∧ c'.bio = c.bio ∧
        (c.pc = .start → c'.pc = .start ∨ c'.pc = .returned .resubmit) ∧
        (c.pc = .returned .resubmit → c'.pc = .returned .resubmit)) : Stored s' := by
  constructor
  case striped => exact hstriped
  case page =>
    intro c' hc' ppa hppa
    rcases hcalls c' hc' with ⟨hnil,-⟩ | ⟨c,hc,hppas,-⟩
    · rw [hnil] at hppa
      cases hppa
    · exact hkeep ppa (h.page c hc ppa (hppas ▸ hppa))
  case count =>
    intro c' hc' h1 h2
    rcases hcalls c' hc' with ⟨-,hpc⟩ | ⟨c,hc,hppas,hbio,hstart,hres⟩
    · exact absurd hpc h1
    · rw [hppas,BioCall.nrPpas,hbio]
      apply h.count c hc
      · intro hpc
        rcases hstart hpc with hpc' | hpc'
        · exact h1 hpc'
        · exact h2 hpc'
      · intro hpc
        exact h2 (hres hpc)

/-- Steps that neither allot nor submit. -/
private theorem Stored.quiet (h : Stored s) (hs : s.Sane) (hshift : Shift s s' l)
    (hf : Frame s.ftl s'.ftl)
    (hcall : ∀ i, l = .wcbSection i → ∃ c, s'.calls[i]? = some c ∧ ∀ todo, c.pc ≠ .flush todo 0)
    (hprog : s'.programmed = s.programmed)
    (hinfl : ∀ e, heldBy s.inflight e = [] → heldBy s'.inflight e = [])
    (hcalls : ∀ c' ∈ s'.calls, c'.ppas = [] ∧ c'.pc = .start ∨
      ∃ c ∈ s.calls, c'.ppas = c.ppas ∧ c'.bio = c.bio ∧
        (c.pc = .start → c'.pc = .start ∨ c'.pc = .returned .resubmit) ∧
        (c.pc = .returned .resubmit → c'.pc = .returned .resubmit)) : Stored s' := by
  apply h.keep (hshift.striped hs h.striped hf hcall).1 ?_ hcalls
  intro ppa hppa
  apply hppa.step
  · intro w hw
    exact hprog ▸ hw
  · intro slot hl hground hat
    exact Or.inr ⟨slot,hshift.live hs hf hcall hl hground,hinfl _ hground,(hf.ppaAt slot).trans hat⟩

/-- The other calls are as before, and the call that moved keeps its bio and its PPAs. -/
private theorem calls_of_set {i : Nat} {c : BioCall α} {pc : CallPc} (hc : s.calls[i]? = some c)
    (hstart : c.pc = .start → pc = .returned .resubmit) (hres : c.pc ≠ .returned .resubmit)
    (c' : BioCall α) (hc' : c' ∈ s.calls.set i { c with pc := pc }) :
    ∃ d ∈ s.calls, c'.ppas = d.ppas ∧ c'.bio = d.bio ∧
      (d.pc = .start → c'.pc = .start ∨ c'.pc = .returned .resubmit) ∧
      (d.pc = .returned .resubmit → c'.pc = .returned .resubmit) := by
  rcases List.mem_or_eq_of_mem_set hc' with hold | rfl
  · exact ⟨c',hold,rfl,rfl,Or.inl,id⟩
  · exact ⟨c,List.mem_of_getElem? hc,rfl,rfl,fun h => Or.inr (hstart h),fun h => absurd h hres⟩

private theorem Stored.alloc {i : Nat} {c : BioCall α} {r : AllocResult α} (h : Stored s) (hs : s.Sane)
    (hc : s.calls[i]? = some c) (hpc : c.pc = .start)
    (hr : allocWcbCore s.ftl c.slba c.nrPpas = .ok r) : Stored (s.allotted i c r) := by
  obtain ⟨-,-,hall⟩ := allocWcbCore_sound hr
  obtain ⟨pl',eq',e',hcons,hstriped,hlive,hdead⟩ := hs.allotPages_live h.striped hall
  obtain ⟨-,hlen,-,hoff⟩ := allotPages_written hs.ready hall
  have hcons' := hcons.perm (pending_allotted r hc hpc) (List.Perm.refl _)
  have hplace : (s.allotted i c r).place = pl' := hcons'.eq_place.1
  constructor
  case striped =>
    rw [hplace]
    exact hstriped
  case page =>
    intro d hd ppa hppa
    rcases List.mem_or_eq_of_mem_set hd with hold | rfl
    · have hkept : PageKept s ppa := h.page d hold ppa hppa
      apply PageKept.step (s.allotted i c r) hkept (fun w hw => hw)
      intro slot hl hground hat
      have hnot : slot ∉ ctxSlots r.ctxs := fun hm => hdead slot hm hl
      refine Or.inr ⟨slot,?_,hground,(hoff slot hnot).2.trans hat⟩
      rw [hplace]
      exact (hlive slot).mpr (Or.inr hl)
    · obtain ⟨slot,hm,hat⟩ := List.mem_map.mp hppa
      have hpend : slot ∈ (s.allotted i c r).pending :=
        (pending_allotted r hc hpc).mem_iff.mp (List.mem_append_right _ hm)
      -- an entity with a slot still to be copied has not been submitted
      refine Or.inr ⟨slot,?_,(hcons'.filling_of_pending hpend).2.2,hat⟩
      rw [hplace]
      exact (hlive slot).mpr (Or.inl hm)
  case count =>
    intro d hd h1 h2
    rcases List.mem_or_eq_of_mem_set hd with hold | rfl
    · exact h.count d hold h1 h2
    · show c.nrPpas ≤ r.ppas.length
      rw [AllocResult.ppas,List.length_map,hlen]
      exact le_allotCount c.bio

/-- A submission takes the stripe of the oldest full entity to the device. -/
private theorem Stored.submit {e : Nat} {q : Fifo} {ln : Nat → Link} (h : Stored s) (hs : s.Sane)
    (hp : s.ftl.wcb.fullLun.pull s.ftl.wcb.link = some (e,q,ln)) :
    Stored { s with
      ftl := (nvmeWrppaLun (s.ftl.setFull q ln) e).1
      inflight := s.inflight ++ (nvmeWrppaLun (s.ftl.setFull q ln) e).2.map fun cmd => (e,cmd.idx)
      programmed := s.programmed ++ [(s.ftl.ent e).baddr] } := by
  have hshift := ((Effect.submit hp).sane hs).2
  have hf := submit_frame s.ftl q ln e
  have hmem : e ∈ s.fulls := by
    cases hfq : s.fulls with
    | nil =>
      rw [(Fifo.pull_eq_none_iff hs.fulls).mpr hfq] at hp
      cases hp
    | cons x fq =>
      obtain ⟨q',ln',hpull,-,-⟩ := (hfq ▸ hs.fulls).pull
      rw [hpull,Option.some.injEq,Prod.mk.injEq] at hp
      rw [← hp.1]
      exact List.mem_cons_self
  have hfull : s.place e = .full := (hs.full_iff e).mp hmem
  apply h.keep (hshift.striped hs h.striped hf nofun).1
  · intro ppa hppa
    apply hppa.step
    · intro w hw
      exact List.mem_append_left _ hw
    · intro slot hl hground hat
      by_cases he : slot.1 = e
      · have hpos : slot.2 < raidLunSecNum := by
          rw [← h.striped.full_pos e (Or.inl hfull),← he]
          exact hl.2.2
        have hal := h.striped.aligned slot.1 hl.1 hl.2.1
        refine Or.inl ⟨(s.ftl.ent e).baddr,by simp,?_⟩
        rw [← hat,h.striped.ppa slot hl,stripeOf_add hal hpos,he]
      · refine Or.inr ⟨slot,hshift.live hs hf nofun hl hground,?_,(hf.ppaAt slot).trans hat⟩
        show heldBy (s.inflight ++ _) slot.1 = []
        rw [nvmeWrppaLun_lines,heldBy_append,heldBy_map_mk_of_ne (Ne.symm he),List.append_nil,hground]
  · intro c hc
    exact Or.inr ⟨c,hc,rfl,rfl,Or.inl,id⟩

theorem Effect.stored (h : Effect s l s') (hs : s.Sane) (hst : Stored s) : Stored s' := by
  have hshift := (h.sane hs).2
  cases h with
  | begin bio =>
    apply hst.quiet hs hshift (Frame.refl _) nofun rfl (fun _ h => h)
    intro c' hc'
    rcases List.mem_append.mp hc' with hold | hnew
    · exact Or.inr ⟨c',hold,rfl,rfl,Or.inl,id⟩
    · rw [List.mem_singleton.mp hnew]
      exact Or.inl ⟨rfl,rfl⟩
  | @resubmit i c hc hpc hav =>
    apply hst.quiet hs hshift (Frame.refl _) ?_ rfl (fun _ h => h)
    · intro c' hc'
      exact Or.inr (calls_of_set hc (fun _ => rfl) (by simp [hpc]) c' hc')
    · intro k hk
      cases hk
      exact ⟨_,getElem?_set_of_some hc _,by simp⟩
  | alloc hc hpc hav hr => exact hst.alloc hs hc hpc hr
  | copy hc hpc =>
    apply hst.quiet hs hshift (flushSlot_frame ..) nofun rfl (fun _ h => h)
    intro c' hc'
    exact Or.inr (calls_of_set hc (by simp [hpc]) (by simp [hpc]) c' hc')
  | map hc hpc hf =>
    apply hst.quiet hs hshift (setL2ptblWritePath_frame hf) nofun rfl (fun _ h => h)
    intro c' hc'
    exact Or.inr (calls_of_set hc (by simp [hpc]) (by simp [hpc]) c' hc')
  | submit hp => exact hst.submit hs hp
  | complete hm =>
    apply hst.quiet hs hshift (wrppaLunCompletion_frame ..) nofun rfl
    · intro x hx
      rw [List.eq_nil_iff_forall_not_mem] at hx ⊢
      intro line hline
      exact hx line (mem_heldBy.mpr (List.mem_of_mem_erase (mem_heldBy.mp hline)))
    · intro c hc
      exact Or.inr ⟨c,hc,rfl,rfl,Or.inl,id⟩

/-- With all other entities in the empty queue, the open entity is the only one in use. -/
theorem WritePath.Sane.place_of_idle (hs : s.Sane)
    (hsize : s.ftl.wcb.emptyLun.size = cbEntitysCnt - 1) {e : Nat} (he : e ≠ s.part) :
    s.place e = .empty ∨ s.place e = .outside := by
  have hpart : s.part ∉ s.empties := hs.ready.notMem
  have hlt : ∀ x ∈ s.part :: s.empties, x < cbEntitysCnt := by
    intro x hx
    rcases List.mem_cons.mp hx with rfl | hx
    · exact hs.lt_of_ne_outside (by simp [(hs.open_iff s.part).mpr rfl])
    · exact hs.lt_of_ne_outside (by simp [(hs.empty_iff x).mp hx])
  have hall : (s.part :: s.empties).toFinset = Finset.range cbEntitysCnt := by
    apply Finset.eq_of_subset_of_card_le
    · intro x hx
      exact Finset.mem_range.mpr (hlt x (List.mem_toFinset.mp hx))
    · rw [Finset.card_range,List.toFinset_card_of_nodup (List.nodup_cons.mpr ⟨hpart,hs.empties.nodup⟩),
        List.length_cons,← hs.empties.size,hsize]
      decide
  by_cases hout : e < cbEntitysCnt
  · have hmem : e ∈ s.part :: s.empties := by
      rw [← List.mem_toFinset,hall]
      exact Finset.mem_range.mpr hout
    exact Or.inl ((hs.empty_iff e).mp (List.mem_of_ne_of_mem he hmem))
  · exact Or.inr ((hs.outside_iff e).mpr (Nat.le_of_not_lt hout))

/-- Then nothing is full or in flight, and no slot beyond those of the open entity is live. -/
theorem WritePath.Sane.idle (hs : s.Sane) (hsize : s.ftl.wcb.emptyLun.size = cbEntitysCnt - 1) :
    s.fulls = [] ∧ s.inflight = [] ∧ ∀ slot, Live s.ftl s.place slot → slot.1 = s.part := by
  have hplace {e : Nat} := hs.place_of_idle hsize (e := e)
  have hopen := (hs.open_iff s.part).mpr rfl
  refine ⟨?_,?_,?_⟩
  · apply List.eq_nil_iff_forall_not_mem.mpr
    intro e hmem
    have hfull := (hs.full_iff e).mp hmem
    rcases hplace (e := e) (by rintro rfl; simp [hopen] at hfull) with h | h <;> simp [h] at hfull
  · apply List.eq_nil_iff_forall_not_mem.mpr
    rintro ⟨e,line⟩ hmem
    have hline : line ∈ heldBy s.inflight e := mem_heldBy.mpr hmem
    have hok := hs.ents e
    by_cases he : e = s.part
    · rw [he,hopen] at hok
      rw [he,hok.2.2] at hline
      cases hline
    · rcases hplace he with h | h <;>
      · rw [h] at hok
        rw [hok.2] at hline
        cases hline
  · intro slot hl
    by_contra hne
    rcases hplace hne with h | h
    · exact hl.1 h
    · exact hl.2.1 h

end Step

theorem stored_init {f : Ftl α} {free : List Nat} (h : Booted f free) : Stored (WritePath.init f) := by
  constructor
  case striped => exact (owned_init h).striped
  case page =>
    intro c hc
    cases hc
  case count =>
    intro c hc
    cases hc

theorem stored_of_reaches {ok : WritePath α → Label α → Prop} {s s' : WritePath α} (hs : s.Sane)
    (hst : Stored s) (h : Reaches WritePath.step ok s s') : s'.Sane ∧ Stored s' :=
  h.invariant (fun t => t.Sane ∧ Stored t) ⟨hs,hst⟩ fun _ _ _ ht _ hl =>
    ⟨((step_effect hl).sane ht.1).1,(step_effect hl).stored ht.1 ht.2⟩

/-- A driver that is unloaded while its open entity has no page and all other entities are in the
empty queue writes `POWER_DOWN_SAFE` with no page lost: nothing is full or in flight, and the stripes
of all pages of the bios that were ended are on the device. -/
theorem safe_is_durable {mcp : Bool} {disc : Discovery} {b : BootPages} {dma : Nat → EntityDma}
    {f₀ : Ftl α} {d d' : Driver α} {cmds : List (BootPos × BootPage)}
    (hinit : fscftlModuleInit mcp disc b dma = .ok (some f₀))
    (hrun : Reaches WritePath.step always (WritePath.init f₀) d.path)
    (hpos : ∀ e, d.path.ftl.wcb.partialEntity = some e → (d.path.ftl.ent e).pos = 0)
    (hsize : d.path.ftl.wcb.emptyLun.size = cbEntitysCnt - 1)
    (hexit : fscftlModuleExit d = .ok (d',cmds)) :
    d'.boot.metaPage.pdf = .powerDownSafe ∧ d'.path.fulls = [] ∧ d'.path.inflight = [] ∧
      ∀ c ∈ d'.path.calls, c.pc = .returned .complete → ∀ j < c.nrPpas,
        ∃ ppa w, c.ppas[j]? = some ppa ∧ w ∈ d'.path.programmed ∧ w.toNat = stripeOf ppa := by
  obtain ⟨free,hboot,-,-⟩ := fscftlModuleInit_booted hinit
  obtain ⟨hs,hst⟩ := stored_of_reaches (sane_init hboot) (stored_init hboot) hrun
  obtain ⟨hfulls,hinfl,hlive⟩ := hs.idle hsize
  obtain ⟨hpath,hpdf⟩ := fscftlModuleExit_ok hexit
  rw [hpath]
  refine ⟨hpdf,hfulls,hinfl,?_⟩
  intro c hc hpc j hj
  have hlen : j < c.ppas.length := Nat.lt_of_lt_of_le hj (hst.count c hc (by simp [hpc]) (by simp [hpc]))
  refine ⟨c.ppas[j],?_⟩
  rcases hst.page c hc _ (List.getElem_mem hlen) with ⟨w,hw,hstripe⟩ | ⟨slot,hl,-,-⟩
  · exact ⟨w,List.getElem?_eq_getElem hlen,hw,hstripe⟩
  · -- the open entity has no page, so that no slot is live
    have hlt := hl.2.2
    rw [hlive slot hl,hpos _ hs.isPart] at hlt
    exact absurd hlt (Nat.not_lt_zero _)

/-- The cache is filled once and drained before the driver is unloaded. -/
theorem safe_is_durable_after_drain : ∃ (f₀ : Ftl Nat) (d d' : Driver Nat)
    (cmds : List (BootPos × BootPage)),
    fscftlModuleInit true .clean ⟨true,true⟩ (fun _ => ⟨0,0,0⟩) = .ok (some f₀) ∧
      Reaches WritePath.step always (WritePath.init f₀) d.path ∧
      fscftlModuleExit d = .ok (d',cmds) ∧ d'.boot.metaPage.pdf = .powerDownSafe ∧
      d'.path.inflight = [] := by
  obtain ⟨f₀,free,hinit,hboot,hscan⟩ := manufactory_booted (α := Nat) .clean ⟨true,true⟩
    (fun _ => ⟨0,0,0⟩)
  obtain ⟨s,hran,hs⟩ := (stand_init hboot hscan).fill 7 (by decide) (by decide)
  obtain ⟨t,hdr,-,ht⟩ := hs.drain
  obtain ⟨boot,cmds,hflush,-⟩ := flushBootPages_flushed bootSetup_flushed .powerDownSafe
  have hexit : fscftlModuleExit ⟨t,bootSetup⟩ = .ok (⟨t,boot⟩,cmds) := by
    rw [fscftlModuleExit,flushDownSystbl,hflush]
    rfl
  have hrun : Reaches WritePath.step always (WritePath.init f₀) t :=
    (hran.run.mono fun _ _ _ => trivial).trans (hdr.run.mono fun _ _ _ => trivial)
  obtain ⟨hpdf,-,hinfl,-⟩ := safe_is_durable (d := ⟨t,bootSetup⟩) hinit hrun
    (by
      intro e he
      have hpart := ht.sane.isPart
      rw [he,Option.some.injEq,ht.part] at hpart
      rw [hpart,ht.pos]
      decide)
    (by
      have hsize := ht.sane.empties.size
      rw [ht.empties] at hsize
      exact hsize)
    hexit
  exact ⟨f₀,⟨t,bootSetup⟩,_,cmds,hinit,hrun,hexit,hpdf,hinfl⟩

/-- One page is written and its bio ended, and the driver is unloaded: `POWER_DOWN_SAFE` is written
while nothing at all was submitted to the device. -/
theorem safe_page_lost : ∃ (f₀ : Ftl Nat) (d d' : Driver Nat) (cmds : List (BootPos × BootPage))
    (c : BioCall Nat),
    fscftlModuleInit true .clean ⟨true,true⟩ (fun _ => ⟨0,0,0⟩) = .ok (some f₀) ∧
      Reaches WritePath.step always (WritePath.init f₀) d.path ∧
      fscftlModuleExit d = .ok (d',cmds) ∧ d'.boot.metaPage.pdf = .powerDownSafe ∧
      c ∈ d'.path.calls ∧ c.pc = .returned .complete ∧ c.nrPpas = 1 ∧ d'.path.programmed = [] := by
  obtain ⟨f₀,free,hinit,hboot,hscan⟩ := manufactory_booted (α := Nat) .clean ⟨true,true⟩
    (fun _ => ⟨0,0,0⟩)
  obtain ⟨hb,hslba,hn⟩ := fillerBio_writable 7 (by decide : 1 ≤ 1) (by decide)
  obtain ⟨s₁,s₂,s₃,c,e',q',hstep₁,hcop,hstep₃,hcalls,hbio,hpc,hkept,-,-⟩ :=
    (stand_init hboot hscan).serve_steps hb (Nat.le_of_eq hslba.symm) (by rw [hn]; decide)
      (by rw [hn]; decide) (by rw [hn]; decide)
  have hrun₁ : Reaches WritePath.step always (WritePath.init f₀) s₁ :=
    (Reaches.single (l := .begin (fillerBio 7 1 (by decide))) trivial rfl).tail (l := .wcbSection 0)
      trivial hstep₁
  have hrun : Reaches WritePath.step always (WritePath.init f₀) s₃ :=
    (hrun₁.trans (hcop.mono fun _ _ _ => trivial)).tail (l := .l2pSection 0) trivial hstep₃
  obtain ⟨boot,cmds,hflush,-⟩ := flushBootPages_flushed bootSetup_flushed .powerDownSafe
  have hexit : fscftlModuleExit ⟨s₃,bootSetup⟩ = .ok (⟨s₃,boot⟩,cmds) := by
    rw [fscftlModuleExit,flushDownSystbl,hflush]
    rfl
  refine ⟨f₀,⟨s₃,bootSetup⟩,⟨s₃,boot⟩,cmds,c,hinit,hrun,hexit,(fscftlModuleExit_ok hexit).2,?_,hpc,?_,
    hkept.programmed⟩
  · show c ∈ s₃.calls
    rw [hcalls]
    exact List.mem_append_right _ (List.mem_singleton_self c)
  · rw [BioCall.nrPpas,hbio,hn]

end Sdssd.Host
