import Sdssd.Host.Mapping

/-!
# The table refines a last-writer-wins map

When bios are processed one at a time, `l2ptbl` is the map that sends an LBA to the PPA allotted to
it last.
-/

namespace Sdssd.Host

open Framework

variable {α : Type}

/-- The abstract map: the PPA that was allotted last for an LBA, over the calls in the order in which
they began. -/
def lastAllotted (calls : List (BioCall α)) : Nat → Option Nat :=
  overwrite (fun _ => none) ((calls.flatMap BioCall.allotments).map fun w => (w.1,some w.2))

/-- Bios begin when no other is in progress, and every block switch finds the free pool non-empty. -/
def oneAtATime (s : WritePath α) : Label α → Prop
  | .begin bio => bio.Writable ∧ ∀ c ∈ s.calls, ∃ ret, c.pc = .returned ret
  | .wcbSection i => ∀ c, s.calls[i]? = some c → wcbAvailable s.ftl c.nrPpas = .ok true →
      PoolCovers s.ftl c.nrPpas
  | _ => True

/-- What the call has entered into the table. -/
def BioCall.mapped (c : BioCall α) : List (Nat × Nat) :=
  match c.pc with
  | .returned .complete => c.allotments
  | _ => []

/-- The words that the pairs of an LBA and a PPA stand for in the table. -/
def tableWords (ws : List (Nat × Nat)) : List (Nat × GeoPpa) := ws.map fun w => (w.1,inCacheWord w.2)

/-- The invariant of serial runs. -/
structure Serial (all : List Nat) (s : WritePath α) : Prop where
  last : ∀ i c, s.calls[i]? = some c → (∃ ret, c.pc = .returned ret) ∨ i + 1 = s.calls.length
  idle : ∀ c ∈ s.calls, c.pc = .start ∨ c.pc = .returned .resubmit → c.ppas = []
  length : ∀ c ∈ s.calls, c.ppas.length ≤ c.nrPpas
  frontier : Frontier s.ftl all (s.calls.flatMap BioCall.ppas).length
  log : s.calls.flatMap BioCall.ppas =
    (List.range (s.calls.flatMap BioCall.ppas).length).map (pageAt all)
  table : s.ftl.map.l2ptbl = overwrite (fun _ => invalidPage) (tableWords (s.calls.flatMap BioCall.mapped))

variable {s s' : WritePath α} {l : Label α} {all : List Nat}

/-- The call in progress is the last one. -/
theorem Serial.active (h : Serial all s) {i : Nat} {c : BioCall α} (hc : s.calls[i]? = some c)
    (hpc : ∀ ret, c.pc ≠ .returned ret) :
    ∃ pre, s.calls = pre ++ [c] ∧ (∀ c', s.calls.set i c' = pre ++ [c']) ∧
      ∀ d ∈ pre, ∃ ret, d.pc = .returned ret := by
  have hlen : i + 1 = s.calls.length := (h.last i c hc).resolve_left fun ⟨ret,hr⟩ => hpc ret hr
  obtain ⟨hlt,hget⟩ := List.getElem?_eq_some_iff.mp hc
  have hcalls : s.calls = s.calls.take i ++ [c] := by
    rw [← hget,List.take_append_getElem hlt,hlen,List.take_length]
  refine ⟨s.calls.take i,hcalls,fun c' => ?_,fun d hd => ?_⟩
  · rw [List.set_eq_take_append_cons_drop,if_pos hlt,hlen,List.drop_length]
  · obtain ⟨j,hj⟩ := List.mem_iff_getElem?.mp hd
    have hji : j < i := by
      have := (List.getElem?_eq_some_iff.mp hj).1
      rw [List.length_take] at this
      omega
    rw [List.getElem?_take_of_lt hji] at hj
    exact (h.last j d hj).resolve_right (by omega)

/-- Serial runs take no slot of a call that has yet to map its pages. -/
theorem Serial.slotsFree (h : Serial all s) (heff : Effect s l s') (hok : oneAtATime s l) :
    slotsFree s l := by
  have hstart {i : Nat} {c : BioCall α} (hc : s.calls[i]? = some c) (hpc : c.pc = .start) :
      Host.slotsFree s (.wcbSection i) := by
    obtain ⟨pre,hcalls,-,hpre⟩ := h.active hc (by simp [hpc])
    intro _ _ d hd todo adv hflush
    rw [hcalls] at hd
    rcases List.mem_append.mp hd with hd | hd
    · obtain ⟨ret,hret⟩ := hpre d hd
      rw [hflush] at hret
      cases hret
    · obtain rfl := List.mem_singleton.mp hd
      rw [hflush] at hpc
      cases hpc
  cases heff with
  | begin bio => exact hok.1
  | resubmit hc hpc hav => exact hstart hc hpc
  | alloc hc hpc hav hr => exact hstart hc hpc
  | copy => trivial
  | map => trivial
  | submit => trivial
  | complete => trivial

/-- Replacing the active call by one with the same pages and the same share of the table. -/
private theorem Serial.replace (h : Serial all s) {i : Nat} {c c' : BioCall α}
    (hc : s.calls[i]? = some c) (hpc : ∀ ret, c.pc ≠ .returned ret)
    (hcalls : s'.calls = s.calls.set i c') (hbio : c'.bio = c.bio) (hppas : c'.ppas = c.ppas)
    (hidle : c'.pc = .start ∨ c'.pc = .returned .resubmit → c'.ppas = [])
    (hframe : Frame s.ftl s'.ftl)
    (htable : s'.ftl.map.l2ptbl = overwrite s.ftl.map.l2ptbl (tableWords c'.mapped)) : Serial all s' := by
  obtain ⟨pre,hpre,hset,hret⟩ := h.active hc hpc
  rw [hset] at hcalls
  have hflat : s'.calls.flatMap BioCall.ppas = s.calls.flatMap BioCall.ppas := by
    rw [hcalls,hpre,List.flatMap_append,List.flatMap_append]
    simp [hppas]
  have hmem {d : BioCall α} (hd : d ∈ s'.calls) : d ∈ s.calls ∨ d = c' := by
    rw [hcalls,List.mem_append,List.mem_singleton] at hd
    exact hd.imp (fun hd => hpre ▸ List.mem_append_left _ hd) id
  refine ⟨?_,?_,?_,hflat ▸ hframe.frontier h.frontier,hflat ▸ h.log,?_⟩
  · intro j d hd
    by_cases hj : j < pre.length
    · rw [hcalls,List.getElem?_append_left hj] at hd
      exact Or.inl (hret d (List.mem_of_getElem? hd))
    · have hlt := (List.getElem?_eq_some_iff.mp hd).1
      rw [hcalls,List.length_append,List.length_singleton] at hlt ⊢
      exact Or.inr (by omega)
  · intro d hd
    rcases hmem hd with hd | rfl
    · exact h.idle d hd
    · exact hidle
  · intro d hd
    rcases hmem hd with hd | rfl
    · exact h.length d hd
    · rw [hppas,BioCall.nrPpas,hbio]
      exact h.length c (List.mem_of_getElem? hc)
  · have hc₀ : c.mapped = [] := by
      unfold BioCall.mapped
      split
      · exact absurd ‹_› (hpc .complete)
      · rfl
    rw [htable,h.table,hcalls,hpre]
    simp only [tableWords,List.flatMap_append,List.flatMap_cons,List.flatMap_nil,List.append_nil,hc₀,
      List.map_append,overwrite_append]

private theorem Serial.alloc (h : Serial all s) (hs : s.Sane) (hi : Intact s) {i : Nat} {c : BioCall α}
    {r : AllocResult α} (hc : s.calls[i]? = some c) (hpc : c.pc = .start)
    (hr : allocWcbCore s.ftl c.slba c.nrPpas = .ok r) (hcov : PoolCovers s.ftl c.nrPpas) :
    Serial all (s.allotted i c r) := by
  obtain ⟨pre,hpre,hset,hret⟩ := h.active hc (by simp [hpc])
  have hm := List.mem_of_getElem? hc
  have hserved := served hs (hi.bio c hm) hr
  have hempty := h.idle c hm (Or.inl hpc)
  obtain ⟨-,-,hall⟩ := allocWcbCore_sound hr
  obtain ⟨h1,h64,-⟩ := hi.bio c hm
  have hcount : allotCount c.nrPpas = c.nrPpas :=
    allotCount_of_lt h1 (Nat.lt_of_le_of_lt h64 (by decide))
  rw [hcount] at hall
  obtain ⟨hfr,hppas⟩ := allotPages_frontier hs.ready h.frontier
    ((h.frontier.poolCovers_iff c.nrPpas).mp hcov) hall
  have hcalls : (s.allotted i c r).calls = pre ++ [⟨c.bio,.flush (ctxSlots r.ctxs) 0,r.ctxs,r.ppas⟩] :=
    hset _
  have hold : s.calls.flatMap BioCall.ppas = pre.flatMap BioCall.ppas := by
    rw [hpre,List.flatMap_append]
    simp [hempty]
  have hflat : (s.allotted i c r).calls.flatMap BioCall.ppas = s.calls.flatMap BioCall.ppas ++ r.ppas := by
    rw [hcalls,hold,List.flatMap_append]
    simp
  have hlen : r.ppas.length = c.nrPpas := by rw [AllocResult.ppas,List.length_map,hserved.length]
  have hmem {d : BioCall α} (hd : d ∈ (s.allotted i c r).calls) :
      d ∈ s.calls ∨ d = ⟨c.bio,.flush (ctxSlots r.ctxs) 0,r.ctxs,r.ppas⟩ :=
    List.mem_or_eq_of_mem_set hd
  refine ⟨?_,?_,?_,?_,?_,?_⟩
  · intro j d hd
    by_cases hj : j < pre.length
    · rw [hcalls,List.getElem?_append_left hj] at hd
      exact Or.inl (hret d (List.mem_of_getElem? hd))
    · have hlt := (List.getElem?_eq_some_iff.mp hd).1
      rw [hcalls,List.length_append,List.length_singleton] at hlt ⊢
      exact Or.inr (by omega)
  · intro d hd
    rcases hmem hd with hd | rfl
    · exact h.idle d hd
    · simp
  · intro d hd
    rcases hmem hd with hd | rfl
    · exact h.length d hd
    · exact Nat.le_of_eq hlen
  · rw [hflat,List.length_append,hlen]
    exact hfr
  · rw [hflat,List.length_append,hlen,List.range_eq_range',← List.range'_append_1,List.map_append,
      ← List.range_eq_range',← h.log,Nat.zero_add]
    exact congrArg _ hppas
  · rw [hcalls,show (s.allotted i c r).ftl.map = s.ftl.map from hserved.map,h.table,hpre]
    simp [BioCall.mapped,hpc]

theorem Effect.serial (h : Effect s l s') (hs : s.Sane) (hi : Intact s) (hsr : Serial all s)
    (hok : oneAtATime s l) : Serial all s' := by
  have htable := h.table hs hi
  cases h with
  | begin bio =>
    have hflat {β : Type} (g : BioCall α → List β) (hg : g ⟨bio,.start,[],[]⟩ = []) :
        (s.calls ++ [(⟨bio,.start,[],[]⟩ : BioCall α)]).flatMap g = s.calls.flatMap g := by
      simp [hg]
    refine ⟨?_,?_,?_,?_,?_,?_⟩
    · intro i c hc
      by_cases hi' : i < s.calls.length
      · rw [List.getElem?_append_left hi'] at hc
        exact Or.inl (hok.2 c (List.mem_of_getElem? hc))
      · have hlt := (List.getElem?_eq_some_iff.mp hc).1
        rw [List.length_append,List.length_singleton] at hlt ⊢
        exact Or.inr (by omega)
    · intro c hc
      rcases List.mem_append.mp hc with hc | hc
      · exact hsr.idle c hc
      · obtain rfl := List.mem_singleton.mp hc
        exact fun _ => rfl
    · intro c hc
      rcases List.mem_append.mp hc with hc | hc
      · exact hsr.length c hc
      · obtain rfl := List.mem_singleton.mp hc
        exact Nat.zero_le _
    · rw [hflat BioCall.ppas rfl]
      exact hsr.frontier
    · rw [hflat BioCall.ppas rfl]
      exact hsr.log
    · rw [hflat BioCall.mapped rfl]
      exact hsr.table
  | @resubmit i c hc hpc hav =>
    refine hsr.replace hc (by simp [hpc]) rfl rfl rfl (fun _ => ?_) (Frame.refl _) rfl
    exact hsr.idle c (List.mem_of_getElem? hc) (Or.inl hpc)
  | @alloc i c r hc hpc hav hr => exact hsr.alloc hs hi hc hpc hr (hok c hc hav)
  | @copy i c slot todo adv hc hpc =>
    refine hsr.replace hc (by simp [hpc]) rfl rfl rfl (by simp) (flushSlot_frame ..) ?_
    exact congrArg L2pTbl.l2ptbl (flushSlot_map ..)
  | @map i c adv f hc hpc hf =>
    refine hsr.replace hc (by simp [hpc]) rfl rfl rfl (by simp) (setL2ptblWritePath_frame hf) ?_
    rcases htable with ⟨-,hsame⟩ | ⟨i',c',adv',hl,hc',-,-,-,htbl⟩
    · have hback := hsame i _ (getElem?_set_of_some hc _) rfl
      rw [hc,Option.some.injEq] at hback
      rw [hback] at hpc
      cases hpc
    · obtain rfl : i = i' := by injection hl
      obtain rfl : c' = c := Option.some.inj (hc'.symm.trans hc)
      exact htbl
  | submit hp =>
    have hframe := submit_frame s.ftl
    exact ⟨hsr.last,hsr.idle,hsr.length,(hframe _ _ _).frontier hsr.frontier,hsr.log,hsr.table⟩
  | complete hm =>
    refine ⟨hsr.last,hsr.idle,hsr.length,(wrppaLunCompletion_frame ..).frontier hsr.frontier,hsr.log,?_⟩
    exact (congrArg L2pTbl.l2ptbl (wrppaLunCompletion_map ..)).trans hsr.table

theorem serial_init {f : Ftl α} {free : List Nat} (h : Booted f free) (hs : free.Sublist scanOrder) :
    Serial (firstBlock free :: free.tail) (WritePath.init f) := by
  refine ⟨by simp [WritePath.init],by simp [WritePath.init],by simp [WritePath.init],h.frontier hs,rfl,?_⟩
  rw [show (WritePath.init f).ftl.map = f.map from rfl,h.map]
  exact funext fun _ => memsetWord_invalidPage

theorem Serial.allotments_snd (h : Serial all s) :
    (s.calls.flatMap BioCall.allotments).map Prod.snd = s.calls.flatMap BioCall.ppas := by
  rw [List.map_flatMap]
  refine List.flatMap_congr fun c hc => List.map_snd_zip ?_
  rw [List.length_range']
  exact h.length c hc

theorem Serial.page_lt (h : Serial all s) {lba ppa : Nat}
    (hm : (lba,ppa) ∈ s.calls.flatMap BioCall.allotments) : ppa < 2^31 := by
  have hp : ppa ∈ s.calls.flatMap BioCall.ppas := by
    rw [← h.allotments_snd]
    exact List.mem_map_of_mem (f := Prod.snd) hm
  rw [h.log] at hp
  obtain ⟨j,-,rfl⟩ := List.mem_map.mp hp
  exact Nat.lt_trans (h.frontier.pageAt_lt j) (by decide)

/-- No page is allotted for two LBAs. -/
theorem Serial.lba_unique (h : Serial all s) {lba lba' ppa : Nat}
    (hm : (lba,ppa) ∈ s.calls.flatMap BioCall.allotments)
    (hm' : (lba',ppa) ∈ s.calls.flatMap BioCall.allotments) : lba = lba' := by
  have hnodup : ((s.calls.flatMap BioCall.allotments).map Prod.snd).Nodup := by
    rw [h.allotments_snd,h.log]
    exact h.frontier.log_nodup
  exact congrArg Prod.fst (List.inj_on_of_nodup_map hnodup hm hm' rfl)

theorem lastAllotted_mem {calls : List (BioCall α)} {lba ppa : Nat}
    (h : lastAllotted calls lba = some ppa) : (lba,ppa) ∈ calls.flatMap BioCall.allotments := by
  rcases overwrite_cases (fun _ => none)
    ((calls.flatMap BioCall.allotments).map fun w => (w.1,some w.2)) lba with ⟨-,hnone⟩ | hm
  · rw [lastAllotted,hnone] at h
    cases h
  · rw [lastAllotted] at h
    rw [h] at hm
    obtain ⟨w,hw,heq⟩ := List.mem_map.mp hm
    obtain ⟨rfl,hsome⟩ := Prod.mk.inj heq
    obtain rfl := Option.some.inj hsome
    exact hw

theorem inCacheWord_toNat {ppa : Nat} (h : ppa < 2^31) : (inCacheWord ppa).toNat = ppa + 2^31 := by
  have hw : (BitVec.ofNat 32 ppa).toNat = ppa := by
    rw [BitVec.toNat_ofNat]
    exact Nat.mod_eq_of_lt (by omega)
  rw [inCacheWord,toNat_inCache _ (by rw [hw]; exact h),hw]

/-- The table of a serial run in which no bio is in progress. -/
theorem Serial.table_eq (h : Serial all s) (hidle : ∀ c ∈ s.calls, ∃ ret, c.pc = .returned ret)
    (lba : Nat) :
    s.ftl.map.l2ptbl lba = (lastAllotted s.calls lba).elim invalidPage inCacheWord := by
  have hmapped : s.calls.flatMap BioCall.mapped = s.calls.flatMap BioCall.allotments := by
    refine List.flatMap_congr fun c hc => ?_
    obtain ⟨ret,hret⟩ := hidle c hc
    cases ret with
    | complete => rw [BioCall.mapped,hret]
    | resubmit =>
      rw [BioCall.mapped,hret,BioCall.allotments,h.idle c hc (Or.inr hret),List.zip_nil_right]
  rw [h.table,hmapped,lastAllotted]
  have hmap := overwrite_map (fun o : Option Nat => o.elim invalidPage inCacheWord) (fun _ => none)
    ((s.calls.flatMap BioCall.allotments).map fun w => (w.1,some w.2)) lba
  rw [List.map_map] at hmap
  exact hmap

/-- When bios are processed one at a time and the free pool is never exhausted, then between two bios
every entry is `INVALID_PAGE` or the PPA allotted last for its LBA with bit 31 set, and different
LBAs have different entries. -/
theorem l2ptbl_last_writer_wins {mcp : Bool} {d : Discovery} {b : BootPages} {dma : Nat → EntityDma}
    {f₀ : Ftl α} {s : WritePath α} (hinit : fscftlModuleInit mcp d b dma = .ok (some f₀))
    (hrun : Reaches WritePath.step oneAtATime (WritePath.init f₀) s)
    (hidle : ∀ c ∈ s.calls, ∃ ret, c.pc = .returned ret) :
    (∀ lba, s.ftl.map.l2ptbl lba = (lastAllotted s.calls lba).elim invalidPage inCacheWord) ∧
    (∀ lba ppa, lastAllotted s.calls lba = some ppa →
      ppa < 2^31 ∧ (s.ftl.map.l2ptbl lba).toNat = ppa + 2^31) ∧
    ∀ lba lba', s.ftl.map.l2ptbl lba ≠ invalidPage →
      s.ftl.map.l2ptbl lba = s.ftl.map.l2ptbl lba' → lba = lba' := by
  obtain ⟨free,hboot,hscan,-⟩ := fscftlModuleInit_booted hinit
  obtain ⟨-,-,hsr⟩ := hrun.invariant
    (fun t => t.Sane ∧ Intact t ∧ Serial (firstBlock free :: free.tail) t)
    ⟨sane_init hboot,intact_init f₀,serial_init hboot hscan⟩ fun t l u ht hok hl => by
      have heff := step_effect hl
      exact ⟨(heff.sane ht.1).1,heff.intact ht.1 ht.2.1 (ht.2.2.slotsFree heff hok),
        heff.serial ht.1 ht.2.1 ht.2.2 hok⟩
  have htable := hsr.table_eq hidle
  have hword (lba ppa : Nat) (h : lastAllotted s.calls lba = some ppa) :
      ppa < 2^31 ∧ (s.ftl.map.l2ptbl lba).toNat = ppa + 2^31 := by
    have hlt := hsr.page_lt (lastAllotted_mem h)
    rw [htable,h]
    exact ⟨hlt,inCacheWord_toNat hlt⟩
  refine ⟨htable,hword,fun lba lba' hne heq => ?_⟩
  have hsome (x : Nat) (hx : s.ftl.map.l2ptbl x ≠ invalidPage) :
      ∃ ppa, lastAllotted s.calls x = some ppa := by
    rw [htable] at hx
    cases hl : lastAllotted s.calls x with
    | none => simp [hl] at hx
    | some ppa => exact ⟨ppa,rfl⟩
  obtain ⟨ppa,hppa⟩ := hsome lba hne
  obtain ⟨ppa',hppa'⟩ := hsome lba' (heq ▸ hne)
  have hnat := congrArg BitVec.toNat heq
  rw [(hword lba ppa hppa).2,(hword lba' ppa' hppa').2] at hnat
  obtain rfl : ppa = ppa' := Nat.add_right_cancel hnat
  exact hsr.lba_unique (lastAllotted_mem hppa) (lastAllotted_mem hppa')

/-- A bio of three pages is written to a new drive. -/
theorem l2ptbl_last_writer_wins_three_pages : ∃ (f₀ : Ftl Nat) (s : WritePath Nat) (c : BioCall Nat),
    fscftlModuleInit true .clean ⟨true,true⟩ (fun _ => ⟨0,0,0⟩) = .ok (some f₀) ∧
    Reaches WritePath.step oneAtATime (WritePath.init f₀) s ∧ s.calls = [c] ∧
    c.pc = .returned .complete ∧
    ∀ lba, s.ftl.map.l2ptbl lba = (lastAllotted s.calls lba).elim invalidPage inCacheWord := by
  obtain ⟨f₀,free,hinit,hboot,hscan⟩ := manufactory_booted (α := Nat) .clean ⟨true,true⟩
    (fun _ => ⟨0,0,0⟩)
  obtain ⟨hb,hslba,hn⟩ := fillerBio_writable 7 (by decide : 1 ≤ 3) (by decide)
  obtain ⟨s₁,s₂,s₃,c,e',q',hstep₁,hcop,hstep₃,hcalls,-,hpc,-⟩ := (stand_init hboot hscan).serve_steps hb
    (Nat.le_of_eq hslba.symm) (by rw [hn]; decide) (by rw [hn]; decide) (by rw [hn]; decide)
  have hbegin : oneAtATime (WritePath.init f₀) (.begin (fillerBio 7 3 (by decide))) :=
    ⟨hb,by simp [WritePath.init]⟩
  have halloc : oneAtATime { WritePath.init f₀ with
      calls := [⟨fillerBio 7 3 (by decide),.start,[],[]⟩] } (.wcbSection 0) := by
    intro d hd _
    obtain rfl := List.mem_singleton.mp (List.mem_of_getElem? hd)
    refine ((hboot.frontier hscan).poolCovers_iff _).mpr ?_
    rw [BioCall.nrPpas,hn,List.length_cons]
    exact Nat.lt_of_lt_of_le (by decide : (0 + 3) / blockPages < 1) (Nat.le_add_left _ _)
  have hrun : Reaches WritePath.step oneAtATime (WritePath.init f₀) s₃ :=
    Reaches.tail (((Reaches.single hbegin rfl).tail halloc hstep₁).trans
      (hcop.mono (of_copies fun _ _ => trivial))) (l := .l2pSection 0) trivial hstep₃
  have hidle : ∀ d ∈ s₃.calls, ∃ ret, d.pc = .returned ret := by
    intro d hd
    rw [hcalls] at hd
    obtain rfl := List.mem_singleton.mp hd
    exact ⟨_,hpc⟩
  exact ⟨f₀,s₃,c,hinit,hrun,hcalls,hpc,(l2ptbl_last_writer_wins hinit hrun hidle).1⟩

end Sdssd.Host
