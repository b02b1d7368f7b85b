import Sdssd.Host.Schedules

/-!
# The mapping table under concurrent writes

`set_l2ptbl_write_path` reads LBA and PPA from the entities again, after the copies. A call maps its
own pages as long as none of its slots has been allotted anew by then.
-/

namespace Sdssd.Host

open Framework

variable {α : Type} {s s' : WritePath α} {l : Label α}

/-- The table word for a page in the cache. -/
def inCacheWord (ppa : Nat) : GeoPpa := Cache.inCache.set (BitVec.ofNat 32 ppa) 1

/-- The PPAs allotted to a call, with the LBA each was allotted for. -/
def BioCall.allotments (c : BioCall α) : List (Nat × Nat) := (List.range' c.slba c.nrPpas).zip c.ppas

/-- The entities still name, at the slots of the call, what they were given for it. -/
structure Names (f : Ftl α) (c : BioCall α) : Prop where
  ppas : c.ppas = c.slots.map f.ppaAt
  lbas : c.slots.map f.lbaAt = List.range' c.slba c.nrPpas

variable {f f' : Ftl α} {c : BioCall α}

theorem Names.congr (h : Names f c) (hslots : ∀ slot ∈ c.slots, f'.lbaAt slot = f.lbaAt slot ∧
    f'.ppaAt slot = f.ppaAt slot) : Names f' c := by
  refine ⟨h.ppas.trans ?_,Eq.trans ?_ h.lbas⟩
  · exact List.map_congr_left fun slot hm => (hslots slot hm).2.symm
  · exact List.map_congr_left fun slot hm => (hslots slot hm).1

theorem Names.length (h : Names f c) : c.ppas.length = c.nrPpas := by
  have hlen := congrArg List.length h.lbas
  rw [List.length_map,List.length_range'] at hlen
  rw [h.ppas,List.length_map,hlen]

/-- What such a call writes into the table. -/
theorem Names.writes (h : Names f c) :
    l2pWrites f c.slots = c.allotments.map fun w => (w.1,inCacheWord w.2) := by
  rw [BioCall.allotments,← h.lbas,h.ppas,List.zip_map',List.map_map]
  rfl

theorem Names.keys (h : Names f c) : c.allotments.map Prod.fst = List.range' c.slba c.nrPpas :=
  List.map_fst_zip (by rw [List.length_range',h.length])

/-- All bios are writable, and the slots of every call that has not yet mapped its pages still name
them. -/
structure Intact (s : WritePath α) : Prop where
  bio : ∀ c ∈ s.calls, c.bio.Writable
  names : ∀ c ∈ s.calls, ∀ todo adv, c.pc = .flush todo adv → Names s.ftl c

/-- An allocation takes no slot of a call that has allocated and not yet mapped its pages; `nextSlots`
are the next slots of the open entity and of the entities at the head of `empty_lun`. -/
def slotsFree (s : WritePath α) : Label α → Prop
  | .begin bio => bio.Writable
  | .wcbSection i => ∀ c, s.calls[i]? = some c → ∀ c' ∈ s.calls, ∀ todo adv, c'.pc = .flush todo adv →
      ∀ slot ∈ c'.slots, slot ∉ nextSlots (s.part :: s.empties) (s.ftl.ent s.part).pos c.nrPpas
  | _ => True

theorem intact_init (f : Ftl α) : Intact (WritePath.init f) :=
  ⟨by simp [WritePath.init],by simp [WritePath.init]⟩

private theorem Intact.frame (h : Intact s) (hf : Frame s.ftl s'.ftl)
    (hcalls : ∀ c ∈ s'.calls, c ∈ s.calls ∨ c.bio.Writable ∧ ∀ todo adv, c.pc = .flush todo adv →
      Names s.ftl c) : Intact s' := by
  have hnames {c : BioCall α} (hn : Names s.ftl c) : Names s'.ftl c :=
    hn.congr fun slot _ => ⟨hf.lbaAt slot,hf.ppaAt slot⟩
  refine ⟨fun c hc => ?_,fun c hc todo adv hpc => ?_⟩
  · exact (hcalls c hc).elim (h.bio c) And.left
  · rcases hcalls c hc with hold | ⟨-,hnew⟩
    · exact hnames (h.names c hold todo adv hpc)
    · exact hnames (hnew todo adv hpc)

theorem Effect.intact (h : Effect s l s') (hs : s.Sane) (hi : Intact s) (hok : slotsFree s l) :
    Intact s' := by
  have hset {i : Nat} {d c : BioCall α} (hc : c ∈ s.calls.set i d) : c ∈ s.calls ∨ c = d :=
    List.mem_or_eq_of_mem_set hc
  cases h with
  | begin bio =>
    refine hi.frame (Frame.refl _) fun c hc => ?_
    rcases List.mem_append.mp hc with hc | hc
    · exact Or.inl hc
    · obtain rfl := List.mem_singleton.mp hc
      exact Or.inr ⟨hok,by simp⟩
  | @resubmit i c hc hpc hav =>
    refine hi.frame (Frame.refl _) fun d hd => (hset hd).imp id ?_
    rintro rfl
    exact ⟨hi.bio c (List.mem_of_getElem? hc),by simp⟩
  | @alloc i c r hc hpc hav hr =>
    have hbio := hi.bio c (List.mem_of_getElem? hc)
    have hserved := served hs hbio hr
    refine ⟨fun d hd => ?_,fun d hd todo adv hpc' => ?_⟩
    · rcases hset hd with hd | rfl
      · exact hi.bio d hd
      · exact hbio
    · rcases hset hd with hd | rfl
      · refine (hi.names d hd todo adv hpc').congr fun slot hm => hserved.off slot ?_
        rw [hserved.slots]
        exact hok c hc d hd todo adv hpc' slot hm
      · exact ⟨rfl,hserved.lbas⟩
  | @copy i c slot todo adv hc hpc =>
    refine hi.frame (flushSlot_frame ..) fun d hd => (hset hd).imp id ?_
    rintro rfl
    have hm := List.mem_of_getElem? hc
    have hnames := hi.names c hm _ _ hpc
    exact ⟨hi.bio c hm,fun _ _ _ => ⟨hnames.ppas,hnames.lbas⟩⟩
  | @map i c adv f hc hpc hf =>
    refine hi.frame (setL2ptblWritePath_frame hf) fun d hd => (hset hd).imp id ?_
    rintro rfl
    exact ⟨hi.bio c (List.mem_of_getElem? hc),by simp⟩
  | submit hp => exact hi.frame (submit_frame ..) fun c hc => Or.inl hc
  | complete hm => exact hi.frame (wrppaLunCompletion_frame ..) fun c hc => Or.inl hc

/-- What a step does to the table: the section under `l2ptbl_lock` enters the pages of its call, and
no other step changes an entry or completes a call. -/
theorem Effect.table (h : Effect s l s') (hs : s.Sane) (hi : Intact s) :
    (s'.ftl.map.l2ptbl = s.ftl.map.l2ptbl ∧ ∀ (k : Nat) (c : BioCall α), s'.calls[k]? = some c →
      c.pc = .returned .complete → s.calls[k]? = some c) ∨
    ∃ i c adv, l = .l2pSection i ∧ s.calls[i]? = some c ∧ c.pc = .flush [] adv ∧ Names s.ftl c ∧
      s'.calls = s.calls.set i { c with pc := .returned .complete } ∧
      s'.ftl.map.l2ptbl = overwrite s.ftl.map.l2ptbl
        (c.allotments.map fun w => (w.1,inCacheWord w.2)) := by
  have hset {i k : Nat} {d c : BioCall α} (hc : (s.calls.set i d)[k]? = some c)
      (hpc : c.pc = .returned .complete) (hd : d.pc ≠ .returned .complete) : s.calls[k]? = some c := by
    rcases getElem?_set_cases hc with ⟨rfl,rfl⟩ | ⟨-,hc⟩
    · exact absurd hpc hd
    · exact hc
  cases h with
  | begin bio =>
    refine Or.inl ⟨rfl,fun k c hc hpc => ?_⟩
    by_cases hk : k < s.calls.length
    · rwa [List.getElem?_append_left hk] at hc
    · rw [List.getElem?_append_right (Nat.not_lt.mp hk)] at hc
      obtain rfl := List.mem_singleton.mp (List.mem_of_getElem? hc)
      cases hpc
  | resubmit hc hpc hav => exact Or.inl ⟨rfl,fun k c hc hpc => hset hc hpc (by simp)⟩
  | @alloc i c r hc hpc hav hr =>
    have hserved := served hs (hi.bio c (List.mem_of_getElem? hc)) hr
    exact Or.inl ⟨congrArg L2pTbl.l2ptbl hserved.map,fun k c hc hpc => hset hc hpc (by simp)⟩
  | copy hc hpc =>
    exact Or.inl ⟨congrArg L2pTbl.l2ptbl (flushSlot_map ..),fun k c hc hpc => hset hc hpc (by simp)⟩
  | @map i c adv f hc hpc hf =>
    have hm := List.mem_of_getElem? hc
    have hnames := hi.names c hm _ _ hpc
    have hcap := (hi.bio c hm).2.2
    refine Or.inr ⟨i,c,adv,rfl,hc,hpc,hnames,rfl,?_⟩
    rw [← hnames.writes]
    refine setL2ptblWritePath_l2ptbl (fun slot hslot => ?_) hf
    have hlba : s.ftl.lbaAt slot ∈ List.range' c.slba c.nrPpas := by
      rw [← hnames.lbas]
      exact List.mem_map_of_mem hslot
    rw [List.mem_range'_1] at hlba
    unfold Bio.InCapacity at hcap
    unfold BioCall.slba BioCall.nrPpas at hlba
    omega
  | submit hp => exact Or.inl ⟨rfl,fun k c hc _ => hc⟩
  | complete hm =>
    exact Or.inl ⟨congrArg L2pTbl.l2ptbl (wrppaLunCompletion_map ..),fun k c hc _ => hc⟩

/-- Entries of the LBAs of call `i`, which began in `s₁`: once it has completed they hold PPAs
allotted to calls that had not returned in `s₁`. -/
structure Fresh (s₁ : WritePath α) (i : Nat) (bio : Bio α) (s : WritePath α) : Prop where
  call : ∃ c, s.calls[i]? = some c ∧ c.bio = bio
  old : ∀ (k : Nat) (d : BioCall α) (ret : BioRet), s₁.calls[k]? = some d → d.pc = .returned ret →
    s.calls[k]? = some d
  entry : ∀ c, s.calls[i]? = some c → c.pc = .returned .complete →
    ∀ lba ∈ List.range' (getBioSlba bio) (getBioNppa bio), ∃ (k : Nat) (c' : BioCall α) (ppa : Nat),
      s.calls[k]? = some c' ∧ c'.pc = .returned .complete ∧ (lba,ppa) ∈ c'.allotments ∧
      s.ftl.map.l2ptbl lba = inCacheWord ppa ∧
      ∀ (d : BioCall α) (ret : BioRet), s₁.calls[k]? = some d → d.pc ≠ .returned ret

theorem Effect.fresh {s₁ : WritePath α} {i : Nat} {bio : Bio α} (h : Effect s l s') (hs : s.Sane)
    (hi : Intact s) (hf : Fresh s₁ i bio s) : Fresh s₁ i bio s' := by
  obtain ⟨c₀,hc₀,hbio₀⟩ := hf.call
  refine ⟨?_,fun k d ret hd hpc => h.call_returned (hf.old k d ret hd hpc) hpc,?_⟩
  · obtain ⟨c',hc',hbio'⟩ := h.call_bio hc₀
    exact ⟨c',hc',hbio'.trans hbio₀⟩
  · intro c hc hpc lba hlba
    -- an entry that the step leaves alone
    have keep (hc : s.calls[i]? = some c) (htbl : s'.ftl.map.l2ptbl lba = s.ftl.map.l2ptbl lba) :
        ∃ (k : Nat) (c' : BioCall α) (ppa : Nat), s'.calls[k]? = some c' ∧
          c'.pc = .returned .complete ∧ (lba,ppa) ∈ c'.allotments ∧
          s'.ftl.map.l2ptbl lba = inCacheWord ppa ∧
          ∀ (d : BioCall α) (ret : BioRet), s₁.calls[k]? = some d → d.pc ≠ .returned ret := by
      obtain ⟨k,c',ppa,hc',hpc',hm,hw,hlate⟩ := hf.entry c hc hpc lba hlba
      exact ⟨k,c',ppa,h.call_returned hc' hpc',hpc',hm,htbl.trans hw,hlate⟩
    rcases h.table hs hi with ⟨htbl,hsame⟩ | ⟨k,d,adv,rfl,hd,hdpc,hnames,hcalls,htbl⟩
    · exact keep (hsame i c hc hpc) (congrFun htbl lba)
    · have hkeys : (d.allotments.map fun w => (w.1,inCacheWord w.2)).map Prod.fst =
          List.range' d.slba d.nrPpas := by
        rw [List.map_map]
        exact hnames.keys
      by_cases hm : lba ∈ List.range' d.slba d.nrPpas
      · -- the step enters a page of call `k`, which cannot have returned before
        have hw := overwrite_mem (t := s.ftl.map.l2ptbl) (hkeys ▸ hm)
        rw [← htbl] at hw
        obtain ⟨⟨x,ppa⟩,hppa,heq⟩ := List.mem_map.mp hw
        obtain ⟨rfl,hword⟩ := Prod.mk.inj heq
        refine ⟨k,{ d with pc := .returned .complete },ppa,?_,rfl,hppa,hword.symm,?_⟩
        · rw [hcalls]
          exact getElem?_set_of_some hd _
        intro d' ret hd' hret
        obtain rfl : d' = d := Option.some.inj ((hf.old k d' ret hd' hret).symm.trans hd)
        rw [hdpc] at hret
        cases hret
      · have hk : k ≠ i := by
          rintro rfl
          obtain rfl : d = c₀ := Option.some.inj (hd.symm.trans hc₀)
          exact hm (by rw [BioCall.slba,BioCall.nrPpas,hbio₀]; exact hlba)
        rw [hcalls,List.getElem?_set_ne hk] at hc
        exact keep hc (by rw [htbl]; exact overwrite_of_notMem (hkeys ▸ hm))

/-- In a run whose allocations take no slot of a call that has yet to map its pages: after a call has
completed, each of its LBAs is mapped to a PPA that was allotted for this LBA to the call itself or to
one that had not returned when it began; and its steps change no other entry. -/
theorem mapping_not_lost {mcp : Bool} {d : Discovery} {b : BootPages} {dma : Nat → EntityDma}
    {f₀ : Ftl α} {s₁ s₂ s₃ : WritePath α} {bio : Bio α} {c : BioCall α}
    (hinit : fscftlModuleInit mcp d b dma = .ok (some f₀))
    (hrun₁ : Reaches WritePath.step slotsFree (WritePath.init f₀) s₁) (hbio : bio.Writable)
    (hbegin : s₁.step (.begin bio) = some s₂) (hrun₂ : Reaches WritePath.step slotsFree s₂ s₃)
    (hc : s₃.calls[s₁.calls.length]? = some c) :
    (c.pc = .returned .complete → ∀ lba ∈ List.range' (getBioSlba bio) (getBioNppa bio),
      ∃ (k : Nat) (c' : BioCall α) (ppa : Nat), s₃.calls[k]? = some c' ∧ (lba,ppa) ∈ c'.allotments ∧
        s₃.ftl.map.l2ptbl lba = inCacheWord ppa ∧
        ∀ (d : BioCall α) (ret : BioRet), s₁.calls[k]? = some d → d.pc ≠ .returned ret) ∧
    ∀ l s₄, s₃.step l = some s₄ → l.caller = some s₁.calls.length →
      ∀ lba, lba ∉ List.range' (getBioSlba bio) (getBioNppa bio) →
        s₄.ftl.map.l2ptbl lba = s₃.ftl.map.l2ptbl lba := by
  obtain ⟨free,hboot,-,-⟩ := fscftlModuleInit_booted hinit
  have hkeep (t u : WritePath α) (l : Label α) (ht : t.Sane ∧ Intact t) (hok : slotsFree t l)
      (hl : t.step l = some u) : u.Sane ∧ Intact u :=
    ⟨((step_effect hl).sane ht.1).1,(step_effect hl).intact ht.1 ht.2 hok⟩
  have h₁ : s₁.Sane ∧ Intact s₁ := hrun₁.invariant (fun t => t.Sane ∧ Intact t)
    ⟨sane_init hboot,intact_init f₀⟩ fun t l u ht hok hl => hkeep t u l ht hok hl
  have h₂ := hkeep s₁ s₂ (.begin bio) h₁ hbio hbegin
  have hfresh : Fresh s₁ s₁.calls.length bio s₂ := by
    obtain rfl := Option.some.inj hbegin
    refine ⟨⟨⟨bio,.start,[],[]⟩,by simp,rfl⟩,fun k d ret hd _ => ?_,fun c hc hpc => ?_⟩
    · exact (List.getElem?_append_left (List.getElem?_eq_some_iff.mp hd).1).trans hd
    · obtain rfl : ⟨bio,.start,[],[]⟩ = c := by simpa using hc
      cases hpc
  obtain ⟨hs₃,hi₃,hf₃⟩ := hrun₂.invariant (fun t => t.Sane ∧ Intact t ∧ Fresh s₁ s₁.calls.length bio t)
    ⟨h₂.1,h₂.2,hfresh⟩ fun t l u ht hok hl => by
      obtain ⟨hu,hiu⟩ := hkeep t u l ⟨ht.1,ht.2.1⟩ hok hl
      exact ⟨hu,hiu,(step_effect hl).fresh ht.1 ht.2.1 ht.2.2⟩
  constructor
  · intro hpc lba hlba
    obtain ⟨k,c',ppa,hc',-,hrest⟩ := hf₃.entry c hc hpc lba hlba
    exact ⟨k,c',ppa,hc',hrest⟩
  · intro l s₄ hstep hcaller lba hlba
    rcases (step_effect hstep).table hs₃ hi₃ with ⟨htbl,-⟩ | ⟨k,d',adv,rfl,hd',-,hnames,-,htbl⟩
    · exact congrFun htbl lba
    · obtain rfl : k = s₁.calls.length := Option.some.inj hcaller
      obtain ⟨c₀,hc₀,hbio₀⟩ := hf₃.call
      obtain rfl : d' = c₀ := Option.some.inj (hd'.symm.trans hc₀)
      rw [htbl]
      refine overwrite_of_notMem fun hm => hlba ?_
      rw [List.map_map,show Prod.fst ∘ (fun w : Nat × Nat => (w.1,inCacheWord w.2)) = Prod.fst from rfl,
        hnames.keys,BioCall.slba,BioCall.nrPpas,hbio₀] at hm
      exact hm

/-- One page is written to LBA 64 of a new drive. -/
theorem mapping_not_lost_one_page : ∃ (f₀ : Ftl Nat) (s₃ : WritePath Nat) (c : BioCall Nat),
    fscftlModuleInit true .clean ⟨true,true⟩ (fun _ => ⟨0,0,0⟩) = .ok (some f₀) ∧
    Reaches WritePath.step slotsFree (WritePath.init f₀) s₃ ∧ s₃.calls = [c] ∧
    c.pc = .returned .complete ∧ ∃ ppa, (64,ppa) ∈ c.allotments ∧
      s₃.ftl.map.l2ptbl 64 = inCacheWord ppa := by
  obtain ⟨f₀,free,hinit,hboot,hscan⟩ := manufactory_booted (α := Nat) .clean ⟨true,true⟩
    (fun _ => ⟨0,0,0⟩)
  obtain ⟨hb,hslba,hn⟩ := fillerBio_writable 7 (Nat.le_refl 1) (by decide)
  obtain ⟨s₁,s₂,s₃,c,e',q',hstep₁,hcop,hstep₃,hcalls,hbio,hpc,-⟩ := (stand_init hboot hscan).serve_steps
    hb (Nat.le_of_eq hslba.symm) (by rw [hn]; decide) (by rw [hn]; decide) (by rw [hn]; decide)
  have hrun₂ : Reaches WritePath.step slotsFree { WritePath.init f₀ with
      calls := [⟨fillerBio 7 1 (by decide),.start,[],[]⟩] } s₃ := by
    have halloc : slotsFree { WritePath.init f₀ with
        calls := [⟨fillerBio 7 1 (by decide),.start,[],[]⟩] } (.wcbSection 0) := by
      intro d _ d' hd' todo adv hpc'
      obtain rfl := List.mem_singleton.mp hd'
      cases hpc'
    exact Reaches.tail ((Reaches.single halloc hstep₁).trans (hcop.mono (of_copies fun _ _ => trivial)))
      (l := .l2pSection 0) trivial hstep₃
  have hc : s₃.calls[(WritePath.init f₀).calls.length]? = some c := by
    rw [hcalls]
    rfl
  have hmapped := (mapping_not_lost hinit (Reaches.refl _) hb rfl hrun₂ hc).1 hpc 64
    (by rw [hslba,hn]; decide)
  obtain ⟨k,c',ppa,hc',hppa,hword,-⟩ := hmapped
  rw [hcalls] at hc'
  obtain rfl := List.mem_singleton.mp (List.mem_of_getElem? hc')
  exact ⟨f₀,s₃,c',hinit,(Reaches.single (l := .begin _) hb rfl).trans hrun₂,hcalls,hpc,ppa,hppa,hword⟩

private theorem inCacheWord_ne_invalid {ppa : Nat} (h : ppa < cfgNandBlockNum * blockPages) :
    inCacheWord ppa ≠ invalidPage := by
  intro heq
  have hblk := congrArg Nand.blk.get heq
  rw [inCacheWord,blk_inCache,blk_invalidPage,nand_blk_eq,BitVec.toNat_ofNat] at hblk
  simp only [cfgNandBlockNum_eq,blockPages_eq] at h
  omega

/-- Call 0 has copied its only page into slot 0 of entity 0 and is delayed before its section under
`l2ptbl_lock`. Meanwhile entity 0 is filled, programmed and emptied, the other entities are used up,
and slot 0 of entity 0 is allotted to a write of LBA 1. Call 0 then maps LBA 1 and completes, and its
own LBA 0 is not mapped. -/
theorem mapping_lost : ∃ (f₀ : Ftl Nat) (s s' : WritePath Nat) (c : BioCall Nat),
    fscftlModuleInit true .clean ⟨true,true⟩ (fun _ => ⟨0,0,0⟩) = .ok (some f₀) ∧
    Reaches WritePath.step writableBios (WritePath.init f₀) s ∧ s.step (.l2pSection 0) = some s' ∧
    s'.calls[0]? = some c ∧ c.pc = .returned .complete ∧ getBioSlba c.bio = 0 ∧
    getBioNppa c.bio = 1 ∧ s'.ftl.map.l2ptbl 0 = invalidPage ∧
    s'.ftl.map.l2ptbl 1 ≠ s.ftl.map.l2ptbl 1 := by
  obtain ⟨f₀,free,hinit,hboot,hscan⟩ := manufactory_booted (α := Nat) .clean ⟨true,true⟩
    (fun _ => ⟨0,0,0⟩)
  -- call 0 writes LBA 0 and is stopped after its copy
  obtain ⟨s₁,c,hrun₁,hcalls₁,hbio,hslots,hpc,-,-,hkept₁,h₁⟩ := (stand_init hboot hscan).park 7
    (by decide : 0 < 64) (by decide) (by decide)
  rw [Nat.zero_mod] at hslots hpc h₁
  have hc₁ : s₁.calls[0]? = some c := by rw [hcalls₁]; rfl
  have h₁' : Stand s₁ 0 (1 :: List.range' 2 14) [] ([(0,0)] ++ []) _ 1 := h₁
  obtain ⟨s₂,adv,new,hcop,hcalls₂,h₂,-,hnew⟩ := h₁'.flush hc₁ hpc
  have hc₂ : s₂.calls[0]? = some { c with pc := .flush [] adv } := by
    rw [hcalls₂]
    exact getElem?_set_of_some hc₁ _
  obtain rfl : new = [] := by
    refine List.eq_nil_iff_forall_not_mem.mpr fun x hx => ?_
    obtain ⟨hne,p,hp⟩ := h₁.closing ((hnew x).mp hx).1
    exact hne (congrArg Prod.fst (List.mem_singleton.mp hp))
  -- entity 0 is filled up, programmed and emptied, then all the others are filled
  obtain ⟨s₃,hran₃,h₃⟩ := h₂.more 0 (n := 63) (by decide) (by decide) (by decide) (by decide)
    (Or.inr (List.cons_ne_nil _ _))
  obtain ⟨s₄,hran₄,h₄⟩ := h₃.close 0 (n := 64) (by decide) (by decide) (by decide) (by decide)
  obtain ⟨s₅,hdr₅,-,h₅⟩ := Stand.drain h₄
  have hes : 1 :: (List.range' 2 14 ++ [0]) = List.range' 1 15 ++ 0 :: [] := rfl
  obtain ⟨s₆,hran₆,h₆,-⟩ := h₅.fillAll 0 hes (by decide) (by decide)
  have hc₆ : s₆.calls[0]? = some { c with pc := .flush [] adv } := by
    refine hran₆.call ?_
    rw [hdr₅.calls]
    exact hran₄.call (hran₃.call hc₂)
  -- slot 0 of entity 0 goes to a write of LBA 1
  obtain ⟨s₇,d,hrun₇,hcalls₇,-,-,-,hlba,hppa,hkept₇,h₇⟩ := h₆.park 8 (by decide : 1 < 64) (by decide)
    (by decide)
  have hc₇ : s₇.calls[0]? = some { c with pc := .flush [] adv } := by
    rw [hcalls₇,List.getElem?_append_left (List.getElem?_eq_some_iff.mp hc₆).1,hc₆]
  have hlow (x : Nat) (hx : x < 64) : s₇.ftl.map.l2ptbl x = invalidPage := by
    rw [hkept₇.low x hx,hran₆.kept.low x hx,hdr₅.map,hran₄.kept.low x hx,hran₃.kept.low x hx,hcop.map,
      hkept₁.low x hx]
    exact (congrFun (congrArg L2pTbl.l2ptbl hboot.map) x).trans memsetWord_invalidPage
  have hlt := h₇.frontier.pageAt_lt 2048
  obtain ⟨s₈,hstep,hcalls₈,-,htbl,-⟩ := h₇.map hc₇ rfl (by
    intro slot hm
    obtain rfl := List.mem_singleton.mp (hslots ▸ hm)
    exact ⟨hlba ▸ (by rw [maxUserLba_eq]; decide),hppa ▸ hlt⟩)
  have hwrites : l2pWrites s₇.ftl c.slots =
      [(1,inCacheWord (pageAt (firstBlock free :: free.tail) 2048))] := by
    rw [hslots]
    exact congrArg₂ (fun a b => [(a,inCacheWord b)]) hlba hppa
  rw [show BioCall.slots { c with pc := .flush [] adv } = c.slots from rfl,hwrites] at htbl
  have hrun : Reaches WritePath.step writableBios (WritePath.init f₀) s₇ := by
    have hcallers {t u : WritePath Nat} (h : Reaches WritePath.step byCallers t u) :
        Reaches WritePath.step writableBios t u := h.mono writable_of_callers
    exact (((((hcallers hrun₁).trans (hcop.run.mono (of_copies fun _ _ => trivial))).trans
      (hcallers hran₃.run)).trans (hcallers hran₄.run)).trans (hdr₅.run.mono writable_of_device)).trans
      ((hcallers hran₆.run).trans (hcallers hrun₇))
  have hc₈ : s₈.calls[0]? = some { c with pc := .returned .complete } := by
    rw [hcalls₈]
    exact getElem?_set_of_some hc₇ _
  refine ⟨f₀,s₇,s₈,_,hinit,hrun,hstep,hc₈,rfl,?_,?_,?_,?_⟩
  · rw [hbio]
    exact (pageBio_writable 7 (by decide)).2.1
  · rw [hbio]
    exact (pageBio_writable 7 (by decide : 0 < 64)).2.2
  · rw [htbl,overwrite_of_notMem (by simp)]
    exact hlow 0 (by decide)
  · rw [hlow 1 (by decide),htbl,overwrite_of_mem (by simp) List.mem_cons_self]
    exact inCacheWord_ne_invalid hlt

end Sdssd.Host
