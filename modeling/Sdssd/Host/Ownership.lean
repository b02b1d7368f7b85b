import Sdssd.Host.Conservation

/-!
# Who owns a slot

A slot is live from its allotment until the entity goes back to `empty_lun`. While it is live it
keeps its PPA and LBA, and from the copy on it holds the page of the bio it was allotted to.
-/

namespace Sdssd.Host

open Framework

variable {α : Type}

def Ftl.dataAt (f : Ftl α) (s : Slot) : Option α := (f.ent s.1).data s.2

def Live (f : Ftl α) (pl : Nat → Place) (slot : Slot) : Prop :=
  pl slot.1 ≠ .empty ∧ pl slot.1 ≠ .outside ∧ slot.2 < (f.ent slot.1).pos

/-- Stripes are aligned, a full entity has all its slots allotted, and slot `p` of a live stripe
carries the `p`-th page of the stripe. -/
structure Striped (f : Ftl α) (pl : Nat → Place) : Prop where
  full_pos : ∀ e, pl e = .full ∨ pl e = .flight → (f.ent e).pos = raidLunSecNum
  aligned : ∀ e, pl e ≠ .empty → pl e ≠ .outside → (f.ent e).baddr.toNat % raidLunSecNum = 0
  ppa : ∀ slot, Live f pl slot → f.ppaAt slot = (f.ent slot.1).baddr.toNat + slot.2

variable {f f' : Ftl α} {pend : List Slot} {infl : List (Nat × Nat)} {pl : Nat → Place}
  {eq fq : List Nat} {e₀ : Nat}

theorem nextPpa_toNat {e : Nat} (hal : (f.ent e).baddr.toNat % raidLunSecNum = 0)
    (hpos : (f.ent e).pos < raidLunSecNum) :
    (f.nextPpa e).toNat = (f.ent e).baddr.toNat + (f.ent e).pos := by
  have hlt := (f.ent e).baddr.isLt
  simp only [raidLunSecNum_eq] at hal hpos
  rw [Ftl.nextPpa,BitVec.toNat_add,BitVec.toNat_ofNat]
  omega

/-- The live slots after an allotment are those before it and the one allotted. -/
theorem Opened.live_iff {pl' : Nat → Place} {e' : Nat} (ho : Opened f f' pl pl' e₀ e')
    (hopen : pl e₀ = .open) (slot : Slot) :
    Live f' pl' slot ↔ slot = (e₀,(f.ent e₀).pos) ∨ Live f pl slot := by
  obtain ⟨e,p⟩ := slot
  rcases eq_or_ne e e₀ with rfl | he
  · have hold : pl' e ≠ .empty ∧ pl' e ≠ .outside := by
      rcases ho.old with h | h <;> simp [h]
    simp only [Live,ho.old_ent.2,hopen,hold,Prod.mk.injEq,true_and,ne_eq,not_false_eq_true,
      reduceCtorEq]
    omega
  · have hne : (e,p) ≠ (e₀,(f.ent e₀).pos) := fun h => he (Prod.mk.inj h).1
    rcases ho.other e he with ⟨hpl,hent⟩ | ⟨-,hempty,-,hpos,-⟩
    · simp only [Live,hpl,hent,hne,false_or]
    · simp [Live,hpos,hempty,hne]

theorem Allot.striped {e' lba : Nat} {q' : List Nat} (hc : Conserved f pend infl pl eq fq e₀)
    (hs : Striped f pl) (h : Allot f e₀ eq lba f' e' q') :
    ∃ pl', Conserved f' ((e₀,(f.ent e₀).pos) :: pend) infl pl' q' fq e' ∧ Striped f' pl' ∧
      ∀ slot, Live f' pl' slot ↔ slot = (e₀,(f.ent e₀).pos) ∨ Live f pl slot := by
  have hopen : pl e₀ = .open := (hc.open_iff e₀).mpr rfl
  have hal := hs.aligned e₀ (by simp [hopen]) (by simp [hopen])
  have hnew : ¬ Live f pl (e₀,(f.ent e₀).pos) := fun hl => Nat.lt_irrefl _ hl.2.2
  obtain ⟨pl',hc',ho⟩ := hc.allot h
  have hiff := ho.live_iff hopen
  refine ⟨pl',hc',⟨?_,?_,?_⟩,hiff⟩
  · intro e he
    have hne : e ≠ e₀ := by
      rintro rfl
      rcases ho.old with h | h <;> simp [h] at he
    rcases ho.other e hne with ⟨hpl,hent⟩ | ⟨-,-,hpl,-,-⟩
    · rw [hent]
      exact hs.full_pos e (hpl ▸ he)
    · simp [hpl] at he
  · intro e h1 h2
    rcases eq_or_ne e e₀ with rfl | hne
    · rw [ho.old_ent.1]
      exact hal
    · rcases ho.other e hne with ⟨hpl,hent⟩ | ⟨-,-,-,-,hal'⟩
      · rw [hent]
        exact hs.aligned e (hpl ▸ h1) (hpl ▸ h2)
      · exact hal'
  · intro slot hl
    rcases (hiff slot).mp hl with rfl | hl'
    · rw [ho.old_ent.1,h.at_slot.2]
      exact nextPpa_toNat hal hc.open_ok.1
    · rw [(h.off_slot (fun heq => hnew (heq ▸ hl'))).2,hs.ppa slot hl']
      rcases eq_or_ne slot.1 e₀ with he | hne
      · rw [he,ho.old_ent.1]
      · rcases ho.other slot.1 hne with ⟨-,hent⟩ | ⟨-,hempty,-⟩
        · rw [hent]
        · exact absurd hempty hl'.1

theorem Conserved.allotPages_live {n lba : Nat} {ss : List Slot}
    (hc : Conserved f pend infl pl eq fq e₀) (hs : Striped f pl)
    (ha : Host.allotPages n f lba = .ok (ss,f')) :
    ∃ pl' eq' e', Conserved f' (pend ++ ss) infl pl' eq' fq e' ∧ Striped f' pl' ∧
      (∀ slot, Live f' pl' slot ↔ slot ∈ ss ∨ Live f pl slot) ∧ ∀ slot ∈ ss, ¬ Live f pl slot := by
  let P (ss : List Slot) (g : Ftl α) (x : Nat) (qs : List Nat) : Prop :=
    ∃ pl', Conserved g (pend ++ ss) infl pl' qs fq x ∧ Striped g pl' ∧
      (∀ slot, Live g pl' slot ↔ slot ∈ ss ∨ Live f pl slot) ∧ ∀ slot ∈ ss, ¬ Live f pl slot
  have h0 : P [] f e₀ eq := ⟨pl,by simpa using hc,hs,by simp,by simp⟩
  suffices hstep : ∀ ss g x qs g' x' qs', ss.length < n → Ready g x qs → P ss g x qs →
      Allot g x qs (lba + ss.length) g' x' qs' → P (ss ++ [(x,(g.ent x).pos)]) g' x' qs' by
    obtain ⟨-,e',q',-,pl',h⟩ := allotPages_induct P hc.ready h0 hstep ha
    exact ⟨pl',q',e',h⟩
  rintro ss g x qs g' x' qs' - - ⟨pl',hg,hgs,hiff,hdisj⟩ hall
  obtain ⟨pl'',hg',hgs',hiff'⟩ := hall.striped hg hgs
  have hnew : ¬ Live g pl' (x,(g.ent x).pos) := fun hl => Nat.lt_irrefl _ hl.2.2
  have hperm : ((x,(g.ent x).pos) :: (pend ++ ss)).Perm (pend ++ (ss ++ [(x,(g.ent x).pos)])) := by
    rw [← List.append_assoc]
    exact (List.perm_append_singleton _ _).symm
  refine ⟨pl'',hg'.perm hperm (List.Perm.refl _),hgs',fun slot => ?_,fun slot hm => ?_⟩
  · rw [hiff' slot,hiff slot,List.mem_append,List.mem_singleton]
    tauto
  · rcases List.mem_append.mp hm with hm | hm
    · exact hdisj slot hm
    · rw [List.mem_singleton] at hm
      subst hm
      exact fun hl => hnew ((hiff _).mpr (Or.inr hl))

theorem Allot.data {e' lba : Nat} {q' : List Nat} (h : Allot f e₀ eq lba f' e' q') (e : Nat) :
    (f'.ent e).data = (f.ent e).data := by
  have hw : ((f.writeSlot e₀ lba (f.nextPpa e₀)).ent e).data = (f.ent e).data := by
    rcases eq_or_ne e e₀ with rfl | he
    · rw [ent_writeSlot_self]
    · rw [ent_writeSlot_of_ne f lba _ he]
  cases h with
  | room hpos => exact hw
  | last hpos hcons hbaddr hqueue hlink =>
    rcases eq_or_ne e e' with rfl | he
    · rw [ent_openEnt_self]
      exact hw
    · rw [ent_openEnt_of_ne _ _ _ _ _ _ he]
      exact hw

theorem allotPages_data {e n lba : Nat} {q : List Nat} {ss : List Slot} (hr : Ready f e q)
    (ha : allotPages n f lba = .ok (ss,f')) (x : Nat) : (f'.ent x).data = (f.ent x).data := by
  obtain ⟨-,-,-,-,h⟩ := allotPages_induct (fun _ g _ _ => ∀ x, (g.ent x).data = (f.ent x).data) hr
    (fun _ => rfl) (fun _ _ _ _ _ _ _ _ _ hP hall x => (hall.data x).trans (hP x)) ha
  exact h x

theorem allotPages_map {e n lba : Nat} {q : List Nat} {ss : List Slot} (hr : Ready f e q)
    (ha : allotPages n f lba = .ok (ss,f')) : f'.map = f.map := by
  obtain ⟨-,-,-,-,h⟩ := allotPages_induct (fun _ g _ _ => g.map = f.map) hr rfl
    (fun _ _ _ _ _ _ _ _ _ hP hall => Eq.trans (by cases hall <;> rfl) hP) ha
  exact h

theorem Live.frame (hf : Frame f f') (slot : Slot) : Live f' pl slot ↔ Live f pl slot := by
  rw [Live,Live,hf.pos]

theorem Striped.frame (h : Striped f pl) (hf : Frame f f') : Striped f' pl := by
  refine ⟨fun e he => ?_,fun e h1 h2 => ?_,fun slot hl => ?_⟩
  · rw [hf.pos]
    exact h.full_pos e he
  · rw [hf.baddr]
    exact h.aligned e h1 h2
  · rw [hf.ppaAt,hf.baddr]
    exact h.ppa slot ((Live.frame hf slot).mp hl)

/-- An entity that holds pages moves on. -/
theorem Striped.move {e : Nat} {k : Place} (h : Striped f pl) (hold : pl e ≠ .empty ∧ pl e ≠ .outside)
    (hpos : k = .full ∨ k = .flight → (f.ent e).pos = raidLunSecNum) :
    Striped f (Function.update pl e k) ∧
      ∀ slot, Live f (Function.update pl e k) slot → Live f pl slot := by
  have hlive (slot : Slot) (hl : Live f (Function.update pl e k) slot) : Live f pl slot := by
    obtain ⟨h1,h2,hlt⟩ := hl
    rcases eq_or_ne slot.1 e with he | he
    · exact ⟨he ▸ hold.1,he ▸ hold.2,hlt⟩
    · rw [Function.update_of_ne he] at h1 h2
      exact ⟨h1,h2,hlt⟩
  refine ⟨⟨fun x hx => ?_,fun x h1 h2 => ?_,fun slot hl => h.ppa slot (hlive slot hl)⟩,hlive⟩
  · rcases eq_or_ne x e with rfl | he
    · rw [Function.update_self] at hx
      exact hpos hx
    · rw [Function.update_of_ne he] at hx
      exact h.full_pos x hx
  · rcases eq_or_ne x e with rfl | he
    · exact h.aligned x hold.1 hold.2
    · rw [Function.update_of_ne he] at h1 h2
      exact h.aligned x h1 h2

/-- A step other than an allocation keeps the stripes and makes no slot live. -/
theorem Shift.striped {s s' : WritePath α} {l : Label α} (h : Shift s s' l) (hs : s.Sane)
    (hst : Striped s.ftl s.place) (hf : Frame s.ftl s'.ftl)
    (hcall : ∀ i, l = .wcbSection i → ∃ c, s'.calls[i]? = some c ∧ ∀ todo, c.pc ≠ .flush todo 0) :
    Striped s'.ftl s'.place ∧ ∀ slot, Live s'.ftl s'.place slot → Live s.ftl s.place slot := by
  have hmove {e : Nat} {k : Place} (hplace : s'.place = Function.update s.place e k)
      (hold : s.place e ≠ .empty ∧ s.place e ≠ .outside)
      (hpos : k = .full ∨ k = .flight → (s.ftl.ent e).pos = raidLunSecNum) :
      Striped s'.ftl s'.place ∧ ∀ slot, Live s'.ftl s'.place slot → Live s.ftl s.place slot := by
    obtain ⟨h1,h2⟩ := hst.move hold hpos
    rw [hplace]
    exact ⟨h1.frame hf,fun slot hl => h2 slot ((Live.frame hf slot).mp hl)⟩
  cases h with
  | same l _ hplace =>
    rw [hplace]
    exact ⟨hst.frame hf,fun slot => (Live.frame hf slot).mp⟩
  | alloc i hpc =>
    obtain ⟨c,hc,hne⟩ := hcall i rfl
    obtain ⟨todo,htodo⟩ := hpc c hc
    exact absurd htodo (hne todo)
  | filled i e hcl hplace =>
    have hok := hs.ents e
    rw [hcl] at hok
    exact hmove hplace (by simp [hcl]) fun _ => hok.1
  | submitted e hfulls hplace =>
    have hfull : s.place e = .full := (hs.full_iff e).mp (by simp [hfulls])
    exact hmove hplace (by simp [hfull]) fun _ => hst.full_pos e (Or.inl hfull)
  | emptied e line hfl hplace => exact hmove hplace (by simp [hfl]) (by simp)

/-- What the block layer sends: 1 to 64 whole pages inside the capacity. -/
def Bio.Writable (bio : Bio α) : Prop := 1 ≤ getBioNppa bio ∧ getBioNppa bio ≤ 64 ∧ bio.InCapacity

/-- The guard of runs in which every bio is one that the block layer sends. -/
def writableBios (_ : WritePath α) : Label α → Prop
  | .begin bio => bio.Writable
  | _ => True

/-- What an allocation for call `c` leaves in the entities. -/
structure Served (s : WritePath α) (c : BioCall α) (r : AllocResult α) : Prop where
  slots : ctxSlots r.ctxs = nextSlots (s.part :: s.empties) (s.ftl.ent s.part).pos c.nrPpas
  nodup : (ctxSlots r.ctxs).Nodup
  length : (ctxSlots r.ctxs).length = c.nrPpas
  lbas : (ctxSlots r.ctxs).map r.ftl.lbaAt = List.range' c.slba c.nrPpas
  off : ∀ slot, slot ∉ ctxSlots r.ctxs → r.ftl.lbaAt slot = s.ftl.lbaAt slot ∧
    r.ftl.ppaAt slot = s.ftl.ppaAt slot
  data : ∀ e, (r.ftl.ent e).data = (s.ftl.ent e).data
  map : r.ftl.map = s.ftl.map

theorem served {s : WritePath α} {c : BioCall α} {r : AllocResult α} (hs : s.Sane)
    (hb : c.bio.Writable) (hr : allocWcbCore s.ftl c.slba c.nrPpas = .ok r) : Served s c r := by
  obtain ⟨h1,h64,hcap⟩ := hb
  obtain ⟨-,-,hall⟩ := allocWcbCore_sound hr
  have hcount : allotCount c.nrPpas = c.nrPpas :=
    allotCount_of_lt h1 (Nat.lt_of_le_of_lt h64 (by decide))
  rw [hcount] at hall
  obtain ⟨hnodup,hlen,hlba,hoff⟩ := allotPages_written hs.ready hall
  refine ⟨(allotPages_slots hs.ready hall).1,hnodup,hlen,?_,hoff,allotPages_data hs.ready hall,
    allotPages_map hs.ready hall⟩
  rw [hlba,List.range'_eq_map_range]
  refine List.map_congr_left fun j hj => Nat.mod_eq_of_lt ?_
  have hlt : j < getBioNppa c.bio := List.mem_range.mp hj
  rw [Bio.InCapacity,maxUserLba_eq] at hcap
  rw [BioCall.slba]
  omega

theorem Served.lba {s : WritePath α} {c : BioCall α} {r : AllocResult α} (h : Served s c r) {j : Nat}
    {slot : Slot} (hj : (ctxSlots r.ctxs)[j]? = some slot) : r.ftl.lbaAt slot = c.slba + j := by
  have hlt : j < c.nrPpas := h.length ▸ (List.getElem?_eq_some_iff.mp hj).1
  have hmap := congrArg (·[j]?) h.lbas
  simpa only [List.getElem?_map,hj,List.getElem?_range' hlt,Option.map_some,Option.some.injEq,
    Nat.one_mul] using hmap

theorem owner_allotted {s : WritePath α} {i j : Nat} {c : BioCall α} {r : AllocResult α} {slot : Slot}
    (hnodup : (ctxSlots r.ctxs).Nodup) (hj : (ctxSlots r.ctxs)[j]? = some slot) :
    (s.allotted i c r).owner slot = some (i,j) := by
  have hidx : (ctxSlots r.ctxs).idxOf? slot = some j := by
    obtain ⟨hlt,rfl⟩ := List.getElem?_eq_some_iff.mp hj
    refine List.idxOf?_eq_some_iff.mpr ⟨hlt,rfl,fun k hk heq => ?_⟩
    exact Nat.ne_of_lt hk ((hnodup.getElem_inj_iff).mp heq)
  simp only [WritePath.allotted,hidx]

theorem owner_allotted_of_notMem {s : WritePath α} {i : Nat} {c : BioCall α} {r : AllocResult α}
    {slot : Slot} (hm : slot ∉ ctxSlots r.ctxs) : (s.allotted i c r).owner slot = s.owner slot := by
  simp only [WritePath.allotted,List.idxOf?_eq_none_iff.mpr hm]

/-- Every live slot belongs to a page of a bio, carries its LBA and, once copied, its contents; a
call in its copy loop owns the slots it still has to fill, in the order of its pages. -/
structure Owned (s : WritePath α) : Prop where
  striped : Striped s.ftl s.place
  bio : ∀ c ∈ s.calls, c.bio.Writable ∧ (c.pc = .start → c.wcbResource = [])
  slot : ∀ slot, Live s.ftl s.place slot → ∃ i j c, s.owner slot = some (i,j) ∧
    s.calls[i]? = some c ∧ c.slots[j]? = some slot ∧ j < c.nrPpas ∧
    s.ftl.lbaAt slot = c.slba + j ∧ (slot ∉ s.pending → s.ftl.dataAt slot = c.bio.pages[j]?)
  call : ∀ i c todo adv, s.calls[i]? = some c → c.pc = .flush todo adv →
    ∀ m slot, todo[m]? = some slot → s.owner slot = some (i,adv + m)

theorem owned_init {f : Ftl α} {free : List Nat} (h : Booted f free) : Owned (WritePath.init f) := by
  have hplace : (WritePath.init f).place = initPlace := (conserved_init h).eq_place.1
  have hzero (e : Nat) (h1 : initPlace e ≠ .empty) (h2 : initPlace e ≠ .outside) : e = 0 := by
    unfold initPlace at h1 h2
    by_contra he
    split_ifs at h1 h2 <;> simp_all
  have hdead (slot : Slot) : ¬ Live (WritePath.init f).ftl (WritePath.init f).place slot := by
    rintro ⟨-,-,hlt⟩
    rw [show (WritePath.init f).ftl = f from rfl,(h.zero _).1] at hlt
    exact Nat.not_lt_zero _ hlt
  refine ⟨⟨?_,?_,fun slot hl => absurd hl (hdead slot)⟩,by simp [WritePath.init],
    fun slot hl => absurd hl (hdead slot),by simp [WritePath.init]⟩
  · intro e he
    rw [hplace,initPlace] at he
    split_ifs at he <;> simp at he
  · intro e h1 h2
    rw [hplace] at h1 h2
    rw [hzero e h1 h2,show (WritePath.init f).ftl = f from rfl,h.baddr,blockPages_eq,raidLunSecNum_eq]
    omega

/-- The data part of one copy. -/
theorem copyPage_of_user {x : WcbLunEntity α} {bio : Bio α} {adv pos : Nat}
    (h : x.lba pos ≤ maxUserLba) : copyPage x bio adv pos =
      ({ x with data := Function.update x.data pos bio.pages[adv]? },adv + 1) :=
  if_pos h

theorem Owned.lba_le {s : WritePath α} (h : Owned s) {i j : Nat} {c : BioCall α} {slot : Slot}
    (hc : s.calls[i]? = some c) (hj : j < c.nrPpas) (hlba : s.ftl.lbaAt slot = c.slba + j) :
    s.ftl.lbaAt slot ≤ maxUserLba := by
  have hcap := (h.bio c (List.mem_of_getElem? hc)).1.2.2
  unfold Bio.InCapacity at hcap
  unfold BioCall.nrPpas at hj
  unfold BioCall.slba at hlba
  omega

/-- Steps that keep owners, bios, resources and LBAs keep the invariant when they explain the data
of the slots that are live and copied afterwards. -/
private theorem Owned.transport {s s' : WritePath α} (h : Owned s) (hframe : Frame s.ftl s'.ftl)
    (howner : s'.owner = s.owner)
    (hstriped : Striped s'.ftl s'.place ∧ ∀ slot, Live s'.ftl s'.place slot → Live s.ftl s.place slot)
    (hcalls : ∀ (i : Nat) (c : BioCall α), s.calls[i]? = some c → ∃ c', s'.calls[i]? = some c' ∧
      c'.bio = c.bio ∧ c'.wcbResource = c.wcbResource)
    (hbio : ∀ c ∈ s'.calls, c.bio.Writable ∧ (c.pc = .start → c.wcbResource = []))
    (hdata : ∀ slot i j c, Live s.ftl s.place slot → slot ∉ s'.pending → s.owner slot = some (i,j) →
      s.calls[i]? = some c → (slot ∉ s.pending → s.ftl.dataAt slot = c.bio.pages[j]?) →
      s'.ftl.dataAt slot = c.bio.pages[j]?)
    (hcall : ∀ i c todo adv, s'.calls[i]? = some c → c.pc = .flush todo adv →
      ∀ m slot, todo[m]? = some slot → s.owner slot = some (i,adv + m)) : Owned s' := by
  refine ⟨hstriped.1,hbio,?_,howner ▸ hcall⟩
  intro slot hl
  have hl' := hstriped.2 slot hl
  obtain ⟨i,j,c,hown,hc,hslot,hj,hlba,hdat⟩ := h.slot slot hl'
  obtain ⟨c',hc',hbio',hres⟩ := hcalls i c hc
  refine ⟨i,j,c',howner ▸ hown,hc',?_,?_,?_,?_⟩
  · rw [BioCall.slots,hres]
    exact hslot
  · rw [BioCall.nrPpas,hbio']
    exact hj
  · rw [hframe.lbaAt,BioCall.slba,hbio']
    exact hlba
  · intro hp
    rw [hbio']
    exact hdata slot i j c hl' hp hown hc hdat

/-- Steps that copy nothing and allot nothing. -/
private theorem Owned.quiet {s s' : WritePath α} (h : Owned s) (hframe : Frame s.ftl s'.ftl)
    (howner : s'.owner = s.owner)
    (hstriped : Striped s'.ftl s'.place ∧ ∀ slot, Live s'.ftl s'.place slot → Live s.ftl s.place slot)
    (hcalls : ∀ (i : Nat) (c : BioCall α), s.calls[i]? = some c → ∃ c', s'.calls[i]? = some c' ∧
      c'.bio = c.bio ∧ c'.wcbResource = c.wcbResource)
    (hnew : ∀ (i : Nat) (c : BioCall α), s'.calls[i]? = some c → s.calls[i]? = some c ∨
      c.pending = [] ∧ c.bio.Writable ∧ (c.pc = .start → c.wcbResource = []))
    (hpend : ∀ slot, slot ∈ s.pending → slot ∈ s'.pending)
    (hdata : ∀ e, (s'.ftl.ent e).data = (s.ftl.ent e).data) : Owned s' := by
  refine h.transport hframe howner hstriped hcalls ?_ ?_ ?_
  · intro c hc
    obtain ⟨i,hi⟩ := List.mem_iff_getElem?.mp hc
    rcases hnew i c hi with hold | ⟨-,hbio⟩
    · exact h.bio c (List.mem_of_getElem? hold)
    · exact hbio
  · intro slot i j c _ hp _ _ hdat
    rw [Ftl.dataAt,hdata]
    exact hdat fun hm => hp (hpend slot hm)
  · intro i c todo adv hc hpc m slot hm
    rcases hnew i c hc with hold | ⟨hnil,-⟩
    · exact h.call i c todo adv hold hpc m slot hm
    · rw [BioCall.pending,hpc] at hnil
      obtain rfl : todo = [] := hnil
      simp at hm

/-- Replacing one call keeps all bios and resources if the call's own are kept. -/
private theorem kept_of_set {s s' : WritePath α} {i : Nat} {c c' : BioCall α}
    (hc : s.calls[i]? = some c) (hcalls : s'.calls = s.calls.set i c') (hbio : c'.bio = c.bio)
    (hres : c'.wcbResource = c.wcbResource) (k : Nat) (d : BioCall α) (hd : s.calls[k]? = some d) :
    ∃ d', s'.calls[k]? = some d' ∧ d'.bio = d.bio ∧ d'.wcbResource = d.wcbResource := by
  rw [hcalls]
  rcases eq_or_ne k i with rfl | hk
  · obtain rfl : d = c := Option.some.inj (hd.symm.trans hc)
    exact ⟨c',getElem?_set_of_some hc c',hbio,hres⟩
  · exact ⟨d,by rw [List.getElem?_set_ne (Ne.symm hk),hd],rfl,rfl⟩

/-- A call that leaves with nothing to copy. -/
private theorem Owned.leave {s s' : WritePath α} {i : Nat} {c : BioCall α} (h : Owned s)
    (hc : s.calls[i]? = some c) (hpend : c.pending = []) (ret : BioRet)
    (hcalls : s'.calls = s.calls.set i { c with pc := .returned ret }) (hframe : Frame s.ftl s'.ftl)
    (howner : s'.owner = s.owner)
    (hstriped : Striped s'.ftl s'.place ∧ ∀ slot, Live s'.ftl s'.place slot → Live s.ftl s.place slot)
    (hdata : ∀ e, (s'.ftl.ent e).data = (s.ftl.ent e).data) : Owned s' := by
  obtain ⟨rest,hold,hnew⟩ := pending_set hc
  refine h.quiet hframe howner hstriped ?_ ?_ ?_ hdata
  · exact kept_of_set hc hcalls rfl rfl
  · intro k d hd
    rw [hcalls] at hd
    rcases getElem?_set_cases hd with ⟨rfl,rfl⟩ | ⟨-,hd⟩
    · exact Or.inr ⟨rfl,(h.bio c (List.mem_of_getElem? hc)).1,by simp⟩
    · exact Or.inl hd
  · intro slot hm
    rw [hpend] at hold
    rw [WritePath.pending,hcalls,(hnew _).mem_iff]
    exact hold.mem_iff.mp hm

/-- A slot that is still to be copied carries a user LBA. -/
theorem Owned.pending_lba {s : WritePath α} {slot : Slot} (h : Owned s) (hs : s.Sane)
    (hm : slot ∈ s.pending) : (s.ftl.ent slot.1).lba slot.2 ≤ maxUserLba := by
  obtain ⟨hplace,hfill,-⟩ := hs.filling_of_pending hm
  have hlive : Live s.ftl s.place slot := by
    refine ⟨?_,?_,hfill.lt _ (mem_heldBy.mpr hm)⟩ <;>
      rcases hplace with ⟨hp,-⟩ | ⟨hp,-⟩ <;> simp [hp]
  obtain ⟨i,j,c,-,hc,-,hj,hlba,-⟩ := h.slot slot hlive
  exact h.lba_le hc hj hlba

theorem flushSlot_dataAt {bio : Bio α} {adv : Nat} {slot : Slot}
    (h : (f.ent slot.1).lba slot.2 ≤ maxUserLba) (x : Slot) :
    (flushSlot f bio adv slot).1.dataAt x = if x = slot then bio.pages[adv]? else f.dataAt x := by
  obtain ⟨e,p⟩ := x
  rcases eq_or_ne e slot.1 with rfl | he
  · rw [Ftl.dataAt,flushSlot_ent_self,copyPage_of_user h]
    rcases eq_or_ne p slot.2 with rfl | hp
    · simp
    · rw [if_neg fun heq => hp (congrArg Prod.snd heq)]
      exact Function.update_of_ne hp _ _
  · rw [Ftl.dataAt,flushSlot_ent_of_ne _ _ _ _ he,if_neg fun heq => he (congrArg Prod.fst heq)]
    rfl

private theorem Owned.copy {s s' : WritePath α} {i adv : Nat} {c : BioCall α} {slot : Slot}
    {todo : List Slot} (h : Owned s) (hs : s.Sane) (hc : s.calls[i]? = some c)
    (hpc : c.pc = .flush (slot :: todo) adv) (hftl : s'.ftl = (flushSlot s.ftl c.bio adv slot).1)
    (hcalls : s'.calls = s.calls.set i { c with pc := .flush todo (flushSlot s.ftl c.bio adv slot).2 })
    (howner : s'.owner = s.owner)
    (hstriped : Striped s'.ftl s'.place ∧ ∀ slot, Live s'.ftl s'.place slot → Live s.ftl s.place slot) :
    Owned s' := by
  obtain ⟨rest,hold,hnew⟩ := pending_set hc
  rw [show c.pending = slot :: todo by simp [BioCall.pending,hpc]] at hold
  have hm : slot ∈ s.pending := hold.mem_iff.mpr List.mem_cons_self
  have huser := h.pending_lba hs hm
  have hadv : (flushSlot s.ftl c.bio adv slot).2 = adv + 1 := by
    rw [flushSlot_snd,copyPage_of_user huser]
  refine h.transport (hftl ▸ flushSlot_frame ..) howner hstriped ?_ ?_ ?_ ?_
  · exact kept_of_set hc hcalls rfl rfl
  · intro d hd
    rw [hcalls] at hd
    rcases List.mem_or_eq_of_mem_set hd with hd | rfl
    · exact h.bio d hd
    · exact ⟨(h.bio c (List.mem_of_getElem? hc)).1,by simp⟩
  · intro x k j d hlive hp hown hd hdat
    rw [hftl,flushSlot_dataAt huser]
    by_cases hx : x = slot
    · -- the slot just copied belongs to this call, at the page the bio stands at
      subst hx
      have hown' := h.call i c _ adv hc hpc 0 x rfl
      obtain ⟨rfl,rfl⟩ := Prod.mk.inj (Option.some.inj (hown.symm.trans hown'))
      obtain rfl : d = c := Option.some.inj (hd.symm.trans hc)
      rw [if_pos rfl]
    · rw [if_neg hx]
      refine hdat fun hx' => hp ?_
      rw [WritePath.pending,hcalls,(hnew _).mem_iff]
      exact (List.mem_cons.mp (hold.mem_iff.mp hx')).resolve_left hx
  · intro k d todo' adv' hd hpc' m x hm'
    rw [hcalls] at hd
    rcases getElem?_set_cases hd with ⟨rfl,rfl⟩ | ⟨-,hd⟩
    · obtain ⟨rfl,rfl⟩ := CallPc.flush.inj hpc'
      rw [hadv,Nat.add_assoc,Nat.add_comm 1 m]
      exact h.call k c _ adv hc hpc (m + 1) x hm'
    · exact h.call k d todo' adv' hd hpc' m x hm'

private theorem Owned.alloc {s : WritePath α} {i : Nat} {c : BioCall α} {r : AllocResult α}
    (h : Owned s) (hs : s.Sane) (hc : s.calls[i]? = some c) (hpc : c.pc = .start)
    (hr : allocWcbCore s.ftl c.slba c.nrPpas = .ok r) : Owned (s.allotted i c r) := by
  obtain ⟨hbio,hfresh⟩ := h.bio c (List.mem_of_getElem? hc)
  have hres := hfresh hpc
  have hserved := served hs hbio hr
  obtain ⟨-,-,hall⟩ := allocWcbCore_sound hr
  obtain ⟨pl',eq',e',hcons,hstriped,hlive,hdead⟩ := hs.allotPages_live h.striped hall
  have hpend : (s.allotted i c r).pending.Perm (ctxSlots r.ctxs ++ s.pending) :=
    (pending_allotted r hc hpc).symm.trans List.perm_append_comm
  have hplace : (s.allotted i c r).place = pl' :=
    (hcons.perm (List.perm_append_comm.trans hpend.symm) (List.Perm.refl _)).eq_place.1
  have hother (k : Nat) (d : BioCall α) (slot : Slot) (j : Nat) (hd : s.calls[k]? = some d)
      (hslot : d.slots[j]? = some slot) : (s.allotted i c r).calls[k]? = some d := by
    rcases eq_or_ne k i with rfl | hk
    · obtain rfl : d = c := Option.some.inj (hd.symm.trans hc)
      rw [BioCall.slots,hres] at hslot
      simp [ctxSlots] at hslot
    · exact (List.getElem?_set_ne (Ne.symm hk)).trans hd
  refine ⟨hplace ▸ hstriped,?_,?_,?_⟩
  · intro d hd
    rcases List.mem_or_eq_of_mem_set hd with hd | rfl
    · exact h.bio d hd
    · exact ⟨hbio,by simp⟩
  · intro slot hl
    rw [hplace] at hl
    by_cases hm : slot ∈ ctxSlots r.ctxs
    · obtain ⟨j,hj⟩ := List.mem_iff_getElem?.mp hm
      refine ⟨i,j,_,owner_allotted hserved.nodup hj,getElem?_set_of_some hc _,hj,?_,
        hserved.lba hj,fun hp => absurd (hpend.mem_iff.mpr (List.mem_append_left _ hm)) hp⟩
      exact Nat.lt_of_lt_of_eq (List.getElem?_eq_some_iff.mp hj).1 hserved.length
    · have hl' := ((hlive slot).mp hl).resolve_left hm
      obtain ⟨k,j,d,hown,hd,hslot,hj,hlba,hdat⟩ := h.slot slot hl'
      refine ⟨k,j,d,(owner_allotted_of_notMem hm).trans hown,hother k d slot j hd hslot,hslot,hj,
        (hserved.off slot hm).1.trans hlba,fun hp => ?_⟩
      rw [← hdat fun hp' => hp (hpend.mem_iff.mpr (List.mem_append_right _ hp'))]
      exact congrFun (hserved.data slot.1) slot.2
  · intro k d todo adv hd hpc' m slot hm
    rcases getElem?_set_cases hd with ⟨rfl,rfl⟩ | ⟨-,hd⟩
    · obtain ⟨rfl,rfl⟩ := CallPc.flush.inj hpc'
      rw [Nat.zero_add]
      exact owner_allotted hserved.nodup hm
    · have hslot : slot ∈ s.pending := by
        refine List.mem_flatMap.mpr ⟨d,List.mem_of_getElem? hd,?_⟩
        rw [BioCall.pending,hpc']
        exact List.mem_of_getElem? hm
      have hfill := hs.filling_of_pending hslot
      have hnm : slot ∉ ctxSlots r.ctxs := by
        refine fun hin => hdead slot hin ⟨?_,?_,hfill.2.1.lt _ (mem_heldBy.mpr hslot)⟩ <;>
          rcases hfill.1 with ⟨hp,-⟩ | ⟨hp,-⟩ <;> simp [hp]
      exact (owner_allotted_of_notMem hnm).trans (h.call k d todo adv hd hpc' m slot hm)

theorem Effect.owned {s s' : WritePath α} {l : Label α} (h : Effect s l s') (hs : s.Sane)
    (ho : Owned s) (hok : writableBios s l) : Owned s' := by
  have hstriped := (h.sane hs).2.striped hs ho.striped
  cases h with
  | begin bio =>
    refine ho.quiet (Frame.refl _) rfl (hstriped (Frame.refl _) (by simp)) ?_ ?_ ?_ fun _ => rfl
    · intro i c hc
      refine ⟨c,?_,rfl,rfl⟩
      rw [List.getElem?_append_left (List.getElem?_eq_some_iff.mp hc).1,hc]
    · intro i c hc
      by_cases hi : i < s.calls.length
      · rw [List.getElem?_append_left hi] at hc
        exact Or.inl hc
      · rw [List.getElem?_append_right (Nat.not_lt.mp hi)] at hc
        obtain rfl := List.mem_singleton.mp (List.mem_of_getElem? hc)
        exact Or.inr ⟨rfl,hok,fun _ => rfl⟩
    · intro slot hm
      rw [WritePath.pending,List.flatMap_append]
      exact List.mem_append_left _ hm
  | @resubmit i c hc hpc hav =>
    refine ho.leave hc (by simp [BioCall.pending,hpc]) .resubmit rfl (Frame.refl _) rfl
      (hstriped (Frame.refl _) ?_) fun _ => rfl
    rintro k ⟨rfl⟩
    exact ⟨_,getElem?_set_of_some hc _,by simp⟩
  | alloc hc hpc hav hr => exact ho.alloc hs hc hpc hr
  | copy hc hpc =>
    exact ho.copy hs hc hpc rfl rfl rfl (hstriped (flushSlot_frame ..) (by simp))
  | map hc hpc hf =>
    have hframe := setL2ptblWritePath_frame hf
    exact ho.leave hc (by simp [BioCall.pending,hpc]) .complete rfl hframe rfl
      (hstriped hframe (by simp)) fun e => by rw [setL2ptblWritePath_ent hf]
  | submit hp =>
    exact ho.quiet (submit_frame _ _ _ _) rfl (hstriped (submit_frame _ _ _ _) (by simp))
      (fun i c hc => ⟨c,hc,rfl,rfl⟩) (fun i c hc => Or.inl hc) (fun slot hm => hm)
      fun x => nvmeWrppaLun_data _ _ x
  | complete hm =>
    exact ho.quiet (wrppaLunCompletion_frame _ _ _) rfl (hstriped (wrppaLunCompletion_frame _ _ _) (by simp))
      (fun i c hc => ⟨c,hc,rfl,rfl⟩) (fun i c hc => Or.inl hc) (fun slot hm => hm)
      fun x => wrppaLunCompletion_data _ _ _ x

theorem owned_of_reaches {s s' : WritePath α} (hs : s.Sane) (ho : Owned s)
    (h : Reaches WritePath.step writableBios s s') : s'.Sane ∧ Owned s' :=
  h.invariant (fun s => s.Sane ∧ Owned s) ⟨hs,ho⟩ fun _ _ _ ⟨ht,hto⟩ hok hl =>
    ⟨((step_effect hl).sane ht).1,(step_effect hl).owned ht hto hok⟩

end Sdssd.Host
