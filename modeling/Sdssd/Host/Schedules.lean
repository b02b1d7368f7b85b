import Sdssd.Host.Ownership

/-!
# Schedules

Long runs of the write path, put together from whole bios: allot, copy and map the pages of one bio,
fill an entity, submit and complete the full ones. A `Stand` says where such a run stands.
-/

namespace Sdssd.Host

open Framework

variable {α : Type}

/-- Steps of `process_write_bio`. -/
def byCallers (_ : WritePath α) : Label α → Prop
  | .begin bio => bio.Writable
  | .wcbSection _ => True
  | .copySlot _ => True
  | .l2pSection _ => True
  | .submit => False
  | .complete _ _ => False

/-- Copies only. -/
def byCopies (_ : WritePath α) : Label α → Prop
  | .copySlot _ => True
  | _ => False

/-- Steps of the writer thread and of the completion interrupt. -/
def byDevice (_ : WritePath α) : Label α → Prop
  | .submit => True
  | .complete _ _ => True
  | _ => False

theorem writable_of_callers (s : WritePath α) (l : Label α) (h : byCallers s l) : writableBios s l := by
  cases l with
  | begin bio => exact h
  | _ => trivial

theorem of_copies {ok : WritePath α → Label α → Prop} (hok : ∀ s i, ok s (.copySlot i))
    (s : WritePath α) (l : Label α) (h : byCopies s l) : ok s l := by
  cases l with
  | copySlot i => exact hok s i
  | _ => exact absurd h id

theorem writable_of_device (s : WritePath α) (l : Label α) (h : byDevice s l) : writableBios s l := by
  cases l with
  | begin bio => exact absurd h id
  | _ => trivial

variable {s s' s'' : WritePath α}

/-- A run of copies. -/
structure Copied (s s' : WritePath α) : Prop where
  run : Reaches WritePath.step byCopies s s'
  sane : s'.Sane
  frame : Frame s.ftl s'.ftl
  map : s'.ftl.map = s.ftl.map
  inflight : s'.inflight = s.inflight
  programmed : s'.programmed = s.programmed
  empties : s'.empties = s.empties
  fulls : ∃ new, s'.fulls = s.fulls ++ new ∧ ∀ e ∈ new, s.place e = .closing
  closing : ∀ e, s'.place e = .closing → s.place e = .closing

theorem Copied.refl (hs : s.Sane) : Copied s s :=
  ⟨Reaches.refl s,hs,Frame.refl _,rfl,rfl,rfl,rfl,⟨[],by simp⟩,fun _ h => h⟩

theorem Copied.trans (h : Copied s s') (k : Copied s' s'') : Copied s s'' := by
  obtain ⟨new,hnew,hcl⟩ := h.fulls
  obtain ⟨new',hnew',hcl'⟩ := k.fulls
  refine ⟨h.run.trans k.run,k.sane,h.frame.trans k.frame,k.map.trans h.map,k.inflight.trans h.inflight,
    k.programmed.trans h.programmed,k.empties.trans h.empties,⟨new ++ new',?_,?_⟩,
    fun e he => h.closing e (k.closing e he)⟩
  · rw [hnew',hnew,List.append_assoc]
  · intro e he
    rcases List.mem_append.mp he with he | he
    · exact hcl e he
    · exact h.closing e (hcl' e he)

theorem Effect.copied {i : Nat} (h : Effect s (.copySlot i) s') (hs : s.Sane) : Copied s s' := by
  obtain ⟨hs',hshift⟩ := h.sane hs
  have hrun : Reaches WritePath.step byCopies s s' := Reaches.single (l := .copySlot i) trivial h.step
  have hsame : Frame s.ftl s'.ftl ∧ s'.ftl.map = s.ftl.map ∧ s'.inflight = s.inflight ∧
      s'.programmed = s.programmed := by
    cases h with
    | copy hc hpc => exact ⟨flushSlot_frame ..,flushSlot_map ..,rfl,rfl⟩
  obtain ⟨hframe,hmap,hinfl,hprog⟩ := hsame
  cases hshift with
  | same _ _ hplace hempties hfulls =>
    exact ⟨hrun,hs',hframe,hmap,hinfl,hprog,hempties,⟨[],by simp [hfulls],by simp⟩,
      fun x hx => hplace ▸ hx⟩
  | filled _ e hcl hplace hempties hfulls =>
    refine ⟨hrun,hs',hframe,hmap,hinfl,hprog,hempties,⟨[e],hfulls,by simpa using hcl⟩,fun x hx => ?_⟩
    rw [hplace] at hx
    rcases eq_or_ne x e with rfl | he
    · exact hcl
    · rwa [Function.update_of_ne he] at hx

/-- A call copies all the pages it still has to. -/
theorem copy_all {i adv : Nat} {c : BioCall α} {todo : List Slot} (hs : s.Sane)
    (hc : s.calls[i]? = some c) (hpc : c.pc = .flush todo adv) :
    ∃ s' adv', Copied s s' ∧ s'.calls = s.calls.set i { c with pc := .flush [] adv' } := by
  induction todo generalizing s c adv with
  | nil =>
    refine ⟨s,adv,Copied.refl hs,?_⟩
    obtain ⟨hlt,rfl⟩ := List.getElem?_eq_some_iff.mp hc
    rw [← hpc]
    exact (List.set_getElem_self hlt).symm
  | cons slot todo ih =>
    have h₁ := (Effect.copy hc hpc).copied hs
    obtain ⟨s₂,adv₂,h₂,hcalls₂⟩ := ih h₁.sane (getElem?_set_of_some hc _) rfl
    exact ⟨s₂,adv₂,h₁.trans h₂,by rw [hcalls₂,List.set_set]⟩

/-- After copies, the entities that were closing and have nothing left to copy are full. -/
theorem Copied.mem_fulls (h : Copied s s') (hs : s.Sane) {e : Nat} (hcl : s.place e = .closing)
    (hdone : heldBy s'.pending e = []) : e ∈ s'.fulls := by
  have hlt := hs.lt_of_ne_outside (e := e) (by simp [hcl])
  have hok := h.sane.ents e
  rw [h.sane.full_iff]
  cases hk : s'.place e with
  | full => rfl
  | outside => exact absurd ((h.sane.outside_iff e).mp hk) (Nat.not_le.mpr hlt)
  | empty =>
    have hm := (h.sane.empty_iff e).mpr hk
    rw [h.empties,hs.empty_iff,hcl] at hm
    cases hm
  | «open» =>
    have hpart := h.frame.isPart
    rw [h.sane.isPart,hs.isPart,(h.sane.open_iff e).mp hk |>.symm,Option.some.injEq] at hpart
    rw [(hs.open_iff e).mpr hpart] at hcl
    cases hcl
  | closing =>
    rw [hk] at hok
    exact absurd hdone hok.2.1
  | flight =>
    obtain ⟨-,line,hm⟩ := (h.sane.at_iff hlt .flight).mpr hk
    rw [h.inflight] at hm
    rw [(hs.flying_of_line hm).1] at hcl
    cases hcl

/-- The stripes of entities that are not empty survive an allocation. -/
theorem allotPages_baddr {f f' : Ftl α} {e n lba : Nat} {q : List Nat} {ss : List Slot}
    (hr : Ready f e q) (ha : allotPages n f lba = .ok (ss,f')) {x : Nat} (hx : x ∉ q) :
    (f'.ent x).baddr = (f.ent x).baddr := by
  let P (_ : List Slot) (g : Ftl α) (_ : Nat) (qs : List Nat) : Prop :=
    (∀ y ∈ qs, y ∈ q) ∧ (g.ent x).baddr = (f.ent x).baddr
  suffices hstep : ∀ ss g y qs g' y' qs', ss.length < n → Ready g y qs → P ss g y qs →
      Allot g y qs (lba + ss.length) g' y' qs' → P (ss ++ [(y,(g.ent y).pos)]) g' y' qs' by
    obtain ⟨-,-,-,-,-,h⟩ := allotPages_induct P hr ⟨fun _ h => h,rfl⟩ hstep ha
    exact h
  rintro ss g y qs g' y' qs' - - ⟨hsub,hb⟩ hall
  have hw := baddr_writeSlot g y (lba + ss.length) (g.nextPpa y) x
  cases hall with
  | room hpos => exact ⟨hsub,hw.trans hb⟩
  | last hpos hcons hbaddr hqueue hlink =>
    subst hcons
    have hne : x ≠ y' := fun h => hx (hsub x (h ▸ List.mem_cons_self))
    rw [List.forall_mem_cons] at hsub
    exact ⟨hsub.2,by rw [ent_openEnt_of_ne _ _ _ _ _ _ hne]; exact hw.trans hb⟩

/-- A run stands with open entity `e`, empty entities `q`, full entities `fq`, uncopied slots `rest`
and `k` pages of the blocks `all` handed out. -/
structure Stand (s : WritePath α) (e : Nat) (q fq : List Nat) (rest : List Slot) (all : List Nat)
    (k : Nat) : Prop where
  sane : s.Sane
  exact : s.ftl.map.Exact
  frontier : Frontier s.ftl all k
  part : s.part = e
  empties : s.empties = q
  fulls : s.fulls = fq
  pending : s.pending.Perm rest

theorem stand_init {f : Ftl α} {free : List Nat} (h : Booted f free) (hs : free.Sublist scanOrder) :
    Stand (WritePath.init f) 0 (List.range' 1 15) [] [] (firstBlock free :: free.tail) 0 := by
  obtain ⟨-,hempties,hfulls,hpart⟩ := (conserved_init h).eq_place
  exact ⟨sane_init h,h.map ▸ exact_init,h.frontier hs,hpart,hempties,hfulls,List.Perm.refl _⟩

section Stand

variable {e : Nat} {q fq : List Nat} {rest : List Slot} {all : List Nat} {k : Nat}

theorem Stand.pos (h : Stand s e q fq rest all k) : (s.ftl.ent e).pos = k % raidLunSecNum := by
  have hr := h.sane.ready
  rw [h.part] at hr
  exact (h.frontier.partial_eq hr.isPart hr.pos).2.2

/-- The open entity holds the stripe at the frontier. -/
theorem Stand.baddr (h : Stand s e q fq rest all k) :
    (s.ftl.ent e).baddr.toNat + k % raidLunSecNum = pageAt all k := by
  have hr := h.sane.ready
  rw [h.part] at hr
  rw [← h.pos]
  exact (h.frontier.partial_eq hr.isPart hr.pos).1

/-- The slots of the next `n` pages, as long as they fit into the open entity. -/
def roomSlots (e pos n : Nat) : List Slot := (List.range n).map fun j => (e,pos + j)

theorem roomSlots_getElem? (e pos : Nat) {n j : Nat} (h : j < n) :
    (roomSlots e pos n)[j]? = some (e,pos + j) := by
  simp [roomSlots,h]

theorem nextSlots_room {pos n : Nat} (h : pos + n ≤ raidLunSecNum) :
    nextSlots (e :: q) pos n = roomSlots e pos n := by
  apply List.map_congr_left
  intro j hj
  have hlt : pos + j < raidLunSecNum := by
    have := List.mem_range.mp hj
    omega
  rw [Nat.div_eq_of_lt hlt,Nat.mod_eq_of_lt hlt]
  rfl

/-- What the schedules leave alone in the entities, the table and the history; the LBAs below 64 are
kept free. -/
structure Kept (s s' : WritePath α) : Prop where
  programmed : s'.programmed = s.programmed
  inflight : s'.inflight = s.inflight
  low : ∀ lba, lba < 64 → s'.ftl.map.l2ptbl lba = s.ftl.map.l2ptbl lba
  empties : ∀ x, x ∉ s.empties → x ∉ s'.empties ∧ (s'.ftl.ent x).baddr = (s.ftl.ent x).baddr

theorem Kept.trans (h : Kept s s') (h' : Kept s' s'') : Kept s s'' := by
  refine ⟨h'.programmed.trans h.programmed,h'.inflight.trans h.inflight,
    fun lba hl => (h'.low lba hl).trans (h.low lba hl),fun x hx => ?_⟩
  obtain ⟨hx',hb⟩ := h.empties x hx
  obtain ⟨hx'',hb'⟩ := h'.empties x hx'
  exact ⟨hx'',hb'.trans hb⟩

theorem Kept.of_frame (h : Frame s.ftl s'.ftl) (hempties : s'.empties = s.empties)
    (hprog : s'.programmed = s.programmed) (hinfl : s'.inflight = s.inflight)
    (hlow : ∀ lba, lba < 64 → s'.ftl.map.l2ptbl lba = s.ftl.map.l2ptbl lba) : Kept s s' :=
  ⟨hprog,hinfl,hlow,fun x hx => ⟨hempties ▸ hx,h.baddr x⟩⟩

/-- The pages that `c` was allotted, from page `k` of the blocks on. -/
structure Allotted (s : WritePath α) (c : BioCall α) (e pos : Nat) (all : List Nat) (k : Nat) : Prop where
  slots : c.slots = roomSlots e pos c.nrPpas
  ppas : c.ppas = (List.range' k c.nrPpas).map (pageAt all)
  lba : ∀ j, j < c.nrPpas → s.ftl.lbaAt (e,pos + j) = c.slba + j
  ppa : ∀ j, j < c.nrPpas → s.ftl.ppaAt (e,pos + j) = pageAt all (k + j)

/-- A bio that fits into the open entity is allotted its pages. -/
theorem Stand.allot (h : Stand s e q fq rest all k) {bio : Bio α} (hb : bio.Writable)
    (hk : k + getBioNppa bio < blockPages) (hroom : k % raidLunSecNum + getBioNppa bio ≤ raidLunSecNum)
    (hq : k % raidLunSecNum + getBioNppa bio + getBioNppa bio / 4 + 2 < raidLunSecNum ∨ q ≠ []) :
    ∃ s' c e' q', WritePath.step { s with calls := s.calls ++ [⟨bio,.start,[],[]⟩] }
        (.wcbSection s.calls.length) = some s' ∧ s'.calls = s.calls ++ [c] ∧ c.bio = bio ∧
      c.pc = .flush c.slots 0 ∧ Allotted s' c e (k % raidLunSecNum) all k ∧ Kept s s' ∧
      (e :: q).drop ((k % raidLunSecNum + getBioNppa bio) / raidLunSecNum) = e' :: q' ∧
      Stand s' e' q' fq (c.slots ++ rest) all (k + getBioNppa bio) := by
  let c₀ : BioCall α := ⟨bio,.start,[],[]⟩
  let s₁ : WritePath α := { s with calls := s.calls ++ [c₀] }
  have h₁ : Effect s (.begin bio) s₁ := Effect.begin bio
  have hs₁ : s₁.Sane := (h₁.sane h.sane).1
  have hc₀ : s₁.calls[s.calls.length]? = some c₀ := by simp [s₁]
  have hr : Ready s.ftl e q := h.part ▸ h.empties ▸ h.sane.ready
  obtain ⟨h1,h64,-⟩ := id hb
  have hav : wcbAvailable s₁.ftl c₀.nrPpas = .ok true := by
    refine (wcbAvailable_eq hr (Nat.lt_of_le_of_lt h64 (by decide))).trans ?_
    rw [h.pos]
    rcases hq with hlt | hne
    · rw [decide_eq_false (Nat.not_le.mpr hlt)]
      rfl
    · rw [decide_eq_false hne,Bool.and_false]
      rfl
  obtain ⟨r,halloc,-⟩ := allocWcbCore_of_available hs₁ c₀.slba h1 (Nat.le_trans h64 (by decide)) hav
  have h₂ : Effect s₁ (.wcbSection s.calls.length) (s₁.allotted s.calls.length c₀ r) :=
    Effect.alloc hc₀ rfl hav halloc
  obtain ⟨hs₂,hshift⟩ := h₂.sane hs₁
  have hserved := served (c := c₀) hs₁ hb halloc
  obtain ⟨-,-,hall⟩ := allocWcbCore_sound halloc
  have hcount : allotCount (getBioNppa bio) = getBioNppa bio :=
    allotCount_of_lt h1 (Nat.lt_of_le_of_lt h64 (by decide))
  rw [hcount] at hall
  have hcov : (k + getBioNppa bio) / blockPages < all.length := by
    rw [Nat.div_eq_of_lt hk]
    exact Nat.lt_of_le_of_lt (Nat.zero_le _) h.frontier.inRange
  obtain ⟨hfr,hppas⟩ := allotPages_frontier hr h.frontier hcov hall
  obtain ⟨hslots,e',q',hr',hdrop,-⟩ := allotPages_slots hr hall
  rw [h.pos] at hslots hdrop
  rw [nextSlots_room hroom] at hslots
  have hq' : q' = q.drop ((k % raidLunSecNum + getBioNppa bio) / raidLunSecNum) := by
    have htail := congrArg List.tail hdrop
    rw [List.tail_drop] at htail
    exact htail.symm
  have hat (j : Nat) (hj : j < getBioNppa bio) :
      (ctxSlots r.ctxs)[j]? = some (e,k % raidLunSecNum + j) := by
    rw [hslots,roomSlots_getElem? e _ hj]
  have hempties : (s₁.allotted s.calls.length c₀ r).empties = q' := hr'.queue.toList_eq
  refine ⟨s₁.allotted s.calls.length c₀ r,⟨bio,.flush (ctxSlots r.ctxs) 0,r.ctxs,r.ppas⟩,e',q',
    ?_,?_,rfl,rfl,?_,?_,hdrop,?_⟩
  · exact h₂.step
  · simp [WritePath.allotted,s₁,c₀]
  · refine ⟨hslots,hppas,fun j hj => hserved.lba (hat j hj),fun j hj => ?_⟩
    have hj' : j < getBioNppa bio := hj
    have hmap := congrArg (·[j]?) hppas
    simp only [List.getElem?_map,hat j hj,List.getElem?_range' hj',Option.map_some,
      Option.some.injEq,Nat.one_mul] at hmap
    exact hmap
  · refine ⟨rfl,rfl,fun lba _ => ?_,fun x hx => ?_⟩
    · exact congrFun (congrArg L2pTbl.l2ptbl hserved.map) lba
    · rw [h.empties] at hx
      refine ⟨?_,allotPages_baddr hr hall hx⟩
      rw [hempties,hq']
      exact fun hm => hx (List.mem_of_mem_drop hm)
  · refine ⟨hs₂,?_,hfr,?_,hempties,?_,?_⟩
    · exact hserved.map ▸ h.exact
    · rw [WritePath.part,show (s₁.allotted s.calls.length c₀ r).ftl = r.ftl from rfl,hr'.isPart]
      rfl
    · cases hshift with
      | same _ _ _ _ hfulls => exact hfulls.trans h.fulls
      | alloc _ _ hfulls => exact hfulls.trans h.fulls
    · have hpend : (s₁.allotted s.calls.length c₀ r).pending = s.pending ++ ctxSlots r.ctxs := by
        simp [WritePath.pending,WritePath.allotted,s₁,BioCall.pending]
      rw [hpend]
      exact List.perm_append_comm.trans (h.pending.append_left _)

/-- A closing entity waits for one of the uncopied slots. -/
theorem Stand.closing (h : Stand s e q fq rest all k) {x : Nat} (hcl : s.place x = .closing) :
    x ≠ e ∧ ∃ p, (x,p) ∈ rest := by
  have hok := h.sane.ents x
  rw [hcl] at hok
  obtain ⟨p,hp⟩ := List.exists_mem_of_ne_nil _ hok.2.1
  refine ⟨fun he => ?_,p,h.pending.mem_iff.mp (mem_heldBy.mp hp)⟩
  rw [(h.sane.open_iff x).mpr (he.trans h.part.symm)] at hcl
  cases hcl

/-- A call copies its pages; the entities that were closing and wait for no other call become full. -/
theorem Stand.flush {i adv : Nat} {c : BioCall α} {todo : List Slot}
    (h : Stand s e q fq (todo ++ rest) all k) (hc : s.calls[i]? = some c)
    (hpc : c.pc = .flush todo adv) :
    ∃ s' adv' new, Copied s s' ∧ s'.calls = s.calls.set i { c with pc := .flush [] adv' } ∧
      Stand s' e q (fq ++ new) rest all k ∧ new.Nodup ∧
      ∀ x, x ∈ new ↔ s.place x = .closing ∧ heldBy rest x = [] := by
  obtain ⟨s',adv',hcop,hcalls⟩ := copy_all h.sane hc hpc
  obtain ⟨rest',hold,hnew⟩ := pending_set hc
  obtain ⟨new,hfulls,hclosing⟩ := hcop.fulls
  have hpend : s'.pending.Perm rest := by
    rw [show c.pending = todo by simp [BioCall.pending,hpc]] at hold
    rw [WritePath.pending,hcalls]
    exact (hnew _).trans ((List.perm_append_left_iff todo).mp (hold.symm.trans h.pending))
  have hpart : s'.part = e := by
    rw [← h.part,WritePath.part,WritePath.part,hcop.frame.isPart]
  have hnodup := hcop.sane.fulls.nodup
  rw [hfulls] at hnodup
  refine ⟨s',adv',new,hcop,hcalls,⟨hcop.sane,hcop.map ▸ h.exact,hcop.frame.frontier h.frontier,hpart,
    hcop.empties.trans h.empties,by rw [hfulls,h.fulls],hpend⟩,(List.nodup_append.mp hnodup).2.1,
    fun x => ⟨fun hx => ?_,fun hx => ?_⟩⟩
  · have hfull : s'.place x = .full := (hcop.sane.full_iff x).mp (by simp [hfulls,hx])
    have hok := hcop.sane.ents x
    rw [hfull] at hok
    exact ⟨hclosing x hx,List.perm_nil.mp (hok.1 ▸ (heldBy_perm hpend x).symm)⟩
  · have hcl := hx.1
    have hdone : heldBy s'.pending x = [] := List.perm_nil.mp (hx.2 ▸ heldBy_perm hpend x)
    have hm := hcop.mem_fulls h.sane hcl hdone
    rw [hfulls,List.mem_append] at hm
    refine hm.resolve_left fun hx => ?_
    rw [(h.sane.full_iff x).mp hx] at hcl
    cases hcl

/-- The `(lba, address)` pairs that the section under `l2ptbl_lock` writes for a call. -/
def l2pWrites (f : Ftl α) (slots : List Slot) : List (Nat × GeoPpa) :=
  slots.map fun slot => (f.lbaAt slot,Cache.inCache.set (BitVec.ofNat 32 (f.ppaAt slot)) 1)

theorem setL2ptblWritePath_l2ptbl {f f' : Ftl α} {ctxs : List WcbCtx}
    (hlba : ∀ slot ∈ ctxSlots ctxs, f.lbaAt slot ≤ maxUserLba)
    (h : setL2ptblWritePath f ctxs = .ok f') :
    f'.map.l2ptbl = overwrite f.map.l2ptbl (l2pWrites f (ctxSlots ctxs)) := by
  obtain ⟨-,-,hall⟩ := setL2ptblWritePath_ok h
  have hset := setL2ptblAll_l2ptbl (fun w hw => by
    obtain ⟨slot,hslot,rfl⟩ := List.mem_map.mp hw
    exact hlba slot hslot) hall
  rwa [List.map_map] at hset

/-- A call whose slots hold user LBAs and pages of the drive maps them and returns. -/
theorem Stand.map {i adv : Nat} {c : BioCall α} (h : Stand s e q fq rest all k)
    (hc : s.calls[i]? = some c) (hpc : c.pc = .flush [] adv)
    (hslots : ∀ slot ∈ c.slots, s.ftl.lbaAt slot ≤ maxUserLba ∧
      s.ftl.ppaAt slot < cfgNandBlockNum * blockPages) :
    ∃ s', s.step (.l2pSection i) = some s' ∧
      s'.calls = s.calls.set i { c with pc := .returned .complete } ∧ Stand s' e q fq rest all k ∧
      s'.ftl.map.l2ptbl = overwrite s.ftl.map.l2ptbl (l2pWrites s.ftl c.slots) ∧
      s'.programmed = s.programmed ∧ s'.inflight = s.inflight ∧ Frame s.ftl s'.ftl := by
  obtain ⟨m,hm,hexact⟩ := setL2ptblAll_exact h.exact
    (c.slots.map fun slot => (s.ftl.lbaAt slot,BitVec.ofNat 32 (s.ftl.ppaAt slot))) (by
      intro w hw
      obtain ⟨slot,hslot,rfl⟩ := List.mem_map.mp hw
      obtain ⟨hlba,hppa⟩ := hslots slot hslot
      refine ⟨hlba,?_⟩
      rw [nand_blk_eq,BitVec.toNat_ofNat]
      simp only [cfgNandBlockNum_eq,blockPages_eq] at hppa ⊢
      omega)
  have hf : setL2ptblWritePath s.ftl c.wcbResource = .ok { s.ftl with map := m } := by
    unfold setL2ptblWritePath
    rw [show ctxSlots c.wcbResource = c.slots from rfl,hm]
    rfl
  have heff := Effect.map hc hpc hf
  obtain ⟨hs',hshift⟩ := heff.sane h.sane
  have hframe := setL2ptblWritePath_frame hf
  obtain ⟨rest',hold,hnew⟩ := pending_set hc
  rw [show c.pending = [] by simp [BioCall.pending,hpc]] at hold
  refine ⟨_,heff.step,rfl,?_,setL2ptblWritePath_l2ptbl (fun slot hs => (hslots slot hs).1) hf,rfl,rfl,
    hframe⟩
  cases hshift with
  | same _ _ _ hempties hfulls hpart =>
    exact ⟨hs',hexact,hframe.frontier h.frontier,hpart.trans h.part,hempties.trans h.empties,
      hfulls.trans h.fulls,
      (hnew { c with pc := .returned .complete }).trans (hold.symm.trans h.pending)⟩

theorem Allotted.mem_slots {c : BioCall α} {pos : Nat} (h : Allotted s c e pos all k) {slot : Slot}
    (hm : slot ∈ c.slots) : ∃ j, j < c.nrPpas ∧ slot = (e,pos + j) := by
  rw [h.slots] at hm
  obtain ⟨j,hj,rfl⟩ := List.mem_map.mp hm
  exact ⟨j,List.mem_range.mp hj,rfl⟩

/-- Of the closing entities only the one that the call filled waits for no other call. -/
theorem Stand.filled_eq {c : BioCall α} {x pos k' : Nat} {new : List Nat}
    (h : Stand s x q fq (c.slots ++ rest) all k) (hall : Allotted s c e pos all k') (h1 : 1 ≤ c.nrPpas)
    (hnodup : new.Nodup) (hnew : ∀ y, y ∈ new ↔ s.place y = .closing ∧ heldBy rest y = []) :
    new = if x ≠ e ∧ heldBy rest e = [] then [e] else [] := by
  have hmem (y : Nat) : y ∈ new ↔ y = e ∧ x ≠ e ∧ heldBy rest e = [] := by
    rw [hnew y]
    constructor
    · rintro ⟨hcl,hdone⟩
      obtain ⟨hne,p,hp⟩ := h.closing hcl
      rw [← mem_heldBy,heldBy_append,hdone,List.append_nil,mem_heldBy] at hp
      obtain ⟨j,-,hy⟩ := hall.mem_slots hp
      obtain rfl : y = e := congrArg Prod.fst hy
      exact ⟨rfl,hne.symm,hdone⟩
    · rintro ⟨rfl,hne,hdone⟩
      refine ⟨?_,hdone⟩
      have hp : (y,pos + 0) ∈ s.pending := by
        rw [h.pending.mem_iff,hall.slots]
        exact List.mem_append_left _ (List.mem_of_getElem? (roomSlots_getElem? y _ h1))
      rcases (h.sane.filling_of_pending hp).1 with ⟨hopen,-⟩ | ⟨hcl,-⟩
      · exact absurd (((h.sane.open_iff y).mp hopen).trans h.part).symm hne
      · exact hcl
  by_cases hcond : x ≠ e ∧ heldBy rest e = []
  · rw [if_pos hcond]
    refine List.perm_singleton.mp ((List.perm_ext_iff_of_nodup hnodup (List.nodup_singleton e)).mpr ?_)
    simpa [hcond] using hmem
  · rw [if_neg hcond,List.eq_nil_iff_forall_not_mem]
    exact fun y hy => hcond ((hmem y).mp hy).2

/-- A bio that fits into the open entity is served. When it uses the last slot, the entity becomes
full unless another call still has to copy into it. -/
theorem Stand.serve_steps (h : Stand s e q fq rest all k) {bio : Bio α} (hb : bio.Writable)
    (hslba : 64 ≤ getBioSlba bio) (hk : k + getBioNppa bio < blockPages)
    (hroom : k % raidLunSecNum + getBioNppa bio ≤ raidLunSecNum)
    (hq : k % raidLunSecNum + getBioNppa bio + getBioNppa bio / 4 + 2 < raidLunSecNum ∨ q ≠ []) :
    ∃ s₁ s₂ s' c e' q', WritePath.step { s with calls := s.calls ++ [⟨bio,.start,[],[]⟩] }
        (.wcbSection s.calls.length) = some s₁ ∧ Reaches WritePath.step byCopies s₁ s₂ ∧
      s₂.step (.l2pSection s.calls.length) = some s' ∧ s'.calls = s.calls ++ [c] ∧ c.bio = bio ∧
      c.pc = .returned .complete ∧ Kept s s' ∧
      (e :: q).drop ((k % raidLunSecNum + getBioNppa bio) / raidLunSecNum) = e' :: q' ∧
      Stand s' e' q' (fq ++ if e' ≠ e ∧ heldBy rest e = [] then [e] else []) rest all
        (k + getBioNppa bio) := by
  obtain ⟨s₁,c,e',q',hstep₁,hcalls₁,rfl,hpc,hall,hkept₁,hdrop,h₁⟩ := h.allot hb hk hroom hq
  have hc₁ : s₁.calls[s.calls.length]? = some c := by simp [hcalls₁]
  obtain ⟨s₂,adv,new,hcop,hcalls₂,h₂,hnodup,hnew⟩ := h₁.flush hc₁ hpc
  have hc₂ : s₂.calls[s.calls.length]? = some { c with pc := .flush [] adv } := by
    rw [hcalls₂]
    exact getElem?_set_of_some hc₁ _
  have hlba (slot : Slot) (hm : slot ∈ c.slots) : 64 ≤ s₂.ftl.lbaAt slot ∧
      s₂.ftl.lbaAt slot ≤ maxUserLba ∧ s₂.ftl.ppaAt slot < cfgNandBlockNum * blockPages := by
    obtain ⟨j,hj,rfl⟩ := hall.mem_slots hm
    have hcap := hb.2.2
    unfold Bio.InCapacity at hcap
    rw [hcop.frame.lbaAt,hcop.frame.ppaAt,hall.lba j hj,hall.ppa j hj]
    unfold BioCall.nrPpas at hj
    unfold BioCall.slba
    exact ⟨by omega,by omega,h.frontier.pageAt_lt _⟩
  obtain ⟨s₃,hstep,hcalls₃,h₃,htbl,hprog,hinfl,hframe⟩ := h₂.map hc₂ rfl (fun slot hm => (hlba slot hm).2)
  have hlow (lba : Nat) (hl : lba < 64) : s₃.ftl.map.l2ptbl lba = s₂.ftl.map.l2ptbl lba := by
    rw [htbl]
    refine overwrite_of_notMem fun hm => ?_
    rw [l2pWrites,List.map_map] at hm
    obtain ⟨slot,hslot,rfl⟩ := List.mem_map.mp hm
    exact Nat.not_le.mpr hl (hlba slot hslot).1
  refine ⟨s₁,s₂,s₃,{ c with pc := .returned .complete },e',q',hstep₁,hcop.run,hstep,?_,rfl,rfl,?_,hdrop,
    h₁.filled_eq hall hb.1 hnodup hnew ▸ h₃⟩
  · rw [hcalls₃,hcalls₂,hcalls₁,List.set_set,List.set_append_right _ _ (Nat.le_refl _),Nat.sub_self]
    rfl
  · have hkept₂ : Kept s₁ s₂ := Kept.of_frame hcop.frame hcop.empties hcop.programmed hcop.inflight
      fun lba _ => by rw [hcop.map]
    exact (hkept₁.trans hkept₂).trans
      (Kept.of_frame hframe (h₃.empties.trans h₂.empties.symm) hprog hinfl hlow)

theorem replicate_size_lt (a : α) {n : Nat} (h : n ≤ 64) :
    (List.replicate n a).length * expPpaSize < 2^32 := by
  rw [List.length_replicate,expPpaSize]
  omega

/-- A bio of `n` pages from LBA 64 on. -/
def fillerBio (a : α) (n : Nat) (h : n ≤ 64) : Bio α where
  biSector := 64 * secPerPpa
  pages := List.replicate n a
  size_lt := replicate_size_lt a h

theorem fillerBio_writable (a : α) {n : Nat} (h1 : 1 ≤ n) (h : n ≤ 64) :
    (fillerBio a n h).Writable ∧ getBioSlba (fillerBio a n h) = 64 ∧
      getBioNppa (fillerBio a n h) = n := by
  have hn : getBioNppa (fillerBio a n h) = n := by simp [fillerBio]
  have hslba : getBioSlba (fillerBio a n h) = 64 := Nat.mul_div_cancel _ (by decide)
  refine ⟨⟨by rw [hn]; exact h1,by rw [hn]; exact h,?_⟩,hslba,hn⟩
  rw [Bio.InCapacity,hn,hslba,maxUserLba_eq]
  omega

/-- A bio of one page. -/
def pageBio (a : α) (lba : Nat) : Bio α := ⟨lba * secPerPpa,[a],(by decide : 1 * expPpaSize < 2^32)⟩

theorem pageBio_writable (a : α) {lba : Nat} (h : lba < 64) :
    (pageBio a lba).Writable ∧ getBioSlba (pageBio a lba) = lba ∧ getBioNppa (pageBio a lba) = 1 := by
  have hn : getBioNppa (pageBio a lba) = 1 := getBioNppa_eq _
  have hslba : getBioSlba (pageBio a lba) = lba := Nat.mul_div_cancel _ (by decide)
  refine ⟨⟨by rw [hn],by rw [hn]; decide,?_⟩,hslba,hn⟩
  rw [Bio.InCapacity,hn,hslba,maxUserLba_eq]
  omega

/-- A bio of one page is allotted a slot of the open entity. -/
theorem Stand.park (h : Stand s e q fq rest all k) (a : α) {lba : Nat} (hlba : lba < 64)
    (hk : k + 1 < blockPages) (hroom : k % raidLunSecNum + 3 < raidLunSecNum) :
    ∃ s' c, Reaches WritePath.step byCallers s s' ∧ s'.calls = s.calls ++ [c] ∧ c.bio = pageBio a lba ∧
      c.slots = [(e,k % raidLunSecNum)] ∧ c.pc = .flush [(e,k % raidLunSecNum)] 0 ∧
      s'.ftl.lbaAt (e,k % raidLunSecNum) = lba ∧
      s'.ftl.ppaAt (e,k % raidLunSecNum) = pageAt all k ∧ Kept s s' ∧
      Stand s' e q fq ((e,k % raidLunSecNum) :: rest) all (k + 1) := by
  obtain ⟨hb,hslba,hn⟩ := pageBio_writable a hlba
  obtain ⟨s',c,e',q',hstep,hcalls,hbio,hpc,hall,hkept,hdrop,hs'⟩ := h.allot hb (by rw [hn]; exact hk)
    (by rw [hn]; omega) (by rw [hn]; omega)
  have hnr : c.nrPpas = 1 := by rw [BioCall.nrPpas,hbio,hn]
  have hslots : c.slots = [(e,k % raidLunSecNum)] := by
    rw [hall.slots,hnr]
    rfl
  rw [hn,Nat.div_eq_of_lt (by omega),List.drop_zero,List.cons.injEq] at hdrop
  obtain ⟨rfl,rfl⟩ := hdrop
  rw [hslots] at hpc hs'
  rw [hn] at hs'
  refine ⟨s',c,?_,hcalls,hbio,hslots,hpc,?_,?_,hkept,hs'⟩
  · exact Reaches.tail (Reaches.single (l := .begin (pageBio a lba)) hb rfl) (l := .wcbSection s.calls.length)
      trivial hstep
  · have hat := hall.lba 0 (by rw [hnr]; decide)
    rwa [Nat.add_zero,Nat.add_zero,BioCall.slba,hbio,hslba] at hat
  · have hat := hall.ppa 0 (by rw [hnr]; decide)
    rwa [Nat.add_zero,Nat.add_zero] at hat

/-- A run in which some bios were served from begin to end. -/
structure Ran (s s' : WritePath α) : Prop where
  run : Reaches WritePath.step byCallers s s'
  kept : Kept s s'
  calls : ∃ new, s'.calls = s.calls ++ new ∧ ∀ c ∈ new, c.pc = .returned .complete

theorem Ran.refl (s : WritePath α) : Ran s s :=
  ⟨Reaches.refl s,⟨rfl,rfl,fun _ _ => rfl,fun _ hx => ⟨hx,rfl⟩⟩,[],by simp⟩

theorem Ran.trans (h : Ran s s') (h' : Ran s' s'') : Ran s s'' := by
  obtain ⟨new,hnew,hpc⟩ := h.calls
  obtain ⟨new',hnew',hpc'⟩ := h'.calls
  refine ⟨h.run.trans h'.run,h.kept.trans h'.kept,new ++ new',by rw [hnew',hnew,List.append_assoc],?_⟩
  exact fun c hc => (List.mem_append.mp hc).elim (hpc c) (hpc' c)

/-- A call that had begun before is left alone. -/
theorem Ran.call (h : Ran s s') {i : Nat} {c : BioCall α} (hc : s.calls[i]? = some c) :
    s'.calls[i]? = some c := by
  obtain ⟨new,hnew,-⟩ := h.calls
  rw [hnew,List.getElem?_append_left (List.getElem?_eq_some_iff.mp hc).1,hc]

/-- A filler is served. -/
theorem Stand.serve (h : Stand s e q fq rest all k) (a : α) {n : Nat} (h1 : 1 ≤ n) (hn : n ≤ 64)
    (hk : k + n < blockPages) (hroom : k % raidLunSecNum + n ≤ raidLunSecNum)
    (hq : k % raidLunSecNum + n + n / 4 + 2 < raidLunSecNum ∨ q ≠ []) :
    ∃ s' e' q', Ran s s' ∧ (e :: q).drop ((k % raidLunSecNum + n) / raidLunSecNum) = e' :: q' ∧
      Stand s' e' q' (fq ++ if e' ≠ e ∧ heldBy rest e = [] then [e] else []) rest all (k + n) := by
  obtain ⟨hb,hslba,hnppa⟩ := fillerBio_writable a h1 hn
  obtain ⟨s₁,s₂,s₃,c,e',q',hstep₁,hcop,hstep₃,hcalls,-,hpc,hkept,hdrop,h₃⟩ := h.serve_steps hb
    (Nat.le_of_eq hslba.symm) (by rw [hnppa]; exact hk) (by rw [hnppa]; exact hroom)
    (by rw [hnppa]; exact hq)
  rw [hnppa] at hdrop h₃
  have hrun₁ : Reaches WritePath.step byCallers s s₁ := Reaches.tail
    (Reaches.single (l := .begin (fillerBio a n hn)) hb rfl) (l := .wcbSection s.calls.length) trivial hstep₁
  have hrun₂ := hrun₁.trans (hcop.mono (of_copies fun _ _ => trivial))
  exact ⟨s₃,e',q',⟨hrun₂.tail (l := .l2pSection s.calls.length) trivial hstep₃,hkept,[c],hcalls,
    by simpa using hpc⟩,hdrop,h₃⟩

/-- A filler that leaves room in the open entity. -/
theorem Stand.more (h : Stand s e q fq rest all k) (a : α) {n : Nat} (h1 : 1 ≤ n) (hn : n ≤ 64)
    (hk : k + n < blockPages) (hroom : k % raidLunSecNum + n < raidLunSecNum)
    (hq : k % raidLunSecNum + n + n / 4 + 2 < raidLunSecNum ∨ q ≠ []) :
    ∃ s', Ran s s' ∧ Stand s' e q fq rest all (k + n) := by
  obtain ⟨s',e',q',hran,hdrop,hs'⟩ := h.serve a h1 hn hk (Nat.le_of_lt hroom) hq
  rw [Nat.div_eq_of_lt hroom,List.drop_zero,List.cons.injEq] at hdrop
  obtain ⟨rfl,rfl⟩ := hdrop
  exact ⟨s',hran,by simpa using hs'⟩

/-- A filler that uses the last slot of the open entity. -/
theorem Stand.close {e' : Nat} (h : Stand s e (e' :: q) fq rest all k) (a : α) {n : Nat} (h1 : 1 ≤ n)
    (hn : n ≤ 64) (hk : k + n < blockPages) (hroom : k % raidLunSecNum + n = raidLunSecNum) :
    ∃ s', Ran s s' ∧
      Stand s' e' q (fq ++ if heldBy rest e = [] then [e] else []) rest all (k + n) := by
  obtain ⟨s',e'',q',hran,hdrop,hs'⟩ := h.serve a h1 hn hk (Nat.le_of_eq hroom)
    (Or.inr (List.cons_ne_nil _ _))
  rw [hroom,Nat.div_self (by decide),List.drop_one,List.tail_cons,List.cons.injEq] at hdrop
  obtain ⟨rfl,rfl⟩ := hdrop
  have hne : e' ≠ e := by
    have hnot := h.sane.ready.notMem
    rw [h.part,h.empties] at hnot
    exact fun he => hnot (he ▸ List.mem_cons_self)
  exact ⟨s',hran,by simpa [hne] using hs'⟩

theorem Stand.fresh (h : Stand s e q fq rest all k) (hk : k % raidLunSecNum = 0) :
    heldBy rest e = [] := by
  have hfill := (h.part ▸ h.sane.open_ok).2.1
  rw [List.eq_nil_iff_forall_not_mem]
  intro p hp
  have hlt := hfill.lt p ((heldBy_perm h.pending e).mem_iff.mpr hp)
  rw [h.pos,hk] at hlt
  exact Nat.not_lt_zero _ hlt

/-- Two fillers fill an entity. -/
theorem Stand.fill {e' : Nat} (h : Stand s e (e' :: q) fq rest all k) (a : α)
    (hmod : k % raidLunSecNum = 0) (hk : k + raidLunSecNum < blockPages) :
    ∃ s', Ran s s' ∧ Stand s' e' q (fq ++ [e]) rest all (k + raidLunSecNum) := by
  have hfresh := h.fresh hmod
  simp only [raidLunSecNum_eq] at hmod hk ⊢
  obtain ⟨s₁,hran₁,h₁⟩ := h.more a (n := 64) (by decide) (by decide) (by omega)
    (by simp only [raidLunSecNum_eq]; omega) (Or.inr (List.cons_ne_nil _ _))
  obtain ⟨s₂,hran₂,h₂⟩ := h₁.close a (n := 64) (by decide) (by decide) (by omega)
    (by simp only [raidLunSecNum_eq]; omega)
  rw [if_pos hfresh,Nat.add_assoc] at h₂
  exact ⟨s₂,hran₁.trans hran₂,h₂⟩

/-- Fillers fill the entities `es` one after another. -/
theorem Stand.fillAll {es y : List Nat} {e' : Nat} (h : Stand s e y fq rest all k) (a : α)
    (hes : e :: y = es ++ e' :: q) (hmod : k % raidLunSecNum = 0)
    (hk : k + raidLunSecNum * es.length < blockPages) :
    ∃ s', Ran s s' ∧ Stand s' e' q (fq ++ es) rest all (k + raidLunSecNum * es.length) ∧
      ∀ i x, es[i]? = some x → (s'.ftl.ent x).baddr.toNat = pageAt all (k + raidLunSecNum * i) := by
  induction es generalizing s e y fq k with
  | nil =>
    obtain ⟨rfl,rfl⟩ := List.cons.inj hes
    exact ⟨s,Ran.refl s,by simpa using h,by simp⟩
  | cons x es ih =>
    rw [List.cons_append,List.cons.injEq] at hes
    obtain ⟨rfl,rfl⟩ := hes
    obtain ⟨e₁,y₁,hy⟩ := List.exists_cons_of_ne_nil (l := es ++ e' :: q) (by simp)
    rw [List.length_cons,Nat.mul_succ] at hk
    rw [hy] at h
    obtain ⟨s₁,hran₁,h₁⟩ := h.fill a hmod (by omega)
    obtain ⟨s₂,hran₂,h₂,hb⟩ := ih h₁ hy.symm (by rw [Nat.add_mod_right]; exact hmod) (by omega)
    refine ⟨s₂,hran₁.trans hran₂,?_,?_⟩
    · rw [List.length_cons,Nat.mul_succ]
      rw [List.append_assoc,List.singleton_append] at h₂
      rw [← Nat.add_assoc,Nat.add_right_comm]
      exact h₂
    · intro i z hz
      cases i with
      | zero =>
        obtain rfl : e = z := by simpa using hz
        have hnot := h.sane.ready.notMem
        rw [h.part] at hnot
        rw [((hran₁.trans hran₂).kept.empties e hnot).2]
        have hbaddr := h.baddr
        rw [hmod] at hbaddr
        exact hbaddr
      | succ i =>
        rw [hb i z (by simpa using hz),Nat.mul_succ,Nat.add_assoc,Nat.add_comm raidLunSecNum]

/-- Steps of the device leave the calls, the table and the stripes alone. -/
structure Drained (s s' : WritePath α) : Prop where
  run : Reaches WritePath.step byDevice s s'
  calls : s'.calls = s.calls
  frame : Frame s.ftl s'.ftl
  map : s'.ftl.map = s.ftl.map

theorem Drained.trans (h : Drained s s') (h' : Drained s' s'') : Drained s s'' :=
  ⟨h.run.trans h'.run,h'.calls.trans h.calls,h.frame.trans h'.frame,h'.map.trans h.map⟩

theorem Stand.submit {x : Nat} (h : Stand s e q (x :: fq) rest all k) :
    ∃ s', s.step .submit = some s' ∧ Drained s s' ∧
      s'.inflight = s.inflight ++ (List.range cfgDriveLineNum).map (fun l => (x,l)) ∧
      s'.programmed = s.programmed ++ [(s.ftl.ent x).baddr] ∧ Stand s' e q fq rest all k := by
  obtain ⟨f,ln,hpull,-,-⟩ := (h.fulls ▸ h.sane.fulls).pull
  have heff := Effect.submit hpull
  obtain ⟨hs',hshift⟩ := heff.sane h.sane
  have hframe := submit_frame s.ftl f ln x
  refine ⟨_,heff.step,⟨Reaches.single (l := .submit) trivial heff.step,rfl,hframe,rfl⟩,?_,rfl,?_⟩
  · rw [nvmeWrppaLun_lines]
  · cases hshift with
    | same _ hl => exact absurd rfl hl
    | submitted y hfulls hplace hempties hpart =>
      rw [h.fulls] at hfulls
      exact ⟨hs',h.exact,hframe.frontier h.frontier,hpart.trans h.part,hempties.trans h.empties,
        (List.cons.inj hfulls).2.symm,h.pending⟩

/-- The writer thread submits all full entities, oldest first. -/
theorem Stand.submitAll (h : Stand s e q fq rest all k) :
    ∃ s', Drained s s' ∧ s'.programmed = s.programmed ++ fq.map (fun x => (s.ftl.ent x).baddr) ∧
      Stand s' e q [] rest all k := by
  induction fq generalizing s with
  | nil => exact ⟨s,⟨Reaches.refl s,rfl,Frame.refl _,rfl⟩,by simp,h⟩
  | cons x fq ih =>
    obtain ⟨s₁,-,hdr₁,-,hprog₁,h₁⟩ := h.submit
    obtain ⟨s₂,hdr₂,hprog₂,h₂⟩ := ih h₁
    refine ⟨s₂,hdr₁.trans hdr₂,?_,h₂⟩
    rw [hprog₂,hprog₁,List.append_assoc,List.map_cons,List.singleton_append]
    congr 2
    exact List.map_congr_left fun y _ => hdr₁.frame.baddr y

/-- One line of a submitted entity completes; with the last one the entity is empty. -/
theorem Stand.complete {x line : Nat} {lines : List Nat} {infl : List (Nat × Nat)}
    (h : Stand s e q fq rest all k) (hinfl : s.inflight = infl ++ (line :: lines).map fun l => (x,l))
    (hnone : heldBy infl x = []) :
    ∃ s', Drained s s' ∧ s'.inflight = infl ++ (lines.map fun l => (x,l)) ∧
      s'.programmed = s.programmed ∧ Stand s' e (if lines = [] then q ++ [x] else q) fq rest all k := by
  have hm : (x,line) ∈ s.inflight := by simp [hinfl]
  have heff := Effect.complete hm
  obtain ⟨hs',hshift⟩ := heff.sane h.sane
  have hframe := wrppaLunCompletion_frame s.ftl x line
  have hmap := wrppaLunCompletion_map s.ftl x line
  have hne : (x,line) ∉ infl := fun hin => by
    have hin' := mem_heldBy.mpr hin
    rw [hnone] at hin'
    exact List.not_mem_nil hin'
  have herase : s.inflight.erase (x,line) = infl ++ (lines.map fun l => (x,l)) := by
    rw [hinfl,List.erase_append_right _ hne,List.map_cons,List.erase_cons_head]
  have hheld : heldBy (s.inflight.erase (x,line)) x = lines := by
    rw [herase,heldBy_append,hnone,List.nil_append,heldBy_map_mk]
  refine ⟨_,⟨Reaches.single (l := .complete x line) trivial heff.step,rfl,hframe,hmap⟩,herase,rfl,?_⟩
  have hold := (h.sane.flying_of_line hm).1
  cases hshift with
  | same _ _ hplace hempties hfulls hpart =>
    have hok := hs'.ents x
    rw [hplace,hold] at hok
    have hlines : lines ≠ [] := by
      rintro rfl
      have hfly : Flying _ (heldBy (s.inflight.erase (x,line)) x) := hok.2
      rw [hheld] at hfly
      refine hfly.flag_ne (Conserved.flag_eq_of_bits hfly.flag_lt fun l hl => ?_)
      by_contra hbit
      exact List.not_mem_nil ((hfly.mem l).mpr ⟨hl,by simpa using hbit⟩)
    rw [if_neg hlines]
    exact ⟨hs',hmap ▸ h.exact,hframe.frontier h.frontier,hpart.trans h.part,hempties.trans h.empties,
      hfulls.trans h.fulls,h.pending⟩
  | emptied _ _ _ hplace hempties hfulls hpart =>
    have hlines : lines = [] := by
      have hok := hs'.ents x
      rw [hplace,Function.update_self] at hok
      exact hheld.symm.trans hok.2
    rw [if_pos hlines]
    exact ⟨hs',hmap ▸ h.exact,hframe.frontier h.frontier,hpart.trans h.part,
      hempties.trans (by rw [h.empties]),hfulls.trans h.fulls,h.pending⟩

theorem Stand.completeAll {x : Nat} {lines : List Nat} {infl : List (Nat × Nat)}
    (h : Stand s e q fq rest all k) (hinfl : s.inflight = infl ++ lines.map fun l => (x,l))
    (hnone : heldBy infl x = []) (hlines : lines ≠ []) :
    ∃ s', Drained s s' ∧ s'.inflight = infl ∧ s'.programmed = s.programmed ∧
      Stand s' e (q ++ [x]) fq rest all k := by
  induction lines generalizing s with
  | nil => exact absurd rfl hlines
  | cons line lines ih =>
    obtain ⟨s₁,hdr₁,hinfl₁,hprog₁,h₁⟩ := h.complete hinfl hnone
    by_cases hl : lines = []
    · subst hl
      exact ⟨s₁,hdr₁,by simpa using hinfl₁,hprog₁,h₁⟩
    · rw [if_neg hl] at h₁
      obtain ⟨s₂,hdr₂,hinfl₂,hprog₂,h₂⟩ := ih h₁ hinfl₁ hl
      exact ⟨s₂,hdr₁.trans hdr₂,hinfl₂,hprog₂.trans hprog₁,h₂⟩

/-- The oldest full entity is submitted and completed. -/
theorem Stand.drain {x : Nat} (h : Stand s e q (x :: fq) rest all k) :
    ∃ s', Drained s s' ∧ s'.inflight = s.inflight ∧ Stand s' e (q ++ [x]) fq rest all k := by
  have hnone : heldBy s.inflight x = [] := by
    have hok := h.sane.ents x
    rw [(h.sane.full_iff x).mp (by simp [h.fulls])] at hok
    exact hok.2
  obtain ⟨s₁,-,hdr₁,hinfl₁,-,h₁⟩ := h.submit
  obtain ⟨s₂,hdr₂,hinfl₂,-,h₂⟩ := h₁.completeAll hinfl₁ hnone (by simp)
  exact ⟨s₂,hdr₁.trans hdr₂,hinfl₂,h₂⟩

theorem Stand.drainAll (h : Stand s e q fq rest all k) :
    ∃ s', Drained s s' ∧ s'.inflight = s.inflight ∧ Stand s' e (q ++ fq) [] rest all k := by
  induction fq generalizing s q with
  | nil => exact ⟨s,⟨Reaches.refl s,rfl,Frame.refl _,rfl⟩,rfl,by simpa using h⟩
  | cons x fq ih =>
    obtain ⟨s₁,hdr₁,hinfl₁,h₁⟩ := h.drain
    obtain ⟨s₂,hdr₂,hinfl₂,h₂⟩ := ih h₁
    exact ⟨s₂,hdr₁.trans hdr₂,hinfl₂.trans hinfl₁,by simpa using h₂⟩

end Stand

end Sdssd.Host
