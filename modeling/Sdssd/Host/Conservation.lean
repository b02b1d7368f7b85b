import Sdssd.Host.WritePath

/-!
# Conservation of write-cache entities

Every entity is at any time in one place: waiting in one of the two queues, open, closed and still
being filled, or in flight. The places, the two counters and the completion flag of an entity are
tied to the slots that are not yet copied and the lines that are not yet completed.
-/

namespace Sdssd.Host

open Framework

variable {α : Type}

inductive Place
  | outside
  | empty
  | full
  | open
  | closing
  | flight
  deriving DecidableEq, Repr

/-- `fill_cnt` counts the slots below `pos` that are not in `ps`. -/
structure Filling (x : WcbLunEntity α) (ps : List Nat) : Prop where
  nodup : ps.Nodup
  lt : ∀ p ∈ ps, p < x.pos
  fill : x.fillCnt + ps.length = x.pos

/-- Lines still to complete and the completion flag. -/
structure Flying (x : WcbLunEntity α) (lines : List Nat) : Prop where
  nodup : lines.Nodup
  flag_lt : x.cqeFlag < 256
  flag_ne : x.cqeFlag ≠ 255
  mem : ∀ l, l ∈ lines ↔ l < cfgDriveLineNum ∧ x.cqeFlag.testBit l = false

/-- An entity in place `k` with uncopied slots `ps` and outstanding lines `lines`. -/
def EntOk (k : Place) (x : WcbLunEntity α) (ps lines : List Nat) : Prop :=
  match k with
  | .open => x.pos < raidLunSecNum ∧ Filling x ps ∧ lines = []
  | .closing => x.pos = raidLunSecNum ∧ ps ≠ [] ∧ Filling x ps ∧ lines = []
  | .flight => ps = [] ∧ Flying x lines
  | _ => ps = [] ∧ lines = []

/-- The conservation invariant. `pend` are the allotted slots that are not yet copied, `infl` the
outstanding lines, `pl` the places, `eq` and `fq` the two queues and `e₀` the open entity. -/
structure Conserved (f : Ftl α) (pend : List Slot) (infl : List (Nat × Nat)) (pl : Nat → Place)
    (eq fq : List Nat) (e₀ : Nat) : Prop where
  pool : ∃ free, Pool f.sys free
  isPart : f.wcb.partialEntity = some e₀
  empties : Fifo.Holds f.wcb.link f.wcb.emptyLun eq
  fulls : Fifo.Holds f.wcb.link f.wcb.fullLun fq
  empty_iff : ∀ e, e ∈ eq ↔ pl e = .empty
  full_iff : ∀ e, e ∈ fq ↔ pl e = .full
  open_iff : ∀ e, pl e = .open ↔ e = e₀
  outside_iff : ∀ e, pl e = .outside ↔ cbEntitysCnt ≤ e
  ents : ∀ e, EntOk (pl e) (f.ent e) (heldBy pend e) (heldBy infl e)
  outstanding : f.wcb.outstandingLun = countWhere (Finset.range cbEntitysCnt) pl (· = .flight)

theorem EntOk.congr {k : Place} {x y : WcbLunEntity α} {ps lines : List Nat} (h : EntOk k x ps lines)
    (hpos : y.pos = x.pos) (hfill : y.fillCnt = x.fillCnt) (hflag : y.cqeFlag = x.cqeFlag) :
    EntOk k y ps lines := by
  cases k with
  | «open» => exact ⟨hpos ▸ h.1,⟨h.2.1.nodup,hpos ▸ h.2.1.lt,by rw [hfill,hpos]; exact h.2.1.fill⟩,h.2.2⟩
  | closing =>
    obtain ⟨hp,hne,hf,hl⟩ := h
    exact ⟨hpos ▸ hp,hne,⟨hf.nodup,hpos ▸ hf.lt,by rw [hfill,hpos]; exact hf.fill⟩,hl⟩
  | flight =>
    obtain ⟨hp,hf⟩ := h
    exact ⟨hp,hf.nodup,hflag ▸ hf.flag_lt,hflag ▸ hf.flag_ne,hflag ▸ hf.mem⟩
  | outside => exact h
  | empty => exact h
  | full => exact h

theorem Filling.perm {x : WcbLunEntity α} {ps qs : List Nat} (h : Filling x ps) (hp : ps.Perm qs) :
    Filling x qs :=
  ⟨hp.nodup_iff.mp h.nodup,fun p hm => h.lt p (hp.mem_iff.mpr hm),hp.length_eq ▸ h.fill⟩

/-- One more slot is allotted. -/
theorem Filling.allot {x y : WcbLunEntity α} {ps : List Nat} (h : Filling x ps)
    (hpos : y.pos = x.pos + 1) (hfill : y.fillCnt = x.fillCnt) : Filling y (x.pos :: ps) := by
  refine ⟨List.nodup_cons.mpr ⟨fun hm => Nat.lt_irrefl _ (h.lt _ hm),h.nodup⟩,?_,?_⟩
  · intro p hp
    rw [hpos]
    rcases List.mem_cons.mp hp with rfl | hp
    · exact Nat.lt_succ_self _
    · exact Nat.lt_succ_of_lt (h.lt p hp)
  · have hsum := h.fill
    rw [hpos,hfill,List.length_cons]
    omega

theorem EntOk.perm {k : Place} {x : WcbLunEntity α} {ps qs lines lines' : List Nat}
    (h : EntOk k x ps lines) (hp : ps.Perm qs) (hl : lines.Perm lines') : EntOk k x qs lines' := by
  have nil {as bs : List Nat} (hab : as.Perm bs) (has : as = []) : bs = [] :=
    List.perm_nil.mp (has ▸ hab.symm)
  cases k with
  | «open» => exact ⟨h.1,h.2.1.perm hp,nil hl h.2.2⟩
  | closing => exact ⟨h.1,fun hq => h.2.1 (nil hp.symm hq),h.2.2.1.perm hp,nil hl h.2.2.2⟩
  | flight =>
    obtain ⟨hps,hf⟩ := h
    exact ⟨nil hp hps,hl.nodup_iff.mp hf.nodup,hf.flag_lt,hf.flag_ne,
      fun l => hl.mem_iff.symm.trans (hf.mem l)⟩
  | outside => exact ⟨nil hp h.1,nil hl h.2⟩
  | empty => exact ⟨nil hp h.1,nil hl h.2⟩
  | full => exact ⟨nil hp h.1,nil hl h.2⟩

/-- What an allotment does to places and entities: the open entity uses a slot, and the entity that
is opened after its last slot was empty. -/
structure Opened (f f' : Ftl α) (pl pl' : Nat → Place) (e₀ e' : Nat) : Prop where
  old : pl' e₀ = .open ∨ pl' e₀ = .closing
  old_ent : (f'.ent e₀).baddr = (f.ent e₀).baddr ∧ (f'.ent e₀).pos = (f.ent e₀).pos + 1
  other : ∀ e, e ≠ e₀ → pl' e = pl e ∧ f'.ent e = f.ent e ∨
    e = e' ∧ pl e = .empty ∧ pl' e = .open ∧ (f'.ent e).pos = 0 ∧
      (f'.ent e).baddr.toNat % raidLunSecNum = 0

namespace Conserved

variable {f f' : Ftl α} {pend pend' : List Slot} {infl infl' : List (Nat × Nat)} {pl : Nat → Place}
  {eq fq : List Nat} {e₀ : Nat}

theorem perm (h : Conserved f pend infl pl eq fq e₀) (hp : pend.Perm pend') (hi : infl.Perm infl') :
    Conserved f pend' infl' pl eq fq e₀ :=
  { h with ents := fun e => (h.ents e).perm (heldBy_perm hp e) (heldBy_perm hi e) }

theorem notMem_empties (h : Conserved f pend infl pl eq fq e₀) {e : Nat} (he : pl e ≠ .empty) : e ∉ eq :=
  fun hm => he ((h.empty_iff e).mp hm)

theorem notMem_fulls (h : Conserved f pend infl pl eq fq e₀) {e : Nat} (he : pl e ≠ .full) : e ∉ fq :=
  fun hm => he ((h.full_iff e).mp hm)

theorem open_ok (h : Conserved f pend infl pl eq fq e₀) :
    (f.ent e₀).pos < raidLunSecNum ∧ Filling (f.ent e₀) (heldBy pend e₀) ∧ heldBy infl e₀ = [] := by
  have hok := h.ents e₀
  rw [(h.open_iff e₀).mpr rfl] at hok
  exact hok

theorem ready (h : Conserved f pend infl pl eq fq e₀) : Ready f e₀ eq := by
  exact ⟨h.isPart,h.open_ok.1,h.empties,h.notMem_empties (by simp [(h.open_iff e₀).mpr rfl])⟩

theorem lt_of_ne_outside (h : Conserved f pend infl pl eq fq e₀) {e : Nat} (he : pl e ≠ .outside) :
    e < cbEntitysCnt :=
  Nat.lt_of_not_le fun hle => he ((h.outside_iff e).mpr hle)

theorem noIndex_of_lt {e : Nat} (he : e < cbEntitysCnt) : e ≠ noIndex := by
  simp only [cbEntitysCnt_eq] at he
  unfold noIndex
  omega

theorem idle_of_empty (h : Conserved f pend infl pl eq fq e₀) {e : Nat} (he : e ∈ eq) :
    heldBy pend e = [] ∧ heldBy infl e = [] := by
  have hok := h.ents e
  rw [(h.empty_iff e).mp he] at hok
  exact hok

private theorem flights_update {e : Nat} {k : Place} (he : e < cbEntitysCnt) (h1 : pl e ≠ .flight)
    (h2 : k ≠ .flight) : countWhere (Finset.range cbEntitysCnt) (Function.update pl e k) (· = .flight) =
      countWhere (Finset.range cbEntitysCnt) pl (· = .flight) := by
  have h := countWhere_update (f := pl) (v := k) (p := (· = Place.flight)) (Finset.mem_range.mpr he)
  simpa only [h1,h2,if_false,Nat.add_zero] using h

theorem allot_room (h : Conserved f pend infl pl eq fq e₀) (lba : Nat)
    (hpos : (f.ent e₀).pos + 1 < raidLunSecNum) :
    Conserved (f.writeSlot e₀ lba (f.nextPpa e₀)) ((e₀,(f.ent e₀).pos) :: pend) infl pl eq fq e₀ := by
  obtain ⟨-,hfill,hlines⟩ := h.open_ok
  refine { h with ents := fun e => ?_ }
  by_cases he : e = e₀
  · subst he
    rw [(h.open_iff e).mpr rfl,ent_writeSlot_self,heldBy_cons_self]
    exact ⟨hpos,hfill.allot rfl rfl,hlines⟩
  · rw [ent_writeSlot_of_ne f lba _ he,heldBy_cons_of_ne (Ne.symm he)]
    exact h.ents e

theorem allot_last {e' : Nat} {q' : List Nat} {baddr : GeoPpa} {fifo : Fifo} {ln : Nat → Link}
    {sys : SysTbl} (h : Conserved f pend infl pl (e' :: q') fq e₀) (lba : Nat)
    (hpos : (f.ent e₀).pos + 1 = raidLunSecNum)
    (hbaddr : getNextEntityBaddr f.sys (f.nextPpa e₀) = .ok (baddr,sys))
    (hqueue : Fifo.Holds ln fifo q') (hlink : ∀ j, j ∉ e' :: q' → ln j = f.wcb.link j) :
    Conserved ((f.writeSlot e₀ lba (f.nextPpa e₀)).openEnt e' baddr fifo ln sys)
      ((e₀,(f.ent e₀).pos) :: pend) infl
      (Function.update (Function.update pl e₀ .closing) e' .open) q' fq e' := by
  obtain ⟨-,hfill,hlines⟩ := h.open_ok
  have hopen : pl e₀ = .open := (h.open_iff e₀).mpr rfl
  have hempty : pl e' = .empty := (h.empty_iff e').mp List.mem_cons_self
  have hne : e₀ ≠ e' := fun he => by rw [he,hempty] at hopen; cases hopen
  have hnq : e' ∉ q' := (List.nodup_cons.mp h.empties.nodup).1
  have hpl (e : Nat) (he' : e ≠ e') (he₀ : e ≠ e₀) :
      Function.update (Function.update pl e₀ .closing) e' .open e = pl e := by
    rw [Function.update_of_ne he',Function.update_of_ne he₀]
  have hpl₀ : Function.update (Function.update pl e₀ .closing) e' .open e₀ = .closing := by
    rw [Function.update_of_ne hne,Function.update_self]
  have hpl' : Function.update (Function.update pl e₀ .closing) e' .open e' = .open :=
    Function.update_self ..
  have cases (e : Nat) : e = e' ∨ e = e₀ ∨ (e ≠ e' ∧ e ≠ e₀) := by tauto
  refine ⟨?_,rfl,hqueue,?_,?_,?_,?_,?_,?_,?_⟩
  · obtain ⟨free,hfree⟩ := h.pool
    obtain ⟨b,t,hb,-,free',hfree'⟩ := getNextEntityBaddr_progress hfree (f.nextPpa e₀)
    rw [hbaddr,Except.ok.injEq,Prod.mk.injEq] at hb
    exact ⟨free',hb.2 ▸ hfree'⟩
  · exact h.fulls.congr fun i hi => hlink i (h.notMem_empties (by simp [(h.full_iff i).mp hi]))
  · intro e
    obtain rfl | rfl | ⟨he',he₀⟩ := cases e
    · simp [hnq]
    · have hnot : e ∉ e' :: q' := h.notMem_empties (by simp [hopen])
      simp [hpl₀,List.not_mem_of_not_mem_cons hnot]
    · rw [hpl e he' he₀,← h.empty_iff e,List.mem_cons]
      simp [he']
  · intro e
    rw [h.full_iff e]
    obtain rfl | rfl | ⟨he',he₀⟩ := cases e
    · simp [hempty]
    · simp [hpl₀,hopen]
    · rw [hpl e he' he₀]
  · intro e
    obtain rfl | rfl | ⟨he',he₀⟩ := cases e
    · simp
    · simp [hne]
    · rw [hpl e he' he₀,h.open_iff e]
      simp [he',he₀]
  · intro e
    rw [← h.outside_iff e]
    obtain rfl | rfl | ⟨he',he₀⟩ := cases e
    · simp [hempty]
    · simp [hpl₀,hopen]
    · rw [hpl e he' he₀]
  · intro e
    obtain rfl | rfl | ⟨he',he₀⟩ := cases e
    · obtain ⟨hp,hl⟩ := h.idle_of_empty (e := e) List.mem_cons_self
      rw [hpl',ent_openEnt_self,heldBy_cons_of_ne hne,hp,hl]
      exact ⟨(by decide : 0 < raidLunSecNum),⟨List.nodup_nil,by simp,rfl⟩,rfl⟩
    · rw [hpl₀,ent_openEnt_of_ne _ _ _ _ _ _ hne,ent_writeSlot_self,heldBy_cons_self]
      exact ⟨hpos,List.cons_ne_nil _ _,hfill.allot rfl rfl,hlines⟩
    · rw [hpl e he' he₀,ent_openEnt_of_ne _ _ _ _ _ _ he',ent_writeSlot_of_ne f lba _ he₀,
        heldBy_cons_of_ne (Ne.symm he₀)]
      exact h.ents e
  · have hlt₀ := h.lt_of_ne_outside (e := e₀) (by simp [hopen])
    have hlt' := h.lt_of_ne_outside (e := e') (by simp [hempty])
    rw [flights_update hlt' (by rw [Function.update_of_ne (Ne.symm hne)]; simp [hempty]) (by simp),
      flights_update hlt₀ (by simp [hopen]) (by simp)]
    exact h.outstanding

theorem allot {e' lba : Nat} {q' : List Nat} (h : Conserved f pend infl pl eq fq e₀)
    (ha : Allot f e₀ eq lba f' e' q') :
    ∃ pl', Conserved f' ((e₀,(f.ent e₀).pos) :: pend) infl pl' q' fq e' ∧ Opened f f' pl pl' e₀ e' := by
  cases ha with
  | room hpos =>
    have hself := ent_writeSlot_self f e₀ lba (f.nextPpa e₀)
    refine ⟨pl,h.allot_room lba hpos,Or.inl ((h.open_iff e₀).mpr rfl),by rw [hself]; exact ⟨rfl,rfl⟩,?_⟩
    intro e he
    exact Or.inl ⟨rfl,ent_writeSlot_of_ne f lba _ he⟩
  | last hpos hcons hbaddr hqueue hlink =>
    subst hcons
    obtain ⟨free,hfree⟩ := h.pool
    obtain ⟨b,t,hb,hal,-⟩ := getNextEntityBaddr_progress hfree (f.nextPpa e₀)
    rw [hbaddr,Except.ok.injEq,Prod.mk.injEq] at hb
    obtain ⟨rfl,rfl⟩ := hb
    have hempty : pl e' = .empty := (h.empty_iff e').mp List.mem_cons_self
    have hne : e₀ ≠ e' := fun he => h.ready.notMem (he ▸ List.mem_cons_self)
    refine ⟨_,h.allot_last lba hpos hbaddr hqueue hlink,Or.inr ?_,?_,?_⟩
    · rw [Function.update_of_ne hne,Function.update_self]
    · rw [ent_openEnt_of_ne _ _ _ _ _ _ hne,ent_writeSlot_self]
      exact ⟨rfl,rfl⟩
    · intro e he
      rcases eq_or_ne e e' with rfl | he'
      · refine Or.inr ⟨rfl,hempty,Function.update_self ..,?_,?_⟩
        · rw [ent_openEnt_self]
        · rw [ent_openEnt_self]
          exact hal
      · left
        rw [Function.update_of_ne he',Function.update_of_ne he,ent_openEnt_of_ne _ _ _ _ _ _ he',
          ent_writeSlot_of_ne f lba _ he]
        exact ⟨rfl,rfl⟩

/-- One entity other than the open one moves to place `k`. -/
theorem move {k : Place} {e : Nat} {eq' fq' : List Nat} (h : Conserved f pend infl pl eq fq e₀)
    (hsys : f'.sys = f.sys) (hpart : f'.wcb.partialEntity = f.wcb.partialEntity)
    (hempties : Fifo.Holds f'.wcb.link f'.wcb.emptyLun eq')
    (hfulls : Fifo.Holds f'.wcb.link f'.wcb.fullLun fq')
    (hold : pl e ≠ .outside ∧ pl e ≠ .open) (hnew : k ≠ .outside ∧ k ≠ .open)
    (hmem : ∀ x, x ≠ e → (x ∈ eq' ↔ x ∈ eq) ∧ (x ∈ fq' ↔ x ∈ fq))
    (hmeme : (e ∈ eq' ↔ k = .empty) ∧ (e ∈ fq' ↔ k = .full))
    (hents : ∀ x, x ≠ e → f'.ent x = f.ent x ∧ heldBy pend' x = heldBy pend x ∧
      heldBy infl' x = heldBy infl x)
    (hente : EntOk k (f'.ent e) (heldBy pend' e) (heldBy infl' e))
    (hout : f'.wcb.outstandingLun + (if pl e = .flight then 1 else 0) =
      f.wcb.outstandingLun + if k = .flight then 1 else 0) :
    Conserved f' pend' infl' (Function.update pl e k) eq' fq' e₀ := by
  have hlt := h.lt_of_ne_outside hold.1
  refine ⟨hsys ▸ h.pool,hpart.trans h.isPart,hempties,hfulls,?_,?_,?_,?_,?_,?_⟩
  · intro x
    rcases eq_or_ne x e with rfl | hx
    · rw [Function.update_self]
      exact hmeme.1
    · rw [Function.update_of_ne hx,(hmem x hx).1]
      exact h.empty_iff x
  · intro x
    rcases eq_or_ne x e with rfl | hx
    · rw [Function.update_self]
      exact hmeme.2
    · rw [Function.update_of_ne hx,(hmem x hx).2]
      exact h.full_iff x
  · intro x
    rcases eq_or_ne x e with rfl | hx
    · rw [Function.update_self]
      exact iff_of_false hnew.2 fun hx => hold.2 ((h.open_iff x).mpr hx)
    · rw [Function.update_of_ne hx]
      exact h.open_iff x
  · intro x
    rcases eq_or_ne x e with rfl | hx
    · rw [Function.update_self]
      exact iff_of_false hnew.1 (Nat.not_le.mpr hlt)
    · rw [Function.update_of_ne hx]
      exact h.outside_iff x
  · intro x
    rcases eq_or_ne x e with rfl | hx
    · rw [Function.update_self]
      exact hente
    · obtain ⟨he,hp,hi⟩ := hents x hx
      rw [Function.update_of_ne hx,he,hp,hi]
      exact h.ents x
  · have hcount := countWhere_update (f := pl) (v := k) (p := (· = Place.flight))
      (Finset.mem_range.mpr hlt)
    rw [h.outstanding] at hout
    split_ifs at hout hcount <;> omega

/-- An uncopied slot lies in the open entity or in a closing one. -/
theorem filling_of_pending (h : Conserved f pend infl pl eq fq e₀) {e p : Nat} (hm : (e,p) ∈ pend) :
    (pl e = .open ∧ (f.ent e).pos < raidLunSecNum ∨ pl e = .closing ∧ (f.ent e).pos = raidLunSecNum) ∧
      Filling (f.ent e) (heldBy pend e) ∧ heldBy infl e = [] := by
  have hok := h.ents e
  have hne : heldBy pend e ≠ [] := List.ne_nil_of_mem (mem_heldBy.mpr hm)
  generalize pl e = k at hok ⊢
  cases k with
  | «open» => exact ⟨Or.inl ⟨rfl,hok.1⟩,hok.2⟩
  | closing => exact ⟨Or.inr ⟨rfl,hok.1⟩,hok.2.2⟩
  | flight => exact absurd hok.1 hne
  | outside => exact absurd hok.1 hne
  | empty => exact absurd hok.1 hne
  | full => exact absurd hok.1 hne

/-- The copy that makes `fill_cnt` reach the number of slots is the last one of a closed entity. -/
theorem last_copy {e p : Nat} (h : Conserved f ((e,p) :: pend) infl pl eq fq e₀)
    (hfull : (f.ent e).fillCnt + 1 = raidLunSecNum) : pl e = .closing ∧ heldBy pend e = [] := by
  obtain ⟨hplace,hfill,-⟩ := h.filling_of_pending List.mem_cons_self
  have hsum := hfill.fill
  rw [heldBy_cons_self,List.length_cons] at hsum
  rcases hplace with ⟨-,hpos⟩ | ⟨hcl,hpos⟩
  · omega
  · exact ⟨hcl,List.length_eq_zero_iff.mp (by omega)⟩

theorem copy_filled {e p : Nat} (h : Conserved f ((e,p) :: pend) infl pl eq fq e₀) (bio : Bio α)
    (adv : Nat) (hfull : (f.ent e).fillCnt + 1 = raidLunSecNum) :
    Conserved (flushSlot f bio adv (e,p)).1 pend infl (Function.update pl e .full) eq (fq ++ [e]) e₀ := by
  obtain ⟨hcl,hrest⟩ := h.last_copy hfull
  obtain ⟨-,-,hlines⟩ := h.filling_of_pending (e := e) List.mem_cons_self
  have hefq : e ∉ fq := h.notMem_fulls (by simp [hcl])
  have heeq : e ∉ eq := h.notMem_empties (by simp [hcl])
  have hlt := h.lt_of_ne_outside (e := e) (by simp [hcl])
  have hdisj (i : Nat) (hi : i ∈ eq) : i ≠ e ∧ i ∉ fq :=
    ⟨fun hie => heeq (hie ▸ hi),h.notMem_fulls (by simp [(h.empty_iff i).mp hi])⟩
  have hwcb := flushSlot_wcb f bio adv (e,p)
  simp only [hfull,if_true] at hwcb
  refine h.move (flushSlot_sys ..) (by rw [hwcb]) ?_ ?_ (by simp [hcl]) (by simp) ?_ ?_ ?_ ?_ ?_
  · rw [hwcb]
    exact h.empties.congr fun i hi => Fifo.push_link_of_ne h.fulls (hdisj i hi).1 (hdisj i hi).2
  · rw [hwcb]
    exact h.fulls.push hefq (noIndex_of_lt hlt)
  · intro x hx
    simp [hx]
  · simp [heeq]
  · intro x hx
    exact ⟨flushSlot_ent_of_ne f bio adv (e,p) hx,(heldBy_cons_of_ne (Ne.symm hx)).symm,rfl⟩
  · exact ⟨hrest,hlines⟩
  · rw [hwcb]
    simp [hcl]

theorem copy_unfilled {e p : Nat} (h : Conserved f ((e,p) :: pend) infl pl eq fq e₀) (bio : Bio α)
    (adv : Nat) (hfull : (f.ent e).fillCnt + 1 ≠ raidLunSecNum) :
    Conserved (flushSlot f bio adv (e,p)).1 pend infl pl eq fq e₀ := by
  obtain ⟨hplace,hfill,hlines⟩ := h.filling_of_pending (e := e) List.mem_cons_self
  have hsum := hfill.fill
  have hnodup := hfill.nodup
  rw [heldBy_cons_self] at hsum hnodup
  rw [List.length_cons] at hsum
  have hself := flushSlot_ent_self f bio adv (e,p)
  simp only [hfull,if_false] at hself
  have hfill' : Filling ((flushSlot f bio adv (e,p)).1.ent e) (heldBy pend e) := by
    rw [hself]
    refine ⟨(List.nodup_cons.mp hnodup).2,fun q hq => ?_,by simp only; omega⟩
    exact hfill.lt q (by rw [heldBy_cons_self]; exact List.mem_cons_of_mem _ hq)
  have hwcb := flushSlot_wcb f bio adv (e,p)
  simp only [hfull,if_false] at hwcb
  refine ⟨flushSlot_sys f bio adv (e,p) ▸ h.pool,by rw [hwcb]; exact h.isPart,by rw [hwcb]; exact h.empties,
    by rw [hwcb]; exact h.fulls,h.empty_iff,h.full_iff,h.open_iff,h.outside_iff,?_,
    by rw [hwcb]; exact h.outstanding⟩
  intro x
  rcases eq_or_ne x e with rfl | hx
  · rcases hplace with ⟨hpl,hpos⟩ | ⟨hpl,hpos⟩
    · rw [hpl]
      exact ⟨by rw [hself]; exact hpos,hfill',hlines⟩
    · rw [hpl]
      refine ⟨by rw [hself]; exact hpos,?_,hfill',hlines⟩
      exact List.ne_nil_of_length_pos (by omega)
  · rw [flushSlot_ent_of_ne f bio adv (e,p) hx,← heldBy_cons_of_ne (Ne.symm hx)]
    exact h.ents x

theorem submit {e : Nat} {fq' : List Nat} {q : Fifo} {ln : Nat → Link}
    (h : Conserved f pend infl pl eq (e :: fq') e₀) (hqueue : Fifo.Holds ln q fq')
    (hlink : ∀ j, j ∉ e :: fq' → ln j = f.wcb.link j) :
    Conserved (nvmeWrppaLun (f.setFull q ln) e).1 pend
      (infl ++ (List.range cfgDriveLineNum).map fun line => (e,line)) (Function.update pl e .flight)
      eq fq' e₀ := by
  have hfull : pl e = .full := (h.full_iff e).mp List.mem_cons_self
  have heeq : e ∉ eq := h.notMem_empties (by simp [hfull])
  have hok := h.ents e
  rw [hfull] at hok
  obtain ⟨hp,hl⟩ := hok
  refine h.move rfl rfl ?_ hqueue (by simp [hfull]) (by simp) ?_ ?_ ?_ ?_ ?_
  · exact h.empties.congr fun i hi => hlink i (h.notMem_fulls (by simp [(h.empty_iff i).mp hi]))
  · intro x hx
    simp [hx]
  · simp [heeq,(List.nodup_cons.mp h.fulls.nodup).1]
  · intro x hx
    rw [heldBy_append,heldBy_map_mk_of_ne (Ne.symm hx),List.append_nil]
    exact ⟨nvmeWrppaLun_ent_of_ne _ hx,rfl,rfl⟩
  · rw [heldBy_append,hl,List.nil_append,heldBy_map_mk,nvmeWrppaLun_ent_self]
    refine ⟨hp,List.nodup_range,by simp,by simp,fun l => ?_⟩
    simp
  · rw [hfull]
    simp [nvmeWrppaLun,Ftl.setFull,Ftl.setEnt]

/-- A line whose bit was clear sets it. -/
theorem lineFlag_spec {flag l : Nat} (hflag : flag < 256) (hl : l < 8) (hbit : flag.testBit l = false) :
    lineFlag flag l < 256 ∧ ∀ j, (lineFlag flag l).testBit j = (flag.testBit j || decide (l = j)) := by
  have hlt : flag ||| 1 <<< l < 2^8 := by
    refine Nat.or_lt_two_pow hflag ?_
    rw [Nat.one_shiftLeft]
    exact Nat.pow_lt_pow_right (by decide) hl
  have heq : lineFlag flag l = flag ||| 1 <<< l := by
    rw [lineFlag,hbit]
    exact Nat.mod_eq_of_lt (Nat.lt_trans hlt (by decide))
  rw [heq]
  refine ⟨hlt,fun j => ?_⟩
  rw [Nat.testBit_or,Nat.one_shiftLeft,Nat.testBit_two_pow]

theorem flag_eq_of_bits {flag : Nat} (hflag : flag < 256)
    (hbits : ∀ l, l < 8 → flag.testBit l = true) : flag = 255 := by
  apply Nat.eq_of_testBit_eq
  intro j
  rw [show 255 = 2^8 - 1 from rfl,Nat.testBit_two_pow_sub_one]
  by_cases hj : j < 8
  · rw [hbits j hj]
    simp [hj]
  · rw [Nat.testBit_lt_two_pow (Nat.lt_of_lt_of_le hflag (Nat.pow_le_pow_right (by decide)
      (Nat.not_lt.mp hj) : 2^8 ≤ 2^j))]
    simp [hj]

theorem flying_of_line {e line : Nat} (h : Conserved f pend infl pl eq fq e₀) (hm : (e,line) ∈ infl) :
    pl e = .flight ∧ heldBy pend e = [] ∧ Flying (f.ent e) (heldBy infl e) := by
  have hok := h.ents e
  have hne : heldBy infl e ≠ [] := List.ne_nil_of_mem (mem_heldBy.mpr hm)
  generalize pl e = k at hok ⊢
  cases k with
  | flight => exact ⟨rfl,hok⟩
  | «open» => exact absurd hok.2.2 hne
  | closing => exact absurd hok.2.2.2 hne
  | outside => exact absurd hok.2 hne
  | empty => exact absurd hok.2 hne
  | full => exact absurd hok.2 hne

/-- After a completion the remaining lines are those whose bit is still clear. -/
private theorem remaining_lines {e line : Nat} (h : Conserved f pend ((e,line) :: infl) pl eq fq e₀) :
    lineFlag (f.ent e).cqeFlag line < 256 ∧ (heldBy infl e).Nodup ∧ ∀ l, l ∈ heldBy infl e ↔
      l < cfgDriveLineNum ∧ (lineFlag (f.ent e).cqeFlag line).testBit l = false := by
  obtain ⟨-,-,hfly⟩ := h.flying_of_line (e := e) List.mem_cons_self
  have hmem := hfly.mem
  have hnodup := hfly.nodup
  rw [heldBy_cons_self] at hmem hnodup
  obtain ⟨hline,hbit⟩ := (hmem line).mp List.mem_cons_self
  obtain ⟨hlt,hbits⟩ := lineFlag_spec hfly.flag_lt hline hbit
  refine ⟨hlt,(List.nodup_cons.mp hnodup).2,fun l => ?_⟩
  rw [hbits l]
  by_cases hl : line = l
  · subst hl
    simp [(List.nodup_cons.mp hnodup).1]
  · have hiff := hmem l
    rw [List.mem_cons] at hiff
    simpa [hl,Ne.symm hl] using hiff

theorem complete_last {e line : Nat} (h : Conserved f pend ((e,line) :: infl) pl eq fq e₀)
    (hlast : lineFlag (f.ent e).cqeFlag line = 255) :
    Conserved (wrppaLunCompletion f e line) pend infl (Function.update pl e .empty) (eq ++ [e]) fq e₀ := by
  obtain ⟨hfl,hp,-⟩ := h.flying_of_line (e := e) List.mem_cons_self
  obtain ⟨-,-,hmem⟩ := h.remaining_lines
  have hlines : heldBy infl e = [] := by
    rw [List.eq_nil_iff_forall_not_mem]
    intro l hl
    obtain ⟨hl8,hbit⟩ := (hmem l).mp hl
    simp only [cfgDriveLineNum_eq] at hl8
    rw [hlast,show 255 = 2^8 - 1 from rfl,Nat.testBit_two_pow_sub_one] at hbit
    simp [hl8] at hbit
  have heeq : e ∉ eq := h.notMem_empties (by simp [hfl])
  have hefq : e ∉ fq := h.notMem_fulls (by simp [hfl])
  have hlt := h.lt_of_ne_outside (e := e) (by simp [hfl])
  have hwcb := wrppaLunCompletion_wcb f e line
  simp only [hlast,if_true] at hwcb
  refine h.move (wrppaLunCompletion_sys ..) (by rw [hwcb]) ?_ ?_ (by simp [hfl]) (by simp) ?_ ?_ ?_ ?_ ?_
  · rw [hwcb]
    exact h.empties.push heeq (noIndex_of_lt hlt)
  · rw [hwcb]
    refine h.fulls.congr fun i hi => Fifo.push_link_of_ne h.empties (fun hie => hefq (hie ▸ hi)) ?_
    exact h.notMem_empties (by simp [(h.full_iff i).mp hi])
  · intro x hx
    simp [hx]
  · simp [hefq]
  · intro x hx
    exact ⟨wrppaLunCompletion_ent_of_ne f e line hx,rfl,(heldBy_cons_of_ne (Ne.symm hx)).symm⟩
  · exact ⟨hp,hlines⟩
  · rw [hwcb]
    simp [hfl]

theorem complete_more {e line : Nat} (h : Conserved f pend ((e,line) :: infl) pl eq fq e₀)
    (hmore : lineFlag (f.ent e).cqeFlag line ≠ 255) :
    Conserved (wrppaLunCompletion f e line) pend infl pl eq fq e₀ := by
  obtain ⟨hfl,hp,-⟩ := h.flying_of_line (e := e) List.mem_cons_self
  obtain ⟨hlt,hnodup,hmem⟩ := h.remaining_lines
  have hself := wrppaLunCompletion_ent_self f e line
  have hwcb := wrppaLunCompletion_wcb f e line
  simp only [hmore,if_false] at hwcb
  refine ⟨wrppaLunCompletion_sys f e line ▸ h.pool,by rw [hwcb]; exact h.isPart,
    by rw [hwcb]; exact h.empties,by rw [hwcb]; exact h.fulls,h.empty_iff,h.full_iff,h.open_iff,
    h.outside_iff,?_,by rw [hwcb]; exact h.outstanding⟩
  intro x
  rcases eq_or_ne x e with rfl | hx
  · rw [hfl,hself]
    exact ⟨hp,hnodup,hlt,hmore,hmem⟩
  · have hok := h.ents x
    rw [heldBy_cons_of_ne (Ne.symm hx)] at hok
    rw [wrppaLunCompletion_ent_of_ne f e line hx]
    exact hok

/-- An allocation that succeeds keeps the invariant; its slots are the new uncopied ones. Only the
open entity and empty ones are touched. -/
theorem allotPages {n lba : Nat} {ss : List Slot} (h : Conserved f pend infl pl eq fq e₀)
    (ha : allotPages n f lba = .ok (ss,f')) :
    ∃ pl' eq' e', Conserved f' (pend ++ ss) infl pl' eq' fq e' ∧
      ∀ e, pl e ≠ .open → pl e ≠ .empty → pl' e = pl e ∧ f'.ent e = f.ent e := by
  let P (ss : List Slot) (g : Ftl α) (x : Nat) (qs : List Nat) : Prop :=
    ∃ pl', Conserved g (pend ++ ss) infl pl' qs fq x ∧
      ∀ e, pl e ≠ .open → pl e ≠ .empty → pl' e = pl e ∧ g.ent e = f.ent e
  have h0 : P [] f e₀ eq := ⟨pl,by simpa using h,fun _ _ _ => ⟨rfl,rfl⟩⟩
  suffices hstep : ∀ ss g x qs g' x' qs', ss.length < n → Ready g x qs → P ss g x qs →
      Allot g x qs (lba + ss.length) g' x' qs' → P (ss ++ [(x,(g.ent x).pos)]) g' x' qs' by
    obtain ⟨-,e',q',-,pl',hc,hsame⟩ := allotPages_induct P h.ready h0 hstep ha
    exact ⟨pl',q',e',hc,hsame⟩
  rintro ss g x qs g' x' qs' - - ⟨pl',hc,hsame⟩ hall
  have hperm : ((x,(g.ent x).pos) :: (pend ++ ss)).Perm (pend ++ (ss ++ [(x,(g.ent x).pos)])) := by
    rw [← List.append_assoc]
    exact (List.perm_append_singleton _ _).symm
  obtain ⟨pl'',hc',hopened⟩ := hc.allot hall
  refine ⟨pl'',hc'.perm hperm (List.Perm.refl _),fun e ho he => ?_⟩
  obtain ⟨hpl,hent⟩ := hsame e ho he
  have hx : e ≠ x := fun hx => ho (by rw [← hpl,hx]; exact (hc.open_iff x).mpr rfl)
  rcases hopened.other e hx with ⟨hpl',hent'⟩ | ⟨-,hempty,-⟩
  · exact ⟨hpl'.trans hpl,hent'.trans hent⟩
  · exact absurd (hpl ▸ hempty) he

end Conserved

/-! ### The invariant of the machine -/

namespace WritePath

def empties (s : WritePath α) : List Nat := s.ftl.wcb.emptyLun.toList s.ftl.wcb.link

def fulls (s : WritePath α) : List Nat := s.ftl.wcb.fullLun.toList s.ftl.wcb.link

def part (s : WritePath α) : Nat := s.ftl.wcb.partialEntity.getD 0

/-- Where entity `e` is. -/
def place (s : WritePath α) (e : Nat) : Place :=
  if cbEntitysCnt ≤ e then .outside
  else if e ∈ s.empties then .empty
  else if e ∈ s.fulls then .full
  else if e = s.part then .open
  else if heldBy s.pending e = [] then .flight
  else .closing

def Sane (s : WritePath α) : Prop :=
  Conserved s.ftl s.pending s.inflight s.place s.empties s.fulls s.part

end WritePath

/-- The state determines its queues and places. -/
theorem Conserved.eq_place {s : WritePath α} {pl : Nat → Place} {eq fq : List Nat} {e₀ : Nat}
    (h : Conserved s.ftl s.pending s.inflight pl eq fq e₀) :
    s.place = pl ∧ s.empties = eq ∧ s.fulls = fq ∧ s.part = e₀ := by
  have heq : s.empties = eq := h.empties.toList_eq
  have hfq : s.fulls = fq := h.fulls.toList_eq
  have hpart : s.part = e₀ := by rw [WritePath.part,h.isPart]; rfl
  refine ⟨funext fun e => ?_,heq,hfq,hpart⟩
  have hok := h.ents e
  have ho := h.outside_iff e
  have he := h.empty_iff e
  have hf := h.full_iff e
  have hop := h.open_iff e
  rw [WritePath.place,heq,hfq,hpart]
  generalize pl e = k at hok ho he hf hop ⊢
  cases k with
  | outside => rw [if_pos (ho.mp rfl)]
  | empty => rw [if_neg (by simpa using ho),if_pos (he.mpr rfl)]
  | full => rw [if_neg (by simpa using ho),if_neg (by simpa using he),if_pos (hf.mpr rfl)]
  | «open» =>
    rw [if_neg (by simpa using ho),if_neg (by simpa using he),if_neg (by simpa using hf),
      if_pos (hop.mp rfl)]
  | closing =>
    rw [if_neg (by simpa using ho),if_neg (by simpa using he),if_neg (by simpa using hf),
      if_neg (by simpa using hop),if_neg hok.2.1]
  | flight =>
    rw [if_neg (by simpa using ho),if_neg (by simpa using he),if_neg (by simpa using hf),
      if_neg (by simpa using hop),if_pos hok.1]

theorem Conserved.sane {s : WritePath α} {pl : Nat → Place} {eq fq : List Nat} {e₀ : Nat}
    (h : Conserved s.ftl s.pending s.inflight pl eq fq e₀) : s.Sane := by
  obtain ⟨hpl,heq,hfq,he₀⟩ := h.eq_place
  rw [WritePath.Sane,hpl,heq,hfq,he₀]
  exact h

/-- Places after initialisation. -/
def initPlace (e : Nat) : Place :=
  if cbEntitysCnt ≤ e then .outside else if e = 0 then .open else .empty

private theorem initPlace_cases (e : Nat) : 16 ≤ e ∧ initPlace e = .outside ∨
    e = 0 ∧ initPlace e = .open ∨ (e < 16 ∧ e ≠ 0 ∧ initPlace e = .empty) := by
  have hcnt := cbEntitysCnt_eq
  by_cases h1 : cbEntitysCnt ≤ e
  · exact Or.inl ⟨hcnt ▸ h1,if_pos h1⟩
  · by_cases h2 : e = 0
    · exact Or.inr (Or.inl ⟨h2,by rw [initPlace,if_neg h1,if_pos h2]⟩)
    · exact Or.inr (Or.inr ⟨by omega,h2,by rw [initPlace,if_neg h1,if_neg h2]⟩)

theorem conserved_init {f : Ftl α} {free : List Nat} (h : Booted f free) :
    Conserved (WritePath.init f).ftl (WritePath.init f).pending (WritePath.init f).inflight initPlace
      (List.range' 1 (cbEntitysCnt - 1)) [] 0 := by
  refine ⟨⟨_,h.pool⟩,h.ready.isPart,h.ready.queue,?_,?_,?_,?_,?_,?_,?_⟩
  · rw [show (WritePath.init f).ftl = f from rfl,h.fullLun]
    exact Fifo.holds_init _
  · intro e
    simp only [cbEntitysCnt_eq,List.mem_range'_1]
    rcases initPlace_cases e with ⟨h1,hp⟩ | ⟨h1,hp⟩ | ⟨h1,h2,hp⟩ <;> simp [hp] <;> omega
  · intro e
    rcases initPlace_cases e with ⟨-,hp⟩ | ⟨-,hp⟩ | ⟨-,-,hp⟩ <;> simp [hp]
  · intro e
    rcases initPlace_cases e with ⟨h1,hp⟩ | ⟨h1,hp⟩ | ⟨h1,h2,hp⟩ <;> simp [hp] <;> omega
  · intro e
    simp only [cbEntitysCnt_eq]
    rcases initPlace_cases e with ⟨h1,hp⟩ | ⟨h1,hp⟩ | ⟨h1,h2,hp⟩ <;> simp [hp] <;> omega
  · intro e
    rcases initPlace_cases e with ⟨-,hp⟩ | ⟨rfl,hp⟩ | ⟨-,-,hp⟩
    · rw [hp]
      exact ⟨rfl,rfl⟩
    · rw [hp]
      obtain ⟨hpos,hfill⟩ := h.zero 0
      refine ⟨h.ready.pos,⟨List.nodup_nil,by simp [WritePath.init,WritePath.pending],?_⟩,rfl⟩
      change (f.ent 0).fillCnt + 0 = (f.ent 0).pos
      rw [hpos,hfill]
    · rw [hp]
      exact ⟨rfl,rfl⟩
  · have hzero : countWhere (Finset.range cbEntitysCnt) initPlace (· = .flight) = 0 := by
      rw [countWhere,Finset.card_eq_zero,Finset.filter_eq_empty_iff]
      intro e _ he
      rcases initPlace_cases e with ⟨-,hp⟩ | ⟨-,hp⟩ | ⟨-,-,hp⟩ <;> rw [hp] at he <;> cases he
    rw [hzero]
    exact h.outstandingLun

theorem sane_init {f : Ftl α} {free : List Nat} (h : Booted f free) : (WritePath.init f).Sane :=
  (conserved_init h).sane

/-- The uncopied slots, seen from one call that is replaced. -/
theorem pending_set {s : WritePath α} {i : Nat} {c : BioCall α} (hc : s.calls[i]? = some c) :
    ∃ rest, s.pending.Perm (c.pending ++ rest) ∧
      ∀ c', ((s.calls.set i c').flatMap BioCall.pending).Perm (c'.pending ++ rest) :=
  flatMap_set_perm hc BioCall.pending

theorem pending_allotted {s : WritePath α} {i : Nat} {c : BioCall α} (r : AllocResult α)
    (hc : s.calls[i]? = some c) (hpc : c.pc = .start) :
    (s.pending ++ ctxSlots r.ctxs).Perm (s.allotted i c r).pending := by
  obtain ⟨rest,hold,hnew⟩ := pending_set hc
  rw [show c.pending = [] by simp [BioCall.pending,hpc],List.nil_append] at hold
  exact ((hold.append_right _).trans List.perm_append_comm).trans
    (hnew ⟨c.bio,.flush (ctxSlots r.ctxs) 0,r.ctxs,r.ppas⟩).symm

/-- How a step moves entities between places. -/
inductive Shift (s s' : WritePath α) : Label α → Prop
  | same (l : Label α) (hl : l ≠ .submit) (hplace : s'.place = s.place) (hempties : s'.empties = s.empties)
      (hfulls : s'.fulls = s.fulls) (hpart : s'.part = s.part) : Shift s s' l
  | alloc (i : Nat) (hpc : ∀ c, s'.calls[i]? = some c → ∃ todo, c.pc = .flush todo 0)
      (hfulls : s'.fulls = s.fulls)
      (hplace : ∀ e, s.place e ≠ .open → s.place e ≠ .empty →
        s'.place e = s.place e ∧ s'.ftl.ent e = s.ftl.ent e) :
      Shift s s' (.wcbSection i)
  | filled (i e : Nat) (hclosing : s.place e = .closing)
      (hplace : s'.place = Function.update s.place e .full) (hempties : s'.empties = s.empties)
      (hfulls : s'.fulls = s.fulls ++ [e]) (hpart : s'.part = s.part)
      (hlast : ∃ c p todo adv, s.calls[i]? = some c ∧ c.pc = .flush ((e,p) :: todo) adv ∧
        (s.ftl.ent e).fillCnt + 1 = raidLunSecNum) : Shift s s' (.copySlot i)
  | submitted (e : Nat) (hfulls : s.fulls = e :: s'.fulls)
      (hplace : s'.place = Function.update s.place e .flight) (hempties : s'.empties = s.empties)
      (hpart : s'.part = s.part) : Shift s s' .submit
  | emptied (e line : Nat) (hflight : s.place e = .flight)
      (hplace : s'.place = Function.update s.place e .empty) (hempties : s'.empties = s.empties ++ [e])
      (hfulls : s'.fulls = s.fulls) (hpart : s'.part = s.part)
      (hlast : lineFlag (s.ftl.ent e).cqeFlag line = 255) : Shift s s' (.complete e line)

private theorem Shift.of_conserved {s s' : WritePath α} {l : Label α} {pl : Nat → Place}
    {eq fq : List Nat} {e₀ : Nat} (h : Conserved s'.ftl s'.pending s'.inflight pl eq fq e₀)
    (hshift : s'.place = pl → s'.empties = eq → s'.fulls = fq → s'.part = e₀ → Shift s s' l) :
    s'.Sane ∧ Shift s s' l := by
  obtain ⟨hpl,heq,hfq,he₀⟩ := h.eq_place
  exact ⟨h.sane,hshift hpl heq hfq he₀⟩

theorem Effect.sane {s s' : WritePath α} {l : Label α} (hs : s.Sane) (h : Effect s l s') :
    s'.Sane ∧ Shift s s' l := by
  have hrefl := List.Perm.refl s.inflight
  cases h with
  | begin bio =>
    refine Shift.of_conserved (hs.perm (List.Perm.of_eq ?_) hrefl) (.same _ (by simp))
    simp [WritePath.pending,BioCall.pending]
  | @resubmit i c hc hpc hav =>
    obtain ⟨rest,hold,hnew⟩ := pending_set hc
    refine Shift.of_conserved (hs.perm (hold.trans ?_) hrefl) (.same _ (by simp))
    have hcp : c.pending = [] := by simp [BioCall.pending,hpc]
    rw [hcp]
    exact (hnew { c with pc := .returned .resubmit }).symm
  | @alloc i c r hc hpc hav hr =>
    obtain ⟨-,-,hall⟩ := allocWcbCore_sound hr
    obtain ⟨pl',eq',e',hcons,hsame⟩ := hs.allotPages hall
    refine Shift.of_conserved (hcons.perm (pending_allotted r hc hpc) hrefl)
      fun hpl _ hfq _ => .alloc i ?_ hfq (hpl ▸ hsame)
    intro d hd
    rcases getElem?_set_cases hd with ⟨-,rfl⟩ | ⟨hne,-⟩
    · exact ⟨_,rfl⟩
    · exact absurd rfl hne
  | @copy i c slot todo adv hc hpc =>
    obtain ⟨rest,hold,hnew⟩ := pending_set hc
    obtain ⟨e,p⟩ := slot
    have hcp : c.pending = (e,p) :: todo := by simp [BioCall.pending,hpc]
    rw [hcp] at hold
    have hs' := hs.perm hold hrefl
    have hperm := (hnew { c with pc := .flush todo (flushSlot s.ftl c.bio adv (e,p)).2 }).symm
    by_cases hfull : (s.ftl.ent e).fillCnt + 1 = raidLunSecNum
    · have hcl := (hs'.last_copy hfull).1
      exact Shift.of_conserved ((hs'.copy_filled c.bio adv hfull).perm hperm hrefl)
        fun hpl heq hfq he₀ => .filled i e hcl hpl heq hfq he₀ ⟨c,p,todo,adv,hc,hpc,hfull⟩
    · exact Shift.of_conserved ((hs'.copy_unfilled c.bio adv hfull).perm hperm hrefl) (.same _ (by simp))
  | @map i c adv f hc hpc hf =>
    obtain ⟨rest,hold,hnew⟩ := pending_set hc
    obtain ⟨hwcb,hsys,-⟩ := setL2ptblWritePath_ok hf
    have hcp : c.pending = [] := by simp [BioCall.pending,hpc]
    rw [hcp] at hold
    have hs' := hs.perm (hold.trans (hnew { c with pc := .returned .complete }).symm) hrefl
    refine Shift.of_conserved ⟨hsys ▸ hs'.pool,?_,?_,?_,hs'.empty_iff,hs'.full_iff,hs'.open_iff,
      hs'.outside_iff,?_,?_⟩ (.same _ (by simp))
    · rw [hwcb]
      exact hs'.isPart
    · rw [hwcb]
      exact hs'.empties
    · rw [hwcb]
      exact hs'.fulls
    · intro e
      simp only [Ftl.ent,hwcb]
      exact hs'.ents e
    · rw [hwcb]
      exact hs'.outstanding
  | @submit e q ln hp =>
    cases hfq : s.fulls with
    | nil =>
      have hnone := (Fifo.pull_eq_none_iff hs.fulls).mpr hfq
      rw [hnone] at hp
      cases hp
    | cons x fq' =>
      have hs' : Conserved s.ftl s.pending s.inflight s.place s.empties (x :: fq') s.part := hfq ▸ hs
      obtain ⟨q',ln',hpull,hq,hln⟩ := hs'.fulls.pull
      rw [hpull,Option.some.injEq,Prod.mk.injEq,Prod.mk.injEq] at hp
      obtain ⟨rfl,rfl,rfl⟩ := hp
      have hcons := hs'.submit hq hln
      rw [← nvmeWrppaLun_lines] at hcons
      exact Shift.of_conserved hcons fun hpl heq hfq' he₀ =>
        .submitted x (hfq'.symm ▸ hfq) hpl heq he₀
  | @complete e line hm =>
    have hs' := hs.perm (List.Perm.refl _) (List.perm_cons_erase hm)
    by_cases hlast : lineFlag (s.ftl.ent e).cqeFlag line = 255
    · exact Shift.of_conserved (hs'.complete_last hlast)
        fun hpl heq hfq he₀ => .emptied e line (hs.flying_of_line hm).1 hpl heq hfq he₀ hlast
    · exact Shift.of_conserved (hs'.complete_more hlast) (.same _ (by simp))

theorem sane_of_reaches {ok : WritePath α → Label α → Prop} {s s' : WritePath α} (hs : s.Sane)
    (h : Reaches WritePath.step ok s s') : s'.Sane :=
  h.invariant WritePath.Sane hs fun _ _ _ ht _ hl => ((step_effect hl).sane ht).1

/-- The guard is sound: what `wcb_available` lets pass, `alloc_wcb_core` can serve. -/
theorem allocWcbCore_of_ready {f : Ftl α} {e : Nat} {q free : List Nat} (hr : Ready f e q)
    (hpool : Pool f.sys free) {n : Nat} (slba : Nat) (h1 : 1 ≤ n) (hn : n ≤ raidLunSecNum)
    (hav : wcbAvailable f n = .ok true) : ∃ r, allocWcbCore f slba n = .ok r ∧ r.ret = 0 := by
  have hpos := hr.pos
  simp only [raidLunSecNum_eq] at hn hpos
  have hq : ((f.ent e).pos + n) / raidLunSecNum ≤ q.length := by
    rw [wcbAvailable_eq hr (by omega)] at hav
    simp only [Except.ok.injEq,Bool.not_eq_true',Bool.and_eq_false_imp,decide_eq_false_iff_not,
      raidLunSecNum_eq] at hav
    simp only [raidLunSecNum_eq]
    by_cases hroom : (f.ent e).pos + n < 128
    · rw [Nat.div_eq_of_lt hroom]
      exact Nat.zero_le _
    · have hlen := List.length_pos_iff.mpr (hav (decide_eq_true (by omega)))
      omega
  obtain ⟨ss,f',hall⟩ := allotPages_progress slba hr hpool hq
  obtain ⟨r,hcall,hret,-,-⟩ := allocWcbCore_complete hr.isPart h1 hr.pos
    (by simp only [raidLunSecNum_eq,maxUsedWcbEntitys_eq]; omega) hall
  exact ⟨r,hcall,hret⟩

theorem allocWcbCore_of_available {s : WritePath α} (hs : s.Sane) {n : Nat} (slba : Nat) (h1 : 1 ≤ n)
    (hn : n ≤ raidLunSecNum) (hav : wcbAvailable s.ftl n = .ok true) :
    ∃ r, allocWcbCore s.ftl slba n = .ok r ∧ r.ret = 0 := by
  obtain ⟨free,hpool⟩ := hs.pool
  exact allocWcbCore_of_ready hs.ready hpool slba h1 hn hav

/-- The places in terms of the driver's own variables, the calls and the outstanding commands. -/
def WritePath.At (s : WritePath α) (e : Nat) : Place → Prop
  | .outside => False
  | .empty => e ∈ s.empties
  | .full => e ∈ s.fulls
  | .open => s.ftl.wcb.partialEntity = some e ∧ (s.ftl.ent e).pos < raidLunSecNum
  | .closing => (s.ftl.ent e).pos = raidLunSecNum ∧ (s.ftl.ent e).fillCnt < raidLunSecNum ∧
      ∃ p, (e,p) ∈ s.pending
  | .flight => (s.ftl.ent e).cqeFlag ≠ bit2Mask cfgDriveLineNum ∧ ∃ line, (e,line) ∈ s.inflight

theorem WritePath.Sane.at_iff {s : WritePath α} (hs : s.Sane) {e : Nat} (he : e < cbEntitysCnt)
    (k : Place) : s.At e k ↔ s.place e = k := by
  have hne : s.place e ≠ .outside := fun hp => Nat.not_le.mpr he ((hs.outside_iff e).mp hp)
  cases k with
  | outside => exact iff_of_false id hne
  | empty => exact hs.empty_iff e
  | full => exact hs.full_iff e
  | «open» =>
    rw [hs.open_iff e,WritePath.At,hs.isPart,Option.some.injEq]
    constructor
    · exact fun h => h.1.symm
    · rintro rfl
      exact ⟨rfl,hs.open_ok.1⟩
  | closing =>
    constructor
    · rintro ⟨hpos,-,p,hp⟩
      rcases (hs.filling_of_pending hp).1 with ⟨-,hlt⟩ | ⟨hcl,-⟩
      · omega
      · exact hcl
    · intro hcl
      have hok := hs.ents e
      rw [hcl] at hok
      obtain ⟨hpos,hps,hfill,-⟩ := hok
      have hsum := hfill.fill
      have hlen := List.length_pos_iff.mpr hps
      obtain ⟨p,hp⟩ := List.exists_mem_of_ne_nil _ hps
      exact ⟨hpos,by omega,p,mem_heldBy.mp hp⟩
  | flight =>
    constructor
    · rintro ⟨-,line,hm⟩
      exact (hs.flying_of_line hm).1
    · intro hfl
      have hok := hs.ents e
      rw [hfl] at hok
      obtain ⟨-,hfly⟩ := hok
      refine ⟨hfly.flag_ne,?_⟩
      by_contra hno
      apply hfly.flag_ne
      refine Conserved.flag_eq_of_bits hfly.flag_lt fun l hl => ?_
      by_contra hbit
      exact hno ⟨l,mem_heldBy.mp ((hfly.mem l).mpr ⟨hl,by simpa using hbit⟩)⟩

/-- `fill_cnt` is the number of allotted slots that are copied. -/
theorem WritePath.Sane.fillCnt_eq {s : WritePath α} (hs : s.Sane) {e : Nat}
    (he : s.place e = .open ∨ s.place e = .closing) :
    (s.ftl.ent e).fillCnt =
      ((Finset.range (s.ftl.ent e).pos).filter fun p => (e,p) ∉ s.pending).card := by
  have hok := hs.ents e
  have hfill : Filling (s.ftl.ent e) (heldBy s.pending e) := by
    rcases he with he | he
    · rw [he] at hok
      exact hok.2.1
    · rw [he] at hok
      exact hok.2.2.1
  have hset : ((Finset.range (s.ftl.ent e).pos).filter fun p => (e,p) ∉ s.pending) =
      Finset.range (s.ftl.ent e).pos \ (heldBy s.pending e).toFinset := by
    ext p
    simp
  have hsub : (heldBy s.pending e).toFinset ⊆ Finset.range (s.ftl.ent e).pos := by
    intro p hp
    exact Finset.mem_range.mpr (hfill.lt p (List.mem_toFinset.mp hp))
  have hsum := hfill.fill
  rw [hset,Finset.card_sdiff_of_subset hsub,Finset.card_range,
    List.toFinset_card_of_nodup hfill.nodup]
  omega

/-- `outstanding_lun` is the number of entities with an outstanding command. -/
theorem WritePath.Sane.outstandingLun_eq {s : WritePath α} (hs : s.Sane) :
    s.ftl.wcb.outstandingLun = (s.inflight.map Prod.fst).dedup.length := by
  rw [hs.outstanding,countWhere,← List.card_toFinset]
  congr 2
  ext e
  rw [Finset.mem_filter,Finset.mem_range,List.mem_toFinset,List.mem_map]
  constructor
  · rintro ⟨he,hfl⟩
    obtain ⟨-,line,hm⟩ := (hs.at_iff he .flight).mpr hfl
    exact ⟨(e,line),hm,rfl⟩
  · rintro ⟨⟨x,line⟩,hm,rfl⟩
    have hfl := (hs.flying_of_line hm).1
    exact ⟨hs.lt_of_ne_outside (by simp [hfl]),hfl⟩

/-- In every state of every run after initialisation each entity is in exactly one place, an entity
is open, `fill_cnt` counts the copied slots of an open or closing entity, `outstanding_lun` counts
the entities in flight, and a request of 1 to 128 pages that passes `wcb_available` is served. -/
theorem wcb_entities_conserved {mcp : Bool} {d : Discovery} {b : BootPages} {dma : Nat → EntityDma}
    {f₀ : Ftl α} {s : WritePath α} (hinit : fscftlModuleInit mcp d b dma = .ok (some f₀))
    (hrun : Reaches WritePath.step always (WritePath.init f₀) s) :
    (∀ e, e < cbEntitysCnt → ∃! k, s.At e k) ∧
    (∃ e, e < cbEntitysCnt ∧ s.ftl.wcb.partialEntity = some e) ∧
    (∀ e, e < cbEntitysCnt → s.At e .open ∨ s.At e .closing → (s.ftl.ent e).fillCnt =
      ((Finset.range (s.ftl.ent e).pos).filter fun p => (e,p) ∉ s.pending).card) ∧
    s.ftl.wcb.outstandingLun = (s.inflight.map Prod.fst).dedup.length ∧
    ∀ slba n, 1 ≤ n → n ≤ raidLunSecNum → wcbAvailable s.ftl n = .ok true →
      ∃ r, allocWcbCore s.ftl slba n = .ok r ∧ r.ret = 0 := by
  obtain ⟨free,hboot,-,-⟩ := fscftlModuleInit_booted hinit
  have hs := sane_of_reaches (sane_init hboot) hrun
  refine ⟨?_,?_,?_,hs.outstandingLun_eq,?_⟩
  · intro e he
    exact ⟨s.place e,(hs.at_iff he _).mpr rfl,fun k hk => ((hs.at_iff he k).mp hk).symm⟩
  · have hopen := (hs.open_iff s.part).mpr rfl
    exact ⟨s.part,hs.lt_of_ne_outside (by simp [hopen]),hs.isPart⟩
  · intro e he hat
    exact hs.fillCnt_eq (hat.imp (hs.at_iff he _).mp (hs.at_iff he _).mp)
  · intro slba n h1 hn hav
    exact allocWcbCore_of_available hs slba h1 hn hav

/-- A bio of three pages, allotted and with its first page copied. -/
theorem wcb_entities_conserved_copying : ∃ (f₀ : Ftl Nat) (s : WritePath Nat),
    fscftlModuleInit true .clean ⟨true,true⟩ (fun _ => ⟨0,0,0⟩) = .ok (some f₀) ∧
    Reaches WritePath.step always (WritePath.init f₀) s ∧ s.pending.length = 2 ∧
    ∀ e, e < cbEntitysCnt → ∃! k, s.At e k := by
  obtain ⟨f₀,free,hinit,hboot,-⟩ := manufactory_booted (α := Nat) .clean ⟨true,true⟩
    (fun _ => ⟨0,0,0⟩)
  let c : BioCall Nat := ⟨⟨0,[10,11,12],by decide⟩,.start,[],[]⟩
  let s₁ : WritePath Nat := { WritePath.init f₀ with calls := [c] }
  have h₁ : Effect (WritePath.init f₀) (.begin c.bio) s₁ := Effect.begin c.bio
  have hs₁ : s₁.Sane := (h₁.sane (sane_init hboot)).1
  have hn : c.nrPpas = 3 := getBioNppa_eq _
  have hav : wcbAvailable s₁.ftl c.nrPpas = .ok true := by
    rw [hn]
    refine (wcbAvailable_eq hboot.ready (by decide)).trans ?_
    rw [(hboot.zero 0).1]
    rfl
  obtain ⟨r,hr,-⟩ := allocWcbCore_of_available hs₁ c.slba (by rw [hn]; decide) (by rw [hn]; decide) hav
  have h₂ : Effect s₁ (.wcbSection 0) (s₁.allotted 0 c r) := Effect.alloc rfl rfl hav hr
  obtain ⟨-,-,hall⟩ := allocWcbCore_sound hr
  have hlen : (ctxSlots r.ctxs).length = 3 := by
    rw [(allotPages_written hboot.ready hall).2.1,hn]
    decide
  obtain ⟨slot,todo,hslots⟩ := List.exists_cons_of_length_eq_add_one hlen
  have hc : (s₁.allotted 0 c r).calls[0]? = some ⟨c.bio,.flush (slot :: todo) 0,r.ctxs,r.ppas⟩ := by
    rw [← hslots]
    rfl
  have h₃ := Effect.copy hc rfl
  have hrun : Reaches WritePath.step always (WritePath.init f₀) _ :=
    (((Reaches.refl _).tail trivial h₁.step).tail trivial h₂.step).tail trivial h₃.step
  have hpend : todo.length = 2 := by
    rw [hslots,List.length_cons] at hlen
    omega
  exact ⟨f₀,_,hinit,hrun,by simpa [WritePath.pending,WritePath.allotted,s₁,BioCall.pending] using hpend,
    (wcb_entities_conserved hinit hrun).1⟩

end Sdssd.Host
