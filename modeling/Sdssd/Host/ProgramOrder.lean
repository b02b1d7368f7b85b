import Sdssd.Host.Schedules

/-!
# The order in which stripes are programmed

Stripes are opened in increasing address order, but an entity joins `full_lun` when its last slot has
been copied. The pages of a LUN are programmed in order as long as no entity overtakes one that holds
an earlier page of its LUN.
-/

namespace Sdssd.Host

open Framework

variable {α : Type}

/-- `a` may be programmed before `b`: if they are pages of one LUN, then that of `a` is earlier. -/
def Before (a b : GeoPpa) : Prop :=
  Nand.blk.get a = Nand.blk.get b → Nand.lun.get a = Nand.lun.get b → Nand.pg.get a < Nand.pg.get b

/-- Block, LUN and page of the `m`-th stripe that is opened. -/
theorem stripe_fields {all : List Nat} {m : Nat} {w : GeoPpa} (hlt : ∀ b ∈ all, b < cfgNandBlockNum)
    (hm : m / 4096 < all.length) (hw : w.toNat = pageAt all (128 * m)) :
    Nand.blk.get w = all[m / 4096] ∧ Nand.lun.get w = m % 8 ∧ Nand.pg.get w = m / 8 % 512 := by
  have hb := hlt _ (List.getElem_mem hm)
  have hdiv : 128 * m / blockPages = m / 4096 := by
    rw [blockPages_eq]
    omega
  rw [pageAt,hdiv,List.getD_eq_getElem _ _ hm] at hw
  rw [nand_blk_eq,nand_lun_eq,nand_pg_eq,hw]
  simp only [blockPages_eq,cfgNandBlockNum_eq] at hb ⊢
  generalize all[m / 4096] = a at hb ⊢
  omega

theorem stripe_before {all : List Nat} {m n : Nat} {a b : GeoPpa} (hlt : ∀ b ∈ all, b < cfgNandBlockNum)
    (hnodup : all.Nodup) (hn : n / 4096 < all.length) (hmn : m < n) (ha : a.toNat = pageAt all (128 * m))
    (hb : b.toNat = pageAt all (128 * n)) : Before a b := by
  have hm : m / 4096 < all.length := Nat.lt_of_le_of_lt (Nat.div_le_div_right (Nat.le_of_lt hmn)) hn
  obtain ⟨hablk,halun,hapg⟩ := stripe_fields hlt hm ha
  obtain ⟨hbblk,hblun,hbpg⟩ := stripe_fields hlt hn hb
  intro hblk hlun
  rw [hablk,hbblk] at hblk
  have heq : m / 4096 = n / 4096 := (hnodup.getElem_inj_iff).mp hblk
  rw [halun,hblun] at hlun
  rw [hapg,hbpg]
  omega

/-- The previous page of the same LUN is the stripe eight earlier. -/
theorem stripe_previous {all : List Nat} {m : Nat} {w : GeoPpa} (hlt : ∀ b ∈ all, b < cfgNandBlockNum)
    (hm : m / 4096 < all.length) (hw : w.toNat = pageAt all (128 * m)) (hpg : 0 < Nand.pg.get w)
    {v : GeoPpa} (hv : v.toNat = pageAt all (128 * (m - 8))) : 8 ≤ m ∧
      Nand.blk.get v = Nand.blk.get w ∧ Nand.lun.get v = Nand.lun.get w ∧
      Nand.pg.get v + 1 = Nand.pg.get w := by
  obtain ⟨hblk,hlun,hpg'⟩ := stripe_fields hlt hm hw
  rw [hpg'] at hpg
  have hdiv : (m - 8) / 4096 = m / 4096 := by omega
  obtain ⟨hvblk,hvlun,hvpg⟩ := stripe_fields hlt (hdiv ▸ hm) hv
  refine ⟨by omega,?_,by rw [hvlun,hlun]; omega,by rw [hvpg,hpg']; omega⟩
  rw [hvblk,hblk]
  congr 1

/-- The stripes in `done` were programmed or are queued in this order, after `k` pages of the blocks
`all` have been handed out. -/
structure Ordered (f : Ftl α) (pl : Nat → Place) (done : List GeoPpa) (all : List Nat) (k : Nat) :
    Prop where
  frontier : Frontier f all k
  known : ∀ w ∈ done, ∃ m, 128 * m ≤ k ∧ w.toNat = pageAt all (128 * m)
  filling : ∀ x, pl x = .open ∨ pl x = .closing →
    (∃ m, 128 * m ≤ k ∧ (f.ent x).baddr.toNat = pageAt all (128 * m)) ∧
      ∀ w ∈ done, Before w (f.ent x).baddr
  cover : ∀ m, 128 * m ≤ k → (∃ w ∈ done, w.toNat = pageAt all (128 * m)) ∨
    ∃ x, (pl x = .open ∨ pl x = .closing) ∧ (f.ent x).baddr.toNat = pageAt all (128 * m)
  order : done.Pairwise Before
  previous : ∀ xs w ys, done = xs ++ w :: ys → 0 < Nand.pg.get w → ∃ v ∈ xs,
    Nand.blk.get v = Nand.blk.get w ∧ Nand.lun.get v = Nand.lun.get w ∧ Nand.pg.get v + 1 = Nand.pg.get w

variable {f f' : Ftl α} {pend : List Slot} {infl : List (Nat × Nat)} {pl : Nat → Place}
  {eq fq : List Nat} {e₀ : Nat} {done : List GeoPpa} {all : List Nat} {k : Nat}

/-- One allotment opens at most the next stripe. -/
theorem Allot.ordered {e' lba : Nat} {q' : List Nat} (hc : Conserved f pend infl pl eq fq e₀)
    (ho : Ordered f pl done all k) (hcov : (k + 1) / blockPages < all.length)
    (h : Allot f e₀ eq lba f' e' q') :
    ∃ pl', Conserved f' ((e₀,(f.ent e₀).pos) :: pend) infl pl' q' fq e' ∧
      Ordered f' pl' done all (k + 1) ∧ ∀ e, pl e ≠ .open → pl e ≠ .empty →
        pl' e = pl e ∧ f'.ent e = f.ent e := by
  have hfr := h.frontier hc.ready ho.frontier hcov
  obtain ⟨pl',hc',hopened⟩ := hc.allot h
  have hopen : pl e₀ = .open := (hc.open_iff e₀).mpr rfl
  have hnew : (f'.ent e').baddr.toNat + (k + 1) % 128 = pageAt all (k + 1) := by
    obtain ⟨hcur,-,hpos⟩ := hfr.partial_eq hc'.isPart hc'.open_ok.1
    rw [hpos] at hcur
    exact hcur
  have hsame (e : Nat) (h1 : pl e ≠ .open) (h2 : pl e ≠ .empty) : pl' e = pl e ∧ f'.ent e = f.ent e := by
    have hne : e ≠ e₀ := fun he => h1 (he ▸ hopen)
    exact (hopened.other e hne).resolve_right fun hx => h2 hx.2.1
  refine ⟨pl',hc',⟨hfr,?_,?_,?_,ho.order,ho.previous⟩,hsame⟩
  · intro w hw
    obtain ⟨m,hm,hwm⟩ := ho.known w hw
    exact ⟨m,by omega,hwm⟩
  · intro x hx
    have keep (hx : pl x = .open ∨ pl x = .closing) (hb : (f'.ent x).baddr = (f.ent x).baddr) :
        (∃ m, 128 * m ≤ k + 1 ∧ (f'.ent x).baddr.toNat = pageAt all (128 * m)) ∧
          ∀ w ∈ done, Before w (f'.ent x).baddr := by
      obtain ⟨⟨m,hm,hwm⟩,hbefore⟩ := ho.filling x hx
      rw [hb]
      exact ⟨⟨m,by omega,hwm⟩,hbefore⟩
    rcases eq_or_ne x e₀ with rfl | hne
    · exact keep (Or.inl hopen) hopened.old_ent.1
    · rcases hopened.other x hne with ⟨hpl,hent⟩ | ⟨rfl,-,-,hpos,-⟩
      · exact keep (hpl ▸ hx) (by rw [hent])
      · -- the next stripe comes after all that are done
        have hzero := (hfr.partial_eq hc'.isPart hc'.open_ok.1).2.2
        rw [hpos,raidLunSecNum_eq] at hzero
        have hk : 128 * ((k + 1) / 128) = k + 1 := by omega
        rw [← hzero,Nat.add_zero,← hk] at hnew
        refine ⟨⟨(k + 1) / 128,Nat.le_of_eq hk,hnew⟩,fun w hw => ?_⟩
        obtain ⟨m,hm,hwm⟩ := ho.known w hw
        rw [blockPages_eq] at hcov
        exact stripe_before hfr.lt hfr.nodup (by omega) (by omega) hwm hnew
  · intro m hm
    by_cases hmk : 128 * m ≤ k
    · refine (ho.cover m hmk).imp id ?_
      rintro ⟨x,hx,hb⟩
      rcases hx with hx | hx
      · obtain rfl := (hc.open_iff x).mp hx
        exact ⟨x,hopened.old,by rw [hopened.old_ent.1,hb]⟩
      · obtain ⟨hpl,hent⟩ := hsame x (by simp [hx]) (by simp [hx])
        exact ⟨x,Or.inr (hpl.trans hx),by rw [hent,hb]⟩
    · have hk : 128 * m = k + 1 := by omega
      refine Or.inr ⟨e',Or.inl ((hc'.open_iff e').mpr rfl),?_⟩
      rw [hk,← hnew]
      omega

theorem Conserved.allotPages_ordered {n lba : Nat} {ss : List Slot}
    (hc : Conserved f pend infl pl eq fq e₀) (ho : Ordered f pl done all k)
    (hcov : (k + n) / blockPages < all.length) (ha : Host.allotPages n f lba = .ok (ss,f')) :
    ∃ pl' eq' e', Conserved f' (pend ++ ss) infl pl' eq' fq e' ∧ Ordered f' pl' done all (k + n) ∧
      ∀ e, pl e ≠ .open → pl e ≠ .empty → f'.ent e = f.ent e := by
  let P (ss : List Slot) (g : Ftl α) (x : Nat) (qs : List Nat) : Prop :=
    ∃ pl', Conserved g (pend ++ ss) infl pl' qs fq x ∧ Ordered g pl' done all (k + ss.length) ∧
      ∀ e, pl e ≠ .open → pl e ≠ .empty → pl' e = pl e ∧ g.ent e = f.ent e
  have h0 : P [] f e₀ eq := ⟨pl,by simpa using hc,ho,fun _ _ _ => ⟨rfl,rfl⟩⟩
  suffices hstep : ∀ ss g x qs g' x' qs', ss.length < n → Ready g x qs → P ss g x qs →
      Allot g x qs (lba + ss.length) g' x' qs' → P (ss ++ [(x,(g.ent x).pos)]) g' x' qs' by
    obtain ⟨hlen,e',q',-,pl',hc',ho',hsame⟩ := allotPages_induct P hc.ready h0 hstep ha
    exact ⟨pl',q',e',hc',hlen ▸ ho',fun e h1 h2 => (hsame e h1 h2).2⟩
  rintro ss g x qs g' x' qs' hlt - ⟨pl',hg,hgo,hsame⟩ hall
  have hcov' : (k + ss.length + 1) / blockPages < all.length :=
    Nat.lt_of_le_of_lt (Nat.div_le_div_right (by omega)) hcov
  have hperm : ((x,(g.ent x).pos) :: (pend ++ ss)).Perm (pend ++ (ss ++ [(x,(g.ent x).pos)])) := by
    rw [← List.append_assoc]
    exact (List.perm_append_singleton _ _).symm
  obtain ⟨pl'',hg',hgo',hsame'⟩ := hall.ordered hg hgo hcov'
  refine ⟨pl'',hg'.perm hperm (List.Perm.refl _),?_,fun e h1 h2 => ?_⟩
  · rw [List.length_append,List.length_singleton,← Nat.add_assoc]
    exact hgo'
  · obtain ⟨hpl,hent⟩ := hsame e h1 h2
    obtain ⟨hpl',hent'⟩ := hsame' e (hpl ▸ h1) (hpl ▸ h2)
    exact ⟨hpl'.trans hpl,hent'.trans hent⟩

/-- The stripes submitted so far, and then those queued in `full_lun`. -/
def WritePath.stripes (s : WritePath α) : List GeoPpa :=
  s.programmed ++ s.fulls.map fun e => (s.ftl.ent e).baddr

/-- A copy that fills an entity finds no earlier page of its LUN in an entity that is open or still
being filled, and every block switch finds the free pool non-empty. -/
def fillsInOrder (s : WritePath α) : Label α → Prop
  | .copySlot i => ∀ c slot todo adv, s.calls[i]? = some c → c.pc = .flush (slot :: todo) adv →
      (s.ftl.ent slot.1).fillCnt + 1 = raidLunSecNum → ∀ x, x < cbEntitysCnt → x ≠ slot.1 →
        s.At x .open ∨ s.At x .closing → Before (s.ftl.ent slot.1).baddr (s.ftl.ent x).baddr
  | .wcbSection i => ∀ c, s.calls[i]? = some c → wcbAvailable s.ftl c.nrPpas = .ok true →
      PoolCovers s.ftl (allotCount c.nrPpas)
  | _ => True

/-- Steps other than allocations and fills. -/
theorem Ordered.frame {pl' : Nat → Place} (h : Ordered f pl done all k) (hf : Frame f f')
    (hfill : ∀ x, pl' x = .open ∨ pl' x = .closing ↔ pl x = .open ∨ pl x = .closing) :
    Ordered f' pl' done all k := by
  refine ⟨hf.frontier h.frontier,h.known,fun x hx => ?_,fun m hm => ?_,h.order,h.previous⟩
  · rw [hf.baddr]
    exact h.filling x ((hfill x).mp hx)
  · refine (h.cover m hm).imp id ?_
    rintro ⟨x,hx,hb⟩
    exact ⟨x,(hfill x).mpr hx,by rw [hf.baddr,hb]⟩

/-- A stripe that is filled joins the end. Its predecessor has been there before: it is not in an
entity that is still being filled. -/
theorem Ordered.fill {e : Nat} (h : Ordered f pl done all k) (hf : Frame f f') (hcl : pl e = .closing)
    (hbefore : ∀ x, x ≠ e → pl x = .open ∨ pl x = .closing → Before (f.ent e).baddr (f.ent x).baddr) :
    Ordered f' (Function.update pl e .full) (done ++ [(f.ent e).baddr]) all k := by
  obtain ⟨⟨m,hm,hb⟩,hdone⟩ := h.filling e (Or.inr hcl)
  refine ⟨hf.frontier h.frontier,?_,?_,?_,?_,?_⟩
  · intro w hw
    rcases List.mem_append.mp hw with hw | hw
    · exact h.known w hw
    · exact ⟨m,hm,List.mem_singleton.mp hw ▸ hb⟩
  · intro x hx
    rcases eq_or_ne x e with rfl | hne
    · simp at hx
    · rw [Function.update_of_ne hne] at hx
      obtain ⟨hx₁,hx₂⟩ := h.filling x hx
      rw [hf.baddr]
      refine ⟨hx₁,fun w hw => ?_⟩
      rcases List.mem_append.mp hw with hw | hw
      · exact hx₂ w hw
      · exact List.mem_singleton.mp hw ▸ hbefore x hne hx
  · intro j hj
    rcases h.cover j hj with ⟨w,hw,hwj⟩ | ⟨x,hx,hxj⟩
    · exact Or.inl ⟨w,List.mem_append_left _ hw,hwj⟩
    · rcases eq_or_ne x e with rfl | hne
      · exact Or.inl ⟨_,by simp,hxj⟩
      · exact Or.inr ⟨x,by rwa [Function.update_of_ne hne],by rw [hf.baddr,hxj]⟩
  · rw [List.pairwise_append]
    exact ⟨h.order,List.pairwise_singleton _ _,fun w hw v hv => List.mem_singleton.mp hv ▸ hdone w hw⟩
  · intro xs w ys hsplit hpg
    rcases List.eq_nil_or_concat ys with rfl | ⟨ys,z,rfl⟩
    · obtain ⟨rfl,hlast⟩ := List.append_inj' hsplit rfl
      obtain rfl := (List.cons.inj hlast).1
      have hin := h.frontier.inRange
      rw [blockPages_eq] at hin
      have hprev {v : GeoPpa} (hv : v.toNat = pageAt all (128 * (m - 8))) :=
        stripe_previous h.frontier.lt (by omega) hb hpg hv
      rcases h.cover (m - 8) (by omega) with ⟨v,hv,hvm⟩ | ⟨x,hx,hxm⟩
      · exact ⟨v,hv,(hprev hvm).2⟩
      · obtain ⟨-,hblk,hlun,hpg'⟩ := hprev hxm
        have hne : x ≠ e := by
          rintro rfl
          omega
        have hlt := hbefore x hne hx hblk.symm hlun.symm
        omega
    · rw [List.concat_eq_append,← List.cons_append,← List.append_assoc] at hsplit
      exact h.previous xs w ys (List.append_inj' hsplit rfl).1 hpg

/-- The stripes after a step that is framed and submits nothing. -/
private theorem stripes_of_frame {s s' : WritePath α} {new : List Nat}
    (hfulls : s'.fulls = s.fulls ++ new) (hf : Frame s.ftl s'.ftl)
    (hprog : s'.programmed = s.programmed) :
    s'.stripes = s.stripes ++ new.map fun e => (s.ftl.ent e).baddr := by
  simp only [WritePath.stripes,hprog,hfulls,hf.baddr,List.map_append,List.append_assoc]

private theorem stripes_of_submit {s s' : WritePath α} {e : Nat} (hfulls : s.fulls = e :: s'.fulls)
    (hf : Frame s.ftl s'.ftl) (hprog : s'.programmed = s.programmed ++ [(s.ftl.ent e).baddr]) :
    s'.stripes = s.stripes := by
  simp only [WritePath.stripes,hprog,hfulls,hf.baddr,List.map_cons,List.append_assoc,
    List.singleton_append]

theorem Effect.ordered {s s' : WritePath α} {l : Label α} (h : Effect s l s') (hs : s.Sane)
    (hok : fillsInOrder s l) (ho : Ordered s.ftl s.place s.stripes all k) :
    ∃ k', Ordered s'.ftl s'.place s'.stripes all k' := by
  obtain ⟨hs',hshift⟩ := h.sane hs
  have hrest (hf : Frame s.ftl s'.ftl) (hprog : s'.programmed = s.programmed)
      (hfulls : s'.fulls = s.fulls) (hfill : ∀ x, s'.place x = .open ∨ s'.place x = .closing ↔
        s.place x = .open ∨ s.place x = .closing) : ∃ k', Ordered s'.ftl s'.place s'.stripes all k' := by
    have hst := stripes_of_frame (hfulls.trans (List.append_nil _).symm) hf hprog
    rw [hst,List.map_nil,List.append_nil]
    exact ⟨k,ho.frame hf hfill⟩
  cases h with
  | begin bio =>
    cases hshift with
    | same _ _ hplace _ hfulls => exact hrest (Frame.refl _) rfl hfulls fun x => by rw [hplace]
  | @resubmit i c hc hpc hav =>
    cases hshift with
    | same _ _ hplace _ hfulls => exact hrest (Frame.refl _) rfl hfulls fun x => by rw [hplace]
    | alloc _ hpc' =>
      obtain ⟨todo,htodo⟩ := hpc' _ (getElem?_set_of_some hc _)
      cases htodo
  | @alloc i c r hc hpc hav hr =>
    obtain ⟨-,-,hall⟩ := allocWcbCore_sound hr
    have hcov := (ho.frontier.poolCovers_iff _).mp (hok c hc hav)
    obtain ⟨pl',eq',e',hcons,hord,hsame⟩ := hs.allotPages_ordered ho hcov hall
    have hcons' := hcons.perm (pending_allotted r hc hpc) (List.Perm.refl s.inflight)
    obtain ⟨hpl,-,hfulls,-⟩ := Conserved.eq_place (s := s.allotted i c r) hcons'
    have hst : (s.allotted i c r).stripes = s.stripes := by
      rw [WritePath.stripes,hfulls]
      refine congrArg (s.programmed ++ ·) (List.map_congr_left fun e he => ?_)
      have hfull := (hs.full_iff e).mp he
      exact congrArg WcbLunEntity.baddr (hsame e (by simp [hfull]) (by simp [hfull]))
    rw [hpl,hst]
    exact ⟨_,hord⟩
  | @copy i c slot todo adv hc hpc =>
    have hf := flushSlot_frame s.ftl c.bio adv slot
    cases hshift with
    | same _ _ hplace _ hfulls => exact hrest hf rfl hfulls fun x => by rw [hplace]
    | filled _ e hcl hplace _ hfulls _ hlast =>
      obtain ⟨c',p,todo',adv',hc',hpc',hfull⟩ := hlast
      rw [stripes_of_frame hfulls hf rfl,hplace]
      refine ⟨k,ho.fill hf hcl fun x hne hx => ?_⟩
      have hlt := hs.lt_of_ne_outside (e := x) (by rcases hx with hx | hx <;> simp [hx])
      exact hok c' (e,p) todo' adv' hc' hpc' hfull x hlt hne
        (hx.imp (hs.at_iff hlt _).mpr (hs.at_iff hlt _).mpr)
  | map hc hpc hf =>
    cases hshift with
    | same _ _ hplace _ hfulls =>
      exact hrest (setL2ptblWritePath_frame hf) rfl hfulls fun x => by rw [hplace]
  | @submit x q ln hp =>
    cases hshift with
    | same _ hl => exact absurd rfl hl
    | submitted e hfulls hplace =>
      have hf := submit_frame s.ftl q ln x
      obtain ⟨q',ln',hpull,-,-⟩ := (hfulls ▸ hs.fulls).pull
      obtain rfl : e = x := by
        rw [hpull,Option.some.injEq,Prod.mk.injEq] at hp
        exact hp.1
      have hfull : s.place e = .full := (hs.full_iff e).mp (by simp [hfulls])
      rw [stripes_of_submit hfulls hf rfl,hplace]
      refine ⟨k,ho.frame hf fun y => ?_⟩
      rcases eq_or_ne y e with rfl | hne
      · simp [hfull]
      · rw [Function.update_of_ne hne]
  | @complete x line hm =>
    have hf := wrppaLunCompletion_frame s.ftl x line
    cases hshift with
    | same _ _ hplace _ hfulls => exact hrest hf rfl hfulls fun x => by rw [hplace]
    | emptied _ _ hfl hplace _ hfulls =>
      refine hrest hf rfl hfulls fun y => ?_
      rw [hplace]
      rcases eq_or_ne y x with rfl | hne
      · simp [hfl]
      · rw [Function.update_of_ne hne]

theorem ordered_init {f : Ftl α} {free : List Nat} (h : Booted f free) (hs : free.Sublist scanOrder) :
    Ordered f (WritePath.init f).place (WritePath.init f).stripes (firstBlock free :: free.tail) 0 := by
  obtain ⟨-,-,hfulls,hpart⟩ := (conserved_init h).eq_place
  have hsane := sane_init h
  have hst := stand_init h hs
  have hfr := h.frontier hs
  have hzero : (f.ent 0).baddr.toNat = pageAt (firstBlock free :: free.tail) (128 * 0) := hst.baddr
  have hstripes : (WritePath.init f).stripes = [] := by
    rw [WritePath.stripes,hfulls]
    rfl
  rw [hstripes]
  refine ⟨hfr,by simp,fun x hx => ?_,fun m hm => ?_,List.Pairwise.nil,by simp⟩
  · have hx0 : x = 0 := by
      rcases hx with hx | hx
      · rw [← hpart]
        exact (hsane.open_iff x).mp hx
      · obtain ⟨-,p,hp⟩ := hst.closing hx
        exact absurd hp (by simp)
    subst hx0
    exact ⟨⟨0,Nat.le_refl _,hzero⟩,by simp⟩
  · obtain rfl : m = 0 := by omega
    exact Or.inr ⟨0,Or.inl ((hsane.open_iff 0).mpr hpart.symm),hzero⟩

/-- Copies are in order when the closing entities come before the others that are being filled. -/
private theorem inOrder_of_copies {s s' : WritePath α} (hs : s.Sane)
    (hbefore : ∀ e x, s.place e = .closing → x ≠ e → s.place x = .open ∨ s.place x = .closing →
      Before (s.ftl.ent e).baddr (s.ftl.ent x).baddr)
    (h : Reaches WritePath.step byCopies s s') : Reaches WritePath.step fillsInOrder s s' := by
  refine h.strengthen (Copied s) (Copied.refl hs) ?_ ?_
  · intro t l u ht hok hl
    cases l with
    | copySlot i => exact ht.trans ((step_effect hl).copied ht.sane)
    | _ => exact absurd hok id
  · intro t l ht hok
    cases l with
    | copySlot i =>
      intro c slot todo adv hc hpc hfull x hx hne hat
      obtain ⟨rest,hold,-⟩ := pending_set hc
      rw [show c.pending = slot :: todo by simp [BioCall.pending,hpc],List.cons_append] at hold
      have hcl := ((ht.sane.perm hold (List.Perm.refl _)).last_copy hfull).1
      rw [ht.frame.baddr,ht.frame.baddr]
      refine hbefore _ _ (ht.closing _ hcl) hne (hat.imp (fun ho => ?_) fun hc' => ?_)
      · rw [hs.open_iff,WritePath.part,← ht.frame.isPart,ho.1]
        rfl
      · exact ht.closing x ((ht.sane.at_iff hx _).mp hc')
    | _ => exact absurd hok id

section Stand

variable {s : WritePath α} {e : Nat} {q : List Nat} {rest : List Slot}

/-- The stripe of the open entity. -/
private theorem Stand.stripe (h : Stand s e q fq rest all k) :
    (s.ftl.ent e).baddr.toNat = pageAt all (128 * (k / 128)) := by
  have hb := h.baddr
  have hdiv : 128 * (k / 128) / 524288 = k / 524288 := by omega
  simp only [pageAt,raidLunSecNum_eq,blockPages_eq,hdiv] at hb ⊢
  omega

/-- A filler that is served alone is served in order. -/
private theorem Stand.serve_inOrder (h : Stand s e q fq [] all k) {bio : Bio α} (hb : bio.Writable)
    (hslba : 64 ≤ getBioSlba bio) (hk : k + getBioNppa bio < blockPages)
    (hroom : k % raidLunSecNum + getBioNppa bio ≤ raidLunSecNum) (hq : q ≠ []) :
    ∃ s' e' q', Reaches WritePath.step fillsInOrder s s' ∧ s'.programmed = s.programmed ∧
      (e :: q).drop ((k % raidLunSecNum + getBioNppa bio) / raidLunSecNum) = e' :: q' ∧
      Stand s' e' q' (fq ++ if e' ≠ e then [e] else []) [] all (k + getBioNppa bio) := by
  obtain ⟨s₁,s₂,s₃,c,e',q',hstep₁,hcop,hstep₃,-,-,-,hkept,hdrop,h₃⟩ :=
    h.serve_steps hb hslba hk hroom (Or.inr hq)
  obtain ⟨s₁',c',e₁,q₁,hstep,-,-,-,hall,hkept₁,hdrop₁,h₁⟩ := h.allot hb hk hroom (Or.inr hq)
  obtain rfl : s₁' = s₁ := Option.some.inj (hstep.symm.trans hstep₁)
  obtain rfl : e₁ = e' := (List.cons.inj (hdrop₁.symm.trans hdrop)).1
  have hin := h.frontier.inRange
  have hcov : (k + getBioNppa bio) / blockPages < all.length := by
    rw [Nat.div_eq_of_lt hk]
    exact Nat.lt_of_le_of_lt (Nat.zero_le _) hin
  have hcount : allotCount (getBioNppa bio) = getBioNppa bio :=
    allotCount_of_lt hb.1 (Nat.lt_of_le_of_lt hb.2.1 (by decide))
  have hnot : e ∉ s.empties := h.part ▸ h.sane.ready.notMem
  have hstripe := h.stripe
  rw [← (hkept₁.empties e hnot).2] at hstripe
  have hclosing (x : Nat) (hx : s₁'.place x = .closing) : x = e ∧ e ≠ e₁ := by
    obtain ⟨hne,p,hp⟩ := h₁.closing hx
    rw [List.append_nil,hall.slots] at hp
    obtain ⟨j,-,hj⟩ := List.mem_map.mp hp
    obtain rfl : e = x := congrArg Prod.fst hj
    exact ⟨rfl,hne⟩
  have hcopies : Reaches WritePath.step fillsInOrder s₁' s₂ := by
    refine inOrder_of_copies h₁.sane (fun x y hx hne hy => ?_) hcop
    obtain ⟨rfl,hxe⟩ := hclosing x hx
    have hye : y = e₁ := by
      rcases hy with hy | hy
      · rw [← h₁.part]
        exact (h₁.sane.open_iff y).mp hy
      · exact absurd (hclosing y hy).1 hne
    subst hye
    refine stripe_before h.frontier.lt h.frontier.nodup ?_ ?_ hstripe h₁.stripe
    · rw [blockPages_eq] at hcov
      omega
    · -- the last slot of `x` was used, so a later stripe was opened
      by_contra hle
      rw [Nat.div_eq_of_lt (by simp only [raidLunSecNum_eq]; omega)] at hdrop
      exact hxe (List.cons.inj hdrop).1
  have hrun₁ : Reaches WritePath.step fillsInOrder s s₁' := by
    refine Reaches.tail (Reaches.single (l := .begin bio) trivial rfl) (l := .wcbSection s.calls.length)
      ?_ hstep
    intro c hc _
    obtain rfl : _ = c := by simpa using hc
    change PoolCovers s.ftl (allotCount (getBioNppa bio))
    rw [hcount]
    exact (h.frontier.poolCovers_iff _).mpr hcov
  exact ⟨s₃,e₁,q',(hrun₁.trans hcopies).tail (l := .l2pSection s.calls.length) trivial hstep₃,
    hkept.programmed,hdrop,by simpa using h₃⟩

end Stand

/-- Fillers of 64 pages, one after another. -/
private theorem fillers_inOrder {f : Ftl α} {free : List Nat} (h : Booted f free)
    (hs : free.Sublist scanOrder) (a : α) {j : Nat} (hj : j ≤ 30) :
    ∃ s, Reaches WritePath.step fillsInOrder (WritePath.init f) s ∧ s.programmed = [] ∧
      Stand s (j / 2) (List.range' (j / 2 + 1) (15 - j / 2)) (List.range (j / 2)) []
        (firstBlock free :: free.tail) (64 * j) := by
  induction j with
  | zero => exact ⟨_,Reaches.refl _,rfl,stand_init h hs⟩
  | succ j ih =>
    obtain ⟨s,hrun,hprog,hst⟩ := ih (Nat.le_of_succ_le hj)
    obtain ⟨hb,hslba,hn⟩ := fillerBio_writable a (n := 64) (by decide) (by decide)
    have hlen : 15 - j / 2 = 14 - j / 2 + 1 := by omega
    rw [hlen,List.range'_succ] at hst
    obtain ⟨s',e',q',hrun',hprog',hdrop,hst'⟩ := hst.serve_inOrder hb (Nat.le_of_eq hslba.symm)
      (by rw [hn,blockPages_eq]; omega) (by rw [hn,raidLunSecNum_eq]; omega) (List.cons_ne_nil _ _)
    refine ⟨s',hrun.trans hrun',hprog'.trans hprog,?_⟩
    rw [hn,raidLunSecNum_eq] at hdrop
    rw [hn] at hst'
    rcases Nat.mod_two_eq_zero_or_one j with heven | hodd
    · rw [show (64 * j % 128 + 64) / 128 = 0 by omega,List.drop_zero,List.cons.injEq] at hdrop
      obtain ⟨rfl,rfl⟩ := hdrop
      rw [show (j + 1) / 2 = j / 2 by omega,hlen,List.range'_succ,Nat.mul_succ]
      simpa using hst'
    · rw [show (64 * j % 128 + 64) / 128 = 1 by omega,List.drop_one,List.tail_cons,
        List.cons.injEq] at hdrop
      obtain ⟨rfl,rfl⟩ := hdrop
      rw [show (j + 1) / 2 = j / 2 + 1 by omega,show 15 - (j / 2 + 1) = 14 - j / 2 by omega,
        List.range_succ,Nat.mul_succ]
      simpa using hst'

/-- In every run in which no entity is filled while an earlier page of its LUN is still open or being
filled, and in which every block switch finds a free block: the pages of each LUN of each block are
submitted in strictly increasing order, and none before its predecessor. -/
theorem programs_in_order {mcp : Bool} {d : Discovery} {b : BootPages} {dma : Nat → EntityDma}
    {f₀ : Ftl α} {s : WritePath α} (hinit : fscftlModuleInit mcp d b dma = .ok (some f₀))
    (hrun : Reaches WritePath.step fillsInOrder (WritePath.init f₀) s) :
    s.programmed.Pairwise Before ∧ ∀ xs w ys, s.programmed = xs ++ w :: ys → 0 < Nand.pg.get w →
      ∃ v ∈ xs, Nand.blk.get v = Nand.blk.get w ∧ Nand.lun.get v = Nand.lun.get w ∧
        Nand.pg.get v + 1 = Nand.pg.get w := by
  obtain ⟨free,hboot,hscan,-⟩ := fscftlModuleInit_booted hinit
  obtain ⟨-,k,ho⟩ := hrun.invariant
    (fun t => t.Sane ∧ ∃ k, Ordered t.ftl t.place t.stripes (firstBlock free :: free.tail) k)
    ⟨sane_init hboot,0,ordered_init hboot hscan⟩ (by
      rintro t l u ⟨ht,k,ho⟩ hok hl
      exact ⟨((step_effect hl).sane ht).1,(step_effect hl).ordered ht hok ho⟩)
  refine ⟨(List.pairwise_append.mp ho.order).1,fun xs w ys hsplit hpg => ?_⟩
  refine ho.previous xs w (ys ++ s.fulls.map fun e => (s.ftl.ent e).baddr) ?_ hpg
  rw [WritePath.stripes,hsplit,List.append_assoc,List.cons_append]

/-- Nine entities are filled and submitted, the last of them with a second page of the first LUN. -/
theorem programs_in_order_nine : ∃ (f₀ : Ftl Nat) (s : WritePath Nat),
    fscftlModuleInit true .clean ⟨true,true⟩ (fun _ => ⟨0,0,0⟩) = .ok (some f₀) ∧
    Reaches WritePath.step fillsInOrder (WritePath.init f₀) s ∧ s.programmed.length = 9 ∧
    s.programmed.Pairwise Before := by
  obtain ⟨f₀,free,hinit,hboot,hscan⟩ := manufactory_booted (α := Nat) .clean ⟨true,true⟩
    (fun _ => ⟨0,0,0⟩)
  obtain ⟨s,hrun,hprog,hst⟩ := fillers_inOrder hboot hscan 7 (j := 18) (by decide)
  obtain ⟨s',hdr,hprog',-⟩ := hst.submitAll
  have hrun' : Reaches WritePath.step fillsInOrder (WritePath.init f₀) s' := by
    refine hrun.trans (hdr.run.mono fun t l hl => ?_)
    cases l with
    | submit => trivial
    | complete e line => trivial
    | _ => exact absurd hl id
  refine ⟨f₀,s',hinit,hrun',?_,(programs_in_order hinit hrun').1⟩
  rw [hprog',hprog,List.nil_append,List.length_map,List.length_range]

/-- One page stays uncopied while the rest of entity 0 and entities 1 to 8 are filled and submitted:
page 1 of the first LUN is submitted before its page 0. -/
theorem page_overtaken : ∃ (f₀ : Ftl Nat) (s : WritePath Nat) (xs : List GeoPpa) (w v : GeoPpa),
    fscftlModuleInit true .clean ⟨true,true⟩ (fun _ => ⟨0,0,0⟩) = .ok (some f₀) ∧
    Reaches WritePath.step writableBios (WritePath.init f₀) s ∧ s.programmed = xs ++ [w,v] ∧
    Nand.blk.get w = Nand.blk.get v ∧ Nand.lun.get w = Nand.lun.get v ∧ Nand.pg.get w = 1 ∧
    Nand.pg.get v = 0 := by
  obtain ⟨f₀,free,hinit,hboot,hscan⟩ := manufactory_booted (α := Nat) .clean ⟨true,true⟩
    (fun _ => ⟨0,0,0⟩)
  have h₀ := stand_init hboot hscan
  have hbig : 2000 < blockPages := by rw [blockPages_eq]; decide
  obtain ⟨s₁,c,hrun₁,hcalls,-,-,hpc,-,-,hkept₁,h₁⟩ := h₀.park 7 (by decide : 0 < 64) (by omega) (by decide)
  obtain ⟨s₂,hran₂,h₂⟩ := h₁.more 7 (n := 63) (by decide) (by decide) (by omega) (by decide)
    (Or.inr (by simp))
  obtain ⟨s₃,hran₃,h₃⟩ := h₂.close 7 (n := 64) (by decide) (by decide) (by omega) (by decide)
  have hes : 1 :: List.range' 2 14 = List.range' 1 8 ++ 9 :: List.range' 10 6 := rfl
  obtain ⟨s₄,hran₄,h₄,hb₄⟩ := h₃.fillAll 7 hes (by decide) (Nat.lt_trans (by decide) hbig)
  have hran := (hran₂.trans hran₃).trans hran₄
  obtain ⟨s₅,hdr₅,hprog₅,h₅⟩ := h₄.submitAll
  have hc₁ : s₁.calls[0]? = some c := by simp [hcalls,WritePath.init]
  have hc₅ : s₅.calls[0]? = some c := by rw [hdr₅.calls]; exact hran.call hc₁
  have h₅' : Stand s₅ 9 (List.range' 10 6) [] ([(0,0)] ++ []) _ _ := h₅
  obtain ⟨s₆,adv,new,hcop₆,-,h₆,hnodup,hnew⟩ := h₅'.flush hc₅ hpc
  have hclosing : s₅.place 0 = .closing := by
    have hm : (0,0) ∈ s₅.pending := h₅.pending.mem_iff.mpr (List.mem_singleton.mpr rfl)
    rcases (h₅.sane.filling_of_pending hm).1 with ⟨hopen,-⟩ | ⟨hcl,-⟩
    · exact absurd (((h₅.sane.open_iff 0).mp hopen).trans h₅.part) (by decide)
    · exact hcl
  obtain rfl : new = [0] := by
    refine List.perm_singleton.mp ((List.perm_ext_iff_of_nodup hnodup (List.nodup_singleton 0)).mpr ?_)
    intro x
    rw [hnew x,List.mem_singleton]
    constructor
    · rintro ⟨hcl,-⟩
      obtain ⟨-,p,hp⟩ := h₅.closing hcl
      exact congrArg Prod.fst (List.mem_singleton.mp hp)
    · rintro rfl
      exact ⟨hclosing,rfl⟩
  obtain ⟨s₇,-,hdr₇,-,hprog₇,-⟩ := h₆.submit
  have hfr := h₀.frontier
  have hw : (s₄.ftl.ent 8).baddr.toNat = pageAt (firstBlock free :: free.tail) (128 * 8) := hb₄ 7 8 rfl
  have hv : (s₆.ftl.ent 0).baddr.toNat = pageAt (firstBlock free :: free.tail) (128 * 0) := by
    rw [hcop₆.frame.baddr,hdr₅.frame.baddr,
      ((hkept₁.trans hran.kept).empties 0 (by simp [h₀.empties])).2]
    exact h₀.stripe
  obtain ⟨hwblk,hwlun,hwpg⟩ := stripe_fields hfr.lt (by simp) hw
  obtain ⟨hvblk,hvlun,hvpg⟩ := stripe_fields hfr.lt (by simp) hv
  refine ⟨f₀,s₇,(List.range' 1 7).map fun x => (s₄.ftl.ent x).baddr,_,_,hinit,?_,?_,
    hwblk.trans hvblk.symm,hwlun.trans hvlun.symm,hwpg,hvpg⟩
  · exact (((hrun₁.trans hran.run).mono writable_of_callers).trans
      (hdr₅.run.mono writable_of_device)).trans ((hcop₆.run.mono (of_copies fun _ _ => trivial)).trans
      (hdr₇.run.mono writable_of_device))
  · rw [hprog₇,hcop₆.programmed,hprog₅,hran.kept.programmed,hkept₁.programmed]
    rfl

end Sdssd.Host
