import Sdssd.Host.Allocation

/-!
# What one allotment does to the tables

An allotment either uses a slot of the open entity or uses its last slot and opens the oldest empty
entity. Every invariant of an allocation is proved for these two cases and lifted to whole calls by
`allotPages_induct`.
-/

namespace Sdssd.Host

open Framework

variable {α : Type}

private theorem toNat_stripe_mod (w : GeoPpa) {lun pg blk : Nat} (hlun : lun < 8) (hpg : pg < 512)
    (hblk : blk < 4096) : (setNandFields w 0 0 0 lun pg blk).toNat % raidLunSecNum = 0 := by
  rw [toNat_setNandFields _ _ _ _ _ _ _ (by omega) (by omega) (by omega) hlun hpg hblk,raidLunSecNum_eq]
  omega

/-- With a well-formed pool the stripe after any address exists. -/
theorem getNextEntityBaddr_progress {t : SysTbl} {pool : List Nat} (h : Pool t pool) (cur : GeoPpa) :
    ∃ b t', getNextEntityBaddr t cur = .ok (b,t') ∧ b.toNat % raidLunSecNum = 0 ∧
      ∃ pool', Pool t' pool' := by
  have hlun : (increBounded 8 (Nand.lun.get cur) lnBits).1 < 8 := by
    have hl : Nand.lun.get cur < 2^3 := Nand.lun.get_lt cur
    unfold increBounded lnBits
    split
    · decide
    · simp only
      omega
  have hpg (carry : Bool) : (ifCarryThenIncreBounded carry 16 (Nand.pg.get cur) pgBits).1 < 512 := by
    have hp : Nand.pg.get cur < 2^9 := Nand.pg.get_lt cur
    unfold ifCarryThenIncreBounded increBounded pgBits
    split
    · split
      · decide
      · simp only
        omega
    · exact hp
  have hblk : Nand.blk.get cur < 2^12 := Nand.blk.get_lt cur
  unfold getNextEntityBaddr
  simp only
  split
  · cases pool with
    | nil =>
      rw [getBlkFromFreeList_empty h]
      exact ⟨_,t,rfl,toNat_stripe_mod _ hlun (hpg _) (by simp),[],h⟩
    | cons b l =>
      obtain ⟨t',ht,hp,-,-⟩ := getBlkFromFreeList_cons h
      have hb := h.lt b List.mem_cons_self
      simp only [cfgNandBlockNum_eq] at hb
      rw [ht]
      exact ⟨_,t',rfl,toNat_stripe_mod _ hlun (hpg _) (by omega),l,hp⟩
  · exact ⟨_,t,rfl,toNat_stripe_mod _ hlun (hpg _) (by omega),pool,h⟩

/-- Address of the next slot of entity `e`. -/
def Ftl.nextPpa (f : Ftl α) (e : Nat) : GeoPpa := (f.ent e).baddr + BitVec.ofNat 32 (f.ent e).pos

/-- Take entity `e` out of `empty_lun` and open it at stripe `baddr`; `q`, `ln` and `sys` are the
queue, the links and the block tables after the pulls. -/
def Ftl.openEnt (f : Ftl α) (e : Nat) (baddr : GeoPpa) (q : Fifo) (ln : Nat → Link) (sys : SysTbl) :
    Ftl α :=
  { ((f.setEmpty q ln).setEnt e { f.ent e with
      baddr := baddr, pos := 0, cqeFlag := 0, fillCnt := 0 }).setPartial (some e) with sys := sys }

section OpenEnt

variable (f : Ftl α) (e : Nat) (baddr : GeoPpa) (q : Fifo) (ln : Nat → Link) (sys : SysTbl)

@[simp] theorem ent_openEnt_self : (f.openEnt e baddr q ln sys).ent e = { f.ent e with
    baddr := baddr, pos := 0, cqeFlag := 0, fillCnt := 0 } := by
  simp [Ftl.openEnt]

@[simp] theorem ent_openEnt_of_ne {x : Nat} (h : x ≠ e) :
    (f.openEnt e baddr q ln sys).ent x = f.ent x := by
  simp [Ftl.openEnt,h]

@[simp] theorem partial_openEnt : (f.openEnt e baddr q ln sys).wcb.partialEntity = some e := rfl

@[simp] theorem sys_openEnt : (f.openEnt e baddr q ln sys).sys = sys := rfl

end OpenEnt

/-- An open entity with room, and the queue of empty ones behind it. -/
structure Ready (f : Ftl α) (e : Nat) (q : List Nat) : Prop where
  isPart : f.wcb.partialEntity = some e
  pos : (f.ent e).pos < raidLunSecNum
  queue : Fifo.Holds f.wcb.link f.wcb.emptyLun q
  notMem : e ∉ q

/-- The two things an allotment can do: use a slot that is not the last one, or use the last slot
and open the oldest empty entity. -/
inductive Allot (f : Ftl α) (e : Nat) (q : List Nat) (lba : Nat) : Ftl α → Nat → List Nat → Prop
  | room (hpos : (f.ent e).pos + 1 < raidLunSecNum) :
      Allot f e q lba (f.writeSlot e lba (f.nextPpa e)) e q
  | last {e' : Nat} {q' : List Nat} {baddr : GeoPpa} {fifo : Fifo} {ln : Nat → Link} {sys : SysTbl}
      (hpos : (f.ent e).pos + 1 = raidLunSecNum) (hq : q = e' :: q')
      (hbaddr : getNextEntityBaddr f.sys (f.nextPpa e) = .ok (baddr,sys))
      (hqueue : Fifo.Holds ln fifo q') (hlink : ∀ j, j ∉ e' :: q' → ln j = f.wcb.link j) :
      Allot f e q lba ((f.writeSlot e lba (f.nextPpa e)).openEnt e' baddr fifo ln sys) e' q'

theorem allotPage_cases {f f' : Ftl α} {e lba : Nat} {q : List Nat} {s : Slot} (hr : Ready f e q)
    (h : allotPage f lba = .ok (s,f')) :
    s = (e,(f.ent e).pos) ∧ ∃ e' q', Allot f e q lba f' e' q' := by
  obtain ⟨hs,hcase⟩ := allotPage_ok hr.isPart h
  refine ⟨hs,?_⟩
  by_cases hl : (f.ent e).pos + 1 = raidLunSecNum
  · simp only [hl,if_true] at hcase
    obtain ⟨e₁,he₁⟩ := hcase
    obtain ⟨e',fifo,ln,baddr,sys,hpull,hbaddr,-,hf'⟩ := getNextLunEntity_some he₁
    simp only at hf'
    have hpull' : f.wcb.emptyLun.pull f.wcb.link = some (e',fifo,ln) := hpull
    cases q with
    | nil => simp [(Fifo.pull_eq_none_iff hr.queue).mpr rfl] at hpull'
    | cons i q =>
      obtain ⟨fifo',ln',hp,hq,hln⟩ := hr.queue.pull
      rw [hp] at hpull'
      simp only [Option.some.injEq,Prod.mk.injEq] at hpull'
      obtain ⟨rfl,rfl,rfl⟩ := hpull'
      refine ⟨i,q,?_⟩
      rw [hf']
      exact Allot.last hl rfl hbaddr hq hln
  · simp only [hl,if_false] at hcase
    have hpos := hr.pos
    rw [hcase]
    exact ⟨e,q,Allot.room (by omega)⟩

theorem Allot.ready {f f' : Ftl α} {e e' lba : Nat} {q q' : List Nat} (hr : Ready f e q)
    (h : Allot f e q lba f' e' q') : Ready f' e' q' := by
  cases h with
  | room hpos => exact ⟨hr.isPart,by rw [ent_writeSlot_self]; exact hpos,hr.queue,hr.notMem⟩
  | last hpos hq hbaddr hqueue hlink =>
    subst hq
    exact ⟨rfl,by simp,hqueue,(List.nodup_cons.mp hr.queue.nodup).1⟩

/-- An allotment succeeds unless it needs an empty entity and there is none. -/
theorem allotPage_progress {f : Ftl α} {e : Nat} {q pool : List Nat} (lba : Nat) (hr : Ready f e q)
    (hpool : Pool f.sys pool) (hq : (f.ent e).pos + 1 = raidLunSecNum → q ≠ []) :
    ∃ f', allotPage f lba = .ok ((e,(f.ent e).pos),f') ∧ ∃ pool', Pool f'.sys pool' := by
  by_cases hl : (f.ent e).pos + 1 = raidLunSecNum
  · obtain ⟨i,q,rfl⟩ := List.exists_cons_of_ne_nil (hq hl)
    obtain ⟨fifo,ln,hp,-,-⟩ := hr.queue.pull
    obtain ⟨b,t,hb,-,pool',hpool'⟩ := getNextEntityBaddr_progress hpool (f.nextPpa e)
    refine ⟨(f.writeSlot e lba (f.nextPpa e)).openEnt i b fifo ln t,?_,pool',hpool'⟩
    simp only [allotPage,hr.isPart,hl,if_true]
    have hn : getNextLunEntity (f.writeSlot e lba (f.nextPpa e)) (f.nextPpa e) =
        .ok (some i,(f.writeSlot e lba (f.nextPpa e)).openEnt i b fifo ln t) := by
      simp only [getNextLunEntity,pullLunEntityFromFifo,sys_writeSlot,hb]
      rw [show (f.writeSlot e lba (f.nextPpa e)).wcb.emptyLun = f.wcb.emptyLun from rfl,
        show (f.writeSlot e lba (f.nextPpa e)).wcb.link = f.wcb.link from rfl,hp]
      rfl
    simp only [Ftl.nextPpa] at hn
    rw [hn]
    rfl
  · refine ⟨f.writeSlot e lba (f.nextPpa e),?_,pool,hpool⟩
    simp only [allotPage,hr.isPart,hl,if_false,Ftl.nextPpa]

/-- The slots of the next `n` pages when the open entity and the empty ones behind it are `es` and
the open one is at `pos`. -/
def nextSlots (es : List Nat) (pos n : Nat) : List Slot :=
  (List.range n).map fun j => (es.getD ((pos + j) / raidLunSecNum) 0,(pos + j) % raidLunSecNum)

/-- Induction over the pages of a successful allocation: what every allotment preserves holds in the
end, of the slots allotted by then. -/
theorem allotPages_induct {f f' : Ftl α} {e lba n : Nat} {q : List Nat} {ss : List Slot}
    (P : List Slot → Ftl α → Nat → List Nat → Prop) (hr : Ready f e q) (h0 : P [] f e q)
    (hstep : ∀ ss g x qs g' x' qs', ss.length < n → Ready g x qs → P ss g x qs →
      Allot g x qs (lba + ss.length) g' x' qs' → P (ss ++ [(x,(g.ent x).pos)]) g' x' qs')
    (h : allotPages n f lba = .ok (ss,f')) :
    ss.length = n ∧ ∃ e' q', Ready f' e' q' ∧ P ss f' e' q' := by
  have general (m : Nat) (acc : List Slot) (g : Ftl α) (x : Nat) (qs : List Nat) (ts : List Slot)
      (hm : acc.length + m = n) (hg : Ready g x qs) (hP : P acc g x qs)
      (ha : allotPages m g (lba + acc.length) = .ok (ts,f')) :
      ts.length = m ∧ ∃ e' q', Ready f' e' q' ∧ P (acc ++ ts) f' e' q' := by
    induction m generalizing acc g x qs ts with
    | zero =>
      simp only [allotPages,Except.ok.injEq,Prod.mk.injEq] at ha
      obtain ⟨rfl,rfl⟩ := ha
      exact ⟨rfl,x,qs,hg,by simpa using hP⟩
    | succ m ih =>
      rw [allotPages] at ha
      cases hp : allotPage g (lba + acc.length) with
      | error y => simp [hp,Except.bind] at ha
      | ok r =>
        obtain ⟨s,g'⟩ := r
        obtain ⟨rfl,x',qs',hall⟩ := allotPage_cases hg hp
        simp only [hp,Except.bind] at ha
        cases hrest : allotPages m g' (lba + acc.length + 1) with
        | error y => simp [hrest,Except.map] at ha
        | ok rs =>
          obtain ⟨us,g''⟩ := rs
          simp only [hrest,Except.map,Except.ok.injEq,Prod.mk.injEq] at ha
          obtain ⟨rfl,rfl⟩ := ha
          obtain ⟨hlen,e',q',hr',hP'⟩ := ih (acc ++ [(x,(g.ent x).pos)]) g' x' qs' us
            (by simp only [List.length_append,List.length_singleton]; omega) (hall.ready hg)
            (hstep acc g x qs g' x' qs' (by omega) hg hP hall)
            (by simpa [Nat.add_assoc] using hrest)
          exact ⟨by simp [hlen],e',q',hr',by simpa using hP'⟩
  simpa using general n [] f e q ss (by simp) hr h0 (by simpa using h)

/-- Enough empty entities behind the open one make an allocation succeed. -/
theorem allotPages_progress {f : Ftl α} {e n : Nat} {q pool : List Nat} (lba : Nat) (hr : Ready f e q)
    (hpool : Pool f.sys pool) (hq : ((f.ent e).pos + n) / raidLunSecNum ≤ q.length) :
    ∃ ss f', allotPages n f lba = .ok (ss,f') := by
  induction n generalizing f e q pool lba with
  | zero => exact ⟨[],f,rfl⟩
  | succ n ih =>
    have hpos := hr.pos
    simp only [raidLunSecNum_eq] at hq hpos
    have hne : (f.ent e).pos + 1 = raidLunSecNum → q ≠ [] := by
      rintro hl rfl
      simp only [raidLunSecNum_eq,List.length_nil] at hl hq
      omega
    obtain ⟨f₁,h₁,pool₁,hpool₁⟩ := allotPage_progress lba hr hpool hne
    obtain ⟨-,e',q',hall⟩ := allotPage_cases hr h₁
    have hcross : ((f₁.ent e').pos + n) / raidLunSecNum ≤ q'.length := by
      simp only [raidLunSecNum_eq]
      cases hall with
      | room hp =>
        rw [ent_writeSlot_self]
        simp only
        rwa [Nat.add_assoc,Nat.add_comm 1 n]
      | last hp hcons hbaddr hqueue hlink =>
        subst hcons
        simp only [raidLunSecNum_eq,List.length_cons] at hp hq
        rw [ent_openEnt_self]
        simp only
        omega
    obtain ⟨ss,f',hrest⟩ := ih (lba + 1) (hall.ready hr) hpool₁ hcross
    exact ⟨_,_,by rw [allotPages,h₁]; simp only [Except.bind,hrest,Except.map]; rfl⟩

/-- The slots of an allocation, and what is left of the open and the empty entities. -/
theorem allotPages_slots {f f' : Ftl α} {e lba n : Nat} {q : List Nat} {ss : List Slot}
    (hr : Ready f e q) (h : allotPages n f lba = .ok (ss,f')) :
    ss = nextSlots (e :: q) (f.ent e).pos n ∧ ∃ e' q', Ready f' e' q' ∧
      (e :: q).drop (((f.ent e).pos + n) / raidLunSecNum) = e' :: q' ∧
      (f'.ent e').pos = ((f.ent e).pos + n) % raidLunSecNum := by
  have hpos := hr.pos
  simp only [raidLunSecNum_eq] at hpos ⊢
  let P (ss : List Slot) (g : Ftl α) (x : Nat) (qs : List Nat) : Prop :=
    ss = nextSlots (e :: q) (f.ent e).pos ss.length ∧
      (e :: q).drop (((f.ent e).pos + ss.length) / 128) = x :: qs ∧
      (g.ent x).pos = ((f.ent e).pos + ss.length) % 128
  have h0 : P [] f e q :=
    ⟨rfl,by simp [Nat.div_eq_of_lt hpos],by simp [Nat.mod_eq_of_lt hpos]⟩
  suffices hstep : ∀ ss g x qs g' x' qs', ss.length < n → Ready g x qs → P ss g x qs →
      Allot g x qs (lba + ss.length) g' x' qs' → P (ss ++ [(x,(g.ent x).pos)]) g' x' qs' by
    obtain ⟨hlen,e',q',hr',hss,hdrop,hpos'⟩ := allotPages_induct P hr h0 hstep h
    rw [hlen] at hss hdrop hpos'
    exact ⟨hss,e',q',hr',hdrop,hpos'⟩
  rintro ss g x qs g' x' qs' - hg ⟨hss,hdrop,hp⟩ hall
  have hx : (e :: q).getD (((f.ent e).pos + ss.length) / 128) 0 = x := by
    rw [List.getD_eq_getElem?_getD,← List.head?_drop,hdrop]
    rfl
  have hslots : ss ++ [(x,(g.ent x).pos)] = nextSlots (e :: q) (f.ent e).pos (ss.length + 1) := by
    rw [nextSlots,List.range_succ,List.map_append,← nextSlots,← hss]
    simp only [List.map_cons,List.map_nil,raidLunSecNum_eq,hx,hp]
  simp only [P,List.length_append,List.length_singleton]
  refine ⟨hslots,?_⟩
  cases hall with
  | room hlt =>
    simp only [raidLunSecNum_eq] at hlt
    rw [ent_writeSlot_self]
    have hdiv : ((f.ent e).pos + (ss.length + 1)) / 128 = ((f.ent e).pos + ss.length) / 128 := by
      omega
    exact ⟨hdiv ▸ hdrop,by simp only; omega⟩
  | last hl hcons hbaddr hqueue hlink =>
    simp only [raidLunSecNum_eq] at hl
    subst hcons
    have hdiv : ((f.ent e).pos + (ss.length + 1)) / 128 = ((f.ent e).pos + ss.length) / 128 + 1 := by
      omega
    rw [ent_openEnt_self]
    refine ⟨?_,by simp only; omega⟩
    rw [hdiv,← List.drop_drop,hdrop]
    rfl

/-- The slot contents that the allocator writes: LBA and PPA. -/
def Ftl.lbaAt (f : Ftl α) (s : Slot) : Nat := (f.ent s.1).lba s.2

def Ftl.ppaAt (f : Ftl α) (s : Slot) : Nat := (f.ent s.1).ppa s.2

/-- Opening an entity leaves the slot contents of its previous use behind. -/
theorem lbaAt_openEnt (f : Ftl α) (e : Nat) (baddr : GeoPpa) (q : Fifo) (ln : Nat → Link) (sys : SysTbl)
    (s : Slot) : (f.openEnt e baddr q ln sys).lbaAt s = f.lbaAt s := by
  by_cases h : s.1 = e <;> simp [Ftl.lbaAt,h]

theorem ppaAt_openEnt (f : Ftl α) (e : Nat) (baddr : GeoPpa) (q : Fifo) (ln : Nat → Link) (sys : SysTbl)
    (s : Slot) : (f.openEnt e baddr q ln sys).ppaAt s = f.ppaAt s := by
  by_cases h : s.1 = e <;> simp [Ftl.ppaAt,h]

/-- An allotment writes LBA and PPA of the open entity's next slot. -/
theorem Allot.at_slot {f f' : Ftl α} {e e' lba : Nat} {q q' : List Nat}
    (h : Allot f e q lba f' e' q') :
    f'.lbaAt (e,(f.ent e).pos) = lba % 2^32 ∧ f'.ppaAt (e,(f.ent e).pos) = (f.nextPpa e).toNat := by
  have hw : (f.writeSlot e lba (f.nextPpa e)).lbaAt (e,(f.ent e).pos) = lba % 2^32 ∧
      (f.writeSlot e lba (f.nextPpa e)).ppaAt (e,(f.ent e).pos) = (f.nextPpa e).toNat := by
    simp [Ftl.lbaAt,Ftl.ppaAt,ent_writeSlot_self]
  cases h with
  | room hpos => exact hw
  | last hpos hq hbaddr hqueue hlink => rwa [lbaAt_openEnt,ppaAt_openEnt]

/-- It writes no other slot. -/
theorem Allot.off_slot {f f' : Ftl α} {e e' lba : Nat} {q q' : List Nat}
    (h : Allot f e q lba f' e' q') {s : Slot} (hs : s ≠ (e,(f.ent e).pos)) :
    f'.lbaAt s = f.lbaAt s ∧ f'.ppaAt s = f.ppaAt s := by
  obtain ⟨a,p⟩ := s
  have hw : (f.writeSlot e lba (f.nextPpa e)).lbaAt (a,p) = f.lbaAt (a,p) ∧
      (f.writeSlot e lba (f.nextPpa e)).ppaAt (a,p) = f.ppaAt (a,p) := by
    by_cases ha : a = e
    · subst ha
      have hp : p ≠ (f.ent a).pos := fun hp => hs (by rw [hp])
      simp [Ftl.lbaAt,Ftl.ppaAt,ent_writeSlot_self,Function.update_of_ne hp]
    · simp [Ftl.lbaAt,Ftl.ppaAt,ha]
  cases h with
  | room hpos => exact hw
  | last hpos hq hbaddr hqueue hlink => rwa [lbaAt_openEnt,ppaAt_openEnt]

/-- The slots `ss` lie behind the allocator: in entities that are neither open nor empty, or below
`pos` of the open one. -/
def Behind (ss : List Slot) (f : Ftl α) (e : Nat) (q : List Nat) : Prop :=
  ∀ s ∈ ss, s.1 ∉ q ∧ (s.1 = e → s.2 < (f.ent e).pos)

theorem Behind.notMem {ss : List Slot} {f : Ftl α} {e : Nat} {q : List Nat} (h : Behind ss f e q) :
    (e,(f.ent e).pos) ∉ ss :=
  fun hm => Nat.lt_irrefl _ ((h _ hm).2 rfl)

theorem Allot.behind {f f' : Ftl α} {e e' lba : Nat} {q q' : List Nat} {ss : List Slot}
    (hr : Ready f e q) (hb : Behind ss f e q) (h : Allot f e q lba f' e' q') :
    Behind (ss ++ [(e,(f.ent e).pos)]) f' e' q' := by
  intro s hs
  rcases List.mem_append.mp hs with hs | hs
  · obtain ⟨hq,hlt⟩ := hb s hs
    cases h with
    | room hpos =>
      refine ⟨hq,fun he => ?_⟩
      have hlt := hlt he
      rw [ent_writeSlot_self]
      simp only
      omega
    | last hpos hcons hbaddr hqueue hlink =>
      subst hcons
      exact ⟨fun hm => hq (List.mem_cons_of_mem _ hm),fun he => absurd (he ▸ List.mem_cons_self) hq⟩
  · rw [List.mem_singleton] at hs
    subst hs
    cases h with
    | room hpos => exact ⟨hr.notMem,fun _ => by rw [ent_writeSlot_self]; exact Nat.lt_succ_self _⟩
    | last hpos hcons hbaddr hqueue hlink =>
      subst hcons
      have hne := hr.notMem
      exact ⟨fun hm => hne (List.mem_cons_of_mem _ hm),fun he => absurd (he ▸ List.mem_cons_self) hne⟩

/-- A successful allocation writes the consecutive LBAs into pairwise different slots and leaves
LBA and PPA of every other slot alone. -/
theorem allotPages_written {f f' : Ftl α} {e lba n : Nat} {q : List Nat} {ss : List Slot}
    (hr : Ready f e q) (h : allotPages n f lba = .ok (ss,f')) :
    ss.Nodup ∧ ss.length = n ∧ ss.map f'.lbaAt = (List.range n).map (fun j => (lba + j) % 2^32) ∧
      ∀ s, s ∉ ss → f'.lbaAt s = f.lbaAt s ∧ f'.ppaAt s = f.ppaAt s := by
  let P (ss : List Slot) (g : Ftl α) (x : Nat) (qs : List Nat) : Prop :=
    Behind ss g x qs ∧ ss.Nodup ∧
      ss.map g.lbaAt = (List.range ss.length).map (fun j => (lba + j) % 2^32) ∧
      ∀ s, s ∉ ss → g.lbaAt s = f.lbaAt s ∧ g.ppaAt s = f.ppaAt s
  have h0 : P [] f e q := ⟨by simp [Behind],List.nodup_nil,rfl,fun _ _ => ⟨rfl,rfl⟩⟩
  suffices hstep : ∀ ss g x qs g' x' qs', ss.length < n → Ready g x qs → P ss g x qs →
      Allot g x qs (lba + ss.length) g' x' qs' → P (ss ++ [(x,(g.ent x).pos)]) g' x' qs' by
    obtain ⟨hlen,e',q',-,-,hnd,hlba,hframe⟩ := allotPages_induct P hr h0 hstep h
    exact ⟨hnd,hlen,hlen ▸ hlba,hframe⟩
  rintro ss g x qs g' x' qs' - hg ⟨hb,hnd,hlba,hframe⟩ hall
  have hnew := hb.notMem
  refine ⟨hall.behind hg hb,?_,?_,?_⟩
  · exact List.nodup_append.mpr ⟨hnd,List.nodup_singleton _,fun a ha b hb' hab =>
      hnew (by rw [← List.mem_singleton.mp hb',← hab]; exact ha)⟩
  · have hold : ss.map g'.lbaAt = ss.map g.lbaAt :=
      List.map_congr_left fun s hs => (hall.off_slot (fun he => hnew (he ▸ hs))).1
    simp only [List.map_append,hold,hlba,List.map_cons,List.map_nil,hall.at_slot.1,
      List.length_append,List.length_singleton,List.range_succ]
  · intro s hs
    simp only [List.mem_append,List.mem_singleton,not_or] at hs
    obtain ⟨h1,h2⟩ := hall.off_slot hs.2
    exact ⟨h1.trans (hframe s hs.1).1,h2.trans (hframe s hs.1).2⟩

/-- `wcb_available` on small requests, without the `u16` arithmetic. -/
theorem wcbAvailable_eq {f : Ftl α} {e n : Nat} {q : List Nat} (hr : Ready f e q) (hn : n < 2^15) :
    wcbAvailable f n =
      .ok (!(decide (raidLunSecNum ≤ (f.ent e).pos + n + n / 4 + 2) && decide (q = []))) := by
  have hpos := hr.pos
  have hextra : ((n >>> 2) + 2) % 2^16 = n / 4 + 2 := by
    rw [Nat.shiftRight_eq_div_pow]
    omega
  have hleft : (raidLunSecNum + 2^16 - (f.ent e).pos) % 2^16 = raidLunSecNum - (f.ent e).pos := by
    simp only [raidLunSecNum_eq] at hpos ⊢
    omega
  have hsize : (f.wcb.emptyLun.size == 0) = decide (q = []) := by
    rw [hr.queue.size]
    cases q <;> rfl
  have hcmp : decide (raidLunSecNum - (f.ent e).pos ≤ n + (n / 4 + 2)) =
      decide (raidLunSecNum ≤ (f.ent e).pos + n + n / 4 + 2) :=
    decide_eq_decide.mpr (by omega)
  rw [wcbAvailable,hr.isPart]
  dsimp only
  rw [hextra,hleft,hsize,hcmp]

end Sdssd.Host
