import Sdssd.Host.WriteCache

/-!
# The allocator, page by page

`alloc_wcb_core` is a loop that interleaves slot writes, entity switches and the bookkeeping of up
to three contexts. It is shown here to be the iteration of a single-page allotment, which is what
every later invariant is proved about.
-/

namespace Sdssd.Host

open Framework

variable {α : Type}

/-- Allot the next page: fill the next slot of the partial entity and, when that was its last one,
open the entity of the following stripe. -/
def allotPage (f : Ftl α) (lba : Nat) : Except Fault (Slot × Ftl α) :=
  match f.wcb.partialEntity with
  | none => .error .bugOn
  | some e =>
    let pos := (f.ent e).pos
    let curppa := (f.ent e).baddr + BitVec.ofNat 32 pos
    let f := f.writeSlot e lba curppa
    if pos + 1 = raidLunSecNum then
      (getNextLunEntity f curppa).map fun r => ((e,pos),r.2)
    else .ok ((e,pos),f)

/-- Allot consecutive pages to consecutive LBAs. -/
def allotPages : Nat → Ftl α → Nat → Except Fault (List Slot × Ftl α)
  | 0, f, _ => .ok ([],f)
  | n+1, f, lba => (allotPage f lba).bind fun r =>
      (allotPages n r.2 (lba + 1)).map fun rs => (r.1 :: rs.1,rs.2)

section Projections

variable (f : Ftl α) (e : Nat) (x : WcbLunEntity α) (p : Option Nat) (q : Fifo) (ln : Nat → Link)

@[simp] theorem ent_setEnt_self : (f.setEnt e x).ent e = x := by simp [Ftl.ent,Ftl.setEnt]

@[simp] theorem ent_setEnt_of_ne {e' : Nat} (h : e' ≠ e) : (f.setEnt e x).ent e' = f.ent e' := by
  simp [Ftl.ent,Ftl.setEnt,Function.update_of_ne h]

@[simp] theorem ent_setPartial (e' : Nat) : (f.setPartial p).ent e' = f.ent e' := rfl

@[simp] theorem ent_setEmpty (e' : Nat) : (f.setEmpty q ln).ent e' = f.ent e' := rfl

@[simp] theorem ent_setFull (e' : Nat) : (f.setFull q ln).ent e' = f.ent e' := rfl

@[simp] theorem ent_withSys (s : SysTbl) (e' : Nat) : ({ f with sys := s } : Ftl α).ent e' = f.ent e' :=
  rfl

@[simp] theorem partial_setEnt : (f.setEnt e x).wcb.partialEntity = f.wcb.partialEntity := rfl

@[simp] theorem partial_setPartial : (f.setPartial p).wcb.partialEntity = p := rfl

@[simp] theorem emptyLun_setEnt : (f.setEnt e x).wcb.emptyLun = f.wcb.emptyLun := rfl

@[simp] theorem link_setEnt : (f.setEnt e x).wcb.link = f.wcb.link := rfl

@[simp] theorem sys_setEnt : (f.setEnt e x).sys = f.sys := rfl

end Projections

@[simp] theorem partial_writeSlot (f : Ftl α) (e lba : Nat) (ppa : GeoPpa) :
    (f.writeSlot e lba ppa).wcb.partialEntity = f.wcb.partialEntity := rfl

@[simp] theorem sys_writeSlot (f : Ftl α) (e lba : Nat) (ppa : GeoPpa) :
    (f.writeSlot e lba ppa).sys = f.sys := rfl

theorem ent_writeSlot_self (f : Ftl α) (e lba : Nat) (ppa : GeoPpa) :
    (f.writeSlot e lba ppa).ent e = { f.ent e with
      lba := Function.update (f.ent e).lba (f.ent e).pos (lba % 2^32)
      ppa := Function.update (f.ent e).ppa (f.ent e).pos ppa.toNat
      pos := (f.ent e).pos + 1 } := by
  simp [Ftl.writeSlot]

@[simp] theorem ent_writeSlot_of_ne (f : Ftl α) {e e' : Nat} (lba : Nat) (ppa : GeoPpa) (h : e' ≠ e) :
    (f.writeSlot e lba ppa).ent e' = f.ent e' := by
  simp [Ftl.writeSlot,h]

@[simp] theorem baddr_writeSlot (f : Ftl α) (e lba : Nat) (ppa : GeoPpa) (x : Nat) :
    ((f.writeSlot e lba ppa).ent x).baddr = (f.ent x).baddr := by
  rcases eq_or_ne x e with rfl | hx
  · rw [ent_writeSlot_self]
  · rw [ent_writeSlot_of_ne f lba ppa hx]

/-- `get_next_lun_entity` never returns NULL to its caller: the debug print faults first. -/
theorem getNextLunEntity_some {f : Ftl α} {cur : GeoPpa} {r : Option Nat × Ftl α}
    (h : getNextLunEntity f cur = .ok r) :
    ∃ e q ln baddr sys, pullLunEntityFromFifo f.wcb.emptyLun f.wcb.link = some (e,q,ln) ∧
      getNextEntityBaddr f.sys cur = .ok (baddr,sys) ∧ r.1 = some e ∧
      r.2 = { ((f.setEmpty q ln).setEnt e { f.ent e with
          baddr := baddr, pos := 0, cqeFlag := 0, fillCnt := 0 }).setPartial (some e) with
        sys := sys } := by
  unfold getNextLunEntity at h
  split at h
  · simp [printLunEntitysFifo,Ftl.setPartial,Except.map] at h
  · rename_i e q ln hpull
    cases hb : getNextEntityBaddr f.sys cur with
    | error x => simp [hb,Except.map] at h
    | ok b =>
      obtain ⟨baddr,sys⟩ := b
      simp only [hb,Except.map,Except.ok.injEq] at h
      subst h
      exact ⟨e,q,ln,baddr,sys,hpull,rfl,rfl,rfl⟩

namespace AllocVars

/-- The loop variables agree with the tables: `entity` is the partial entity, `curppa` the address
of its next slot and `cur` the context under construction for it. -/
structure Sync (v : AllocVars α) : Prop where
  isPart : v.ftl.wcb.partialEntity = some v.entity
  curppa : v.curppa = (v.ftl.ent v.entity).baddr + BitVec.ofNat 32 (v.ftl.ent v.entity).pos
  cur : v.cur.entity = v.entity
  start : v.cur.startPos ≤ (v.ftl.ent v.entity).pos

/-- Slots allotted so far in this call. -/
def emitted (v : AllocVars α) : List Slot :=
  ctxSlots v.done ++ (List.range' v.cur.startPos
    ((v.ftl.ent v.entity).pos - v.cur.startPos)).map (fun p => (v.entity,p))

/-- The count after the decrement at the top of the loop. -/
def left' (v : AllocVars α) : Nat := u32Dec v.leftLen

/-- The current context with its end moved to the slot being allotted. -/
def cur' (v : AllocVars α) : WcbCtx := { v.cur with endPos := (v.ftl.ent v.entity).pos }

/-- Variables of the next pass when the entity still has room. -/
def same (v : AllocVars α) (f : Ftl α) : AllocVars α :=
  ⟨f,v.entity,v.curppa + 1,v.slba + 1,v.left',v.done,v.cur'⟩

/-- Variables of the next pass after the entity was used up. -/
def fresh (v : AllocVars α) (f : Ftl α) : AllocVars α :=
  let e := f.wcb.partialEntity.getD 0
  ⟨f,e,(f.ent e).baddr,v.slba + 1,v.left',v.done ++ [v.cur'],⟨e,(f.ent e).pos,(f.ent e).pos⟩⟩

end AllocVars

/-- One pass of the loop is one page allotment and the decision how to go on. -/
theorem allocBody_eq {v : AllocVars α} (hs : v.Sync) :
    allocBody v = (allotPage v.ftl v.slba).bind fun r =>
      if v.left' = 0 then .ok (.inr ⟨0,r.2,v.done ++ [v.cur']⟩)
      else if (v.ftl.ent v.entity).pos + 1 = raidLunSecNum then
        if maxUsedWcbEntitys ≤ v.done.length + 1 then .error .ctxOverrun
        else .ok (.inl (v.fresh r.2))
      else .ok (.inl (v.same r.2)) := by
  simp only [allocBody,sysGetPpaType,allotPage,hs.isPart,← hs.curppa]
  by_cases hp : (v.ftl.ent v.entity).pos + 1 = raidLunSecNum
  · simp only [hp,if_true]
    cases hn : getNextLunEntity (v.ftl.writeSlot v.entity v.slba v.curppa) v.curppa with
    | error x => rfl
    | ok r =>
      obtain ⟨e,q,ln,baddr,sys,-,-,hr1,hr2⟩ := getNextLunEntity_some hn
      have hpart : r.2.wcb.partialEntity = some e := by rw [hr2]; rfl
      obtain ⟨r1,r2⟩ := r
      simp only at hr1 hpart
      subst hr1
      simp only [Except.bind,Except.map,AllocVars.left',AllocVars.fresh,AllocVars.cur',hpart,
        Option.getD_some]
  · simp only [hp,if_false,Except.bind,AllocVars.left',AllocVars.same,AllocVars.cur']

/-- What a successful single-page allotment returns. -/
theorem allotPage_ok {f f' : Ftl α} {lba : Nat} {s : Slot} {e : Nat}
    (hp : f.wcb.partialEntity = some e) (h : allotPage f lba = .ok (s,f')) :
    s = (e,(f.ent e).pos) ∧
      if (f.ent e).pos + 1 = raidLunSecNum then
        ∃ e', getNextLunEntity (f.writeSlot e lba ((f.ent e).baddr + BitVec.ofNat 32 (f.ent e).pos))
          ((f.ent e).baddr + BitVec.ofNat 32 (f.ent e).pos) = .ok (some e',f')
      else f' = f.writeSlot e lba ((f.ent e).baddr + BitVec.ofNat 32 (f.ent e).pos) := by
  simp only [allotPage,hp] at h
  by_cases hl : (f.ent e).pos + 1 = raidLunSecNum
  · simp only [hl,if_true] at h ⊢
    cases hn : getNextLunEntity (f.writeSlot e lba ((f.ent e).baddr + BitVec.ofNat 32 (f.ent e).pos))
        ((f.ent e).baddr + BitVec.ofNat 32 (f.ent e).pos) with
    | error x => simp [hn,Except.map] at h
    | ok r =>
      obtain ⟨e',q,ln,baddr,sys,-,-,hr1,-⟩ := getNextLunEntity_some hn
      simp only [hn,Except.map,Except.ok.injEq,Prod.mk.injEq] at h
      refine ⟨h.1.symm,e',?_⟩
      rw [← h.2,← hr1]
  · simp only [hl,if_false,Except.ok.injEq,Prod.mk.injEq] at h ⊢
    exact ⟨h.1.symm,h.2.symm⟩

theorem cur'_slots {v : AllocVars α} (hs : v.Sync) :
    v.cur'.slots = (List.range' v.cur.startPos
      ((v.ftl.ent v.entity).pos - v.cur.startPos)).map (fun p => (v.entity,p)) ++
        [(v.entity,(v.ftl.ent v.entity).pos)] := by
  have hst := hs.start
  have he : (v.ftl.ent v.entity).pos + 1 - v.cur.startPos =
      ((v.ftl.ent v.entity).pos - v.cur.startPos) + 1 := by omega
  have hp : v.cur.startPos + ((v.ftl.ent v.entity).pos - v.cur.startPos) =
      (v.ftl.ent v.entity).pos := by omega
  simp only [AllocVars.cur',WcbCtx.slots,hs.cur,he,List.range'_1_concat,hp,List.map_append,
    List.map_cons,List.map_nil]

theorem ctxSlots_done {v : AllocVars α} (hs : v.Sync) :
    ctxSlots (v.done ++ [v.cur']) = v.emitted ++ [(v.entity,(v.ftl.ent v.entity).pos)] := by
  simp only [ctxSlots,List.flatMap_append,List.flatMap_cons,List.flatMap_nil,List.append_nil,
    cur'_slots hs,AllocVars.emitted,List.append_assoc]

theorem same_sync {v : AllocVars α} (hs : v.Sync) {f : Ftl α}
    (hf : f = v.ftl.writeSlot v.entity v.slba v.curppa) :
    (v.same f).Sync ∧ (v.same f).emitted = v.emitted ++ [(v.entity,(v.ftl.ent v.entity).pos)] := by
  have hst := hs.start
  have hent : f.ent v.entity = (v.ftl.writeSlot v.entity v.slba v.curppa).ent v.entity := by rw [hf]
  rw [ent_writeSlot_self] at hent
  refine ⟨⟨?_,?_,hs.cur,?_⟩,?_⟩
  · simpa [AllocVars.same,hf] using hs.isPart
  · simp only [AllocVars.same,hent,hs.curppa]
    rw [BitVec.ofNat_add,BitVec.add_assoc]
    rfl
  · simp only [AllocVars.same,AllocVars.cur',hent]
    omega
  · have hsl := cur'_slots hs
    simp only [AllocVars.cur',WcbCtx.slots,hs.cur] at hsl
    simp only [AllocVars.emitted,AllocVars.same,AllocVars.cur',hent,hsl,List.append_assoc]

theorem fresh_sync {v : AllocVars α} (hs : v.Sync) {f : Ftl α} {e : Nat} {g : Ftl α} {cur : GeoPpa}
    (hf : getNextLunEntity g cur = .ok (some e,f)) :
    (v.fresh f).Sync ∧ (v.fresh f).emitted = v.emitted ++ [(v.entity,(v.ftl.ent v.entity).pos)] ∧
      (f.ent (v.fresh f).entity).pos = 0 := by
  obtain ⟨e',q,ln,baddr,sys,-,-,he,hf⟩ := getNextLunEntity_some hf
  simp only [Option.some.injEq] at he
  subst he
  simp only at hf
  have hpart : f.wcb.partialEntity = some e := by rw [hf]; rfl
  have hpos : (f.ent e).pos = 0 := by rw [hf]; simp
  refine ⟨⟨?_,?_,rfl,?_⟩,?_,?_⟩
  · simp [AllocVars.fresh,hpart]
  · simp [AllocVars.fresh,hpart,hpos]
  · simp [AllocVars.fresh,hpart]
  · rw [← ctxSlots_done hs]
    simp [AllocVars.emitted,AllocVars.fresh,hpart]
  · simp [AllocVars.fresh,hpart,hpos]

private theorem u32Dec_mod {m : Nat} (h1 : 1 ≤ m) (h2 : m ≤ 2^32) : u32Dec (m % 2^32) = m - 1 := by
  unfold u32Dec
  split <;> omega

/-- A loop that returns has allotted exactly the requested number of pages, one after another, and
recorded their slots in its contexts. -/
theorem allocLoop_sound {m fuel : Nat} {v : AllocVars α} {r : AllocResult α} (hs : v.Sync)
    (h1 : 1 ≤ m) (h2 : m ≤ 2^32) (hleft : v.leftLen = m % 2^32)
    (hdone : v.done.length < maxUsedWcbEntitys) (hr : allocLoop fuel v = .ok r) :
    r.ret = 0 ∧ r.ctxs.length ≤ maxUsedWcbEntitys ∧
      ∃ ss, allotPages m v.ftl v.slba = .ok (ss,r.ftl) ∧ ctxSlots r.ctxs = v.emitted ++ ss := by
  induction m generalizing fuel v with
  | zero => omega
  | succ m ih =>
    cases fuel with
    | zero => simp [allocLoop] at hr
    | succ fuel =>
      have hl : v.left' = m := by rw [AllocVars.left',hleft,u32Dec_mod h1 h2]; omega
      rw [allocLoop,allocBody_eq hs] at hr
      cases ha : allotPage v.ftl v.slba with
      | error x => simp [ha,Except.bind] at hr
      | ok a =>
        obtain ⟨s,f⟩ := a
        obtain ⟨hslot,hcase⟩ := allotPage_ok hs.isPart ha
        simp only [ha,Except.bind,hl] at hr
        by_cases hm : m = 0
        · subst hm
          simp only [if_true,Except.ok.injEq] at hr
          subst hr
          refine ⟨rfl,by simp only [List.length_append,List.length_singleton]; omega,[s],?_,?_⟩
          · simp [allotPages,ha,Except.bind,Except.map]
          · rw [ctxSlots_done hs,hslot]
        · -- the remaining pages: the next pass starts in step with the tables again
          have hleft' (w : AllocVars α) (hw : w.leftLen = v.left') : w.leftLen = m % 2^32 := by
            rw [hw,hl,Nat.mod_eq_of_lt (by omega)]
          have finish (w : AllocVars α) (hws : w.Sync) (hwl : w.leftLen = v.left')
              (hwd : w.done.length < maxUsedWcbEntitys) (hwf : w.ftl = f) (hwb : w.slba = v.slba + 1)
              (hwe : w.emitted = v.emitted ++ [(v.entity,(v.ftl.ent v.entity).pos)])
              (hwr : allocLoop fuel w = .ok r) : r.ret = 0 ∧ r.ctxs.length ≤ maxUsedWcbEntitys ∧
              ∃ ss, allotPages (m+1) v.ftl v.slba = .ok (ss,r.ftl) ∧
                ctxSlots r.ctxs = v.emitted ++ ss := by
            obtain ⟨hret,hlen,ss,hss,hcs⟩ := ih hws (by omega) (by omega) (hleft' w hwl) hwd hwr
            refine ⟨hret,hlen,s :: ss,?_,?_⟩
            · rw [hwf,hwb] at hss
              simp [allotPages,ha,Except.bind,hss,Except.map]
            · rw [hcs,hwe,hslot,List.append_assoc]
              rfl
          simp only [hm,if_false] at hr
          by_cases hp : (v.ftl.ent v.entity).pos + 1 = raidLunSecNum
          · simp only [hp,if_true] at hr hcase
            obtain ⟨e,he⟩ := hcase
            by_cases hov : maxUsedWcbEntitys ≤ v.done.length + 1
            · simp only [hov,if_true,reduceCtorEq] at hr
            · simp only [hov,if_false] at hr
              obtain ⟨hsync,hem,-⟩ := fresh_sync hs he
              exact finish _ hsync rfl 
                (by simp only [AllocVars.fresh,List.length_append,List.length_singleton]; omega) rfl rfl hem hr
          · simp only [hp,if_false] at hr hcase
            rw [← hs.curppa] at hcase
            obtain ⟨hsync,hem⟩ := same_sync hs hcase
            exact finish _ hsync rfl hdone rfl rfl hem hr

/-- When the single-page allotments succeed and no more than three entities are crossed, so does
the loop. -/
theorem allocLoop_complete {m fuel : Nat} {v : AllocVars α} {ss : List Slot} {f' : Ftl α}
    (hs : v.Sync) (h1 : 1 ≤ m) (h2 : m ≤ 2^32) (hleft : v.leftLen = m % 2^32) (hfuel : m ≤ fuel)
    (hpos : (v.ftl.ent v.entity).pos < raidLunSecNum)
    (ha : allotPages m v.ftl v.slba = .ok (ss,f'))
    (hcross : v.done.length + ((v.ftl.ent v.entity).pos + m - 1) / raidLunSecNum < maxUsedWcbEntitys) :
    ∃ r, allocLoop fuel v = .ok r ∧ r.ret = 0 ∧ r.ftl = f' := by
  induction m generalizing fuel v ss with
  | zero => omega
  | succ m ih =>
    cases fuel with
    | zero => omega
    | succ fuel =>
      have hl : v.left' = m := by rw [AllocVars.left',hleft,u32Dec_mod h1 h2]; omega
      rw [allocLoop,allocBody_eq hs]
      rw [allotPages] at ha
      cases hp1 : allotPage v.ftl v.slba with
      | error x => simp [hp1,Except.bind] at ha
      | ok a =>
        obtain ⟨s,f⟩ := a
        obtain ⟨hslot,hcase⟩ := allotPage_ok hs.isPart hp1
        simp only [hp1,Except.bind] at ha
        cases hrest : allotPages m f (v.slba + 1) with
        | error x => simp [hrest,Except.map] at ha
        | ok rs =>
          obtain ⟨ss',g⟩ := rs
          simp only [hrest,Except.map,Except.ok.injEq,Prod.mk.injEq] at ha
          obtain ⟨-,rfl⟩ := ha
          simp only [Except.bind,hl]
          by_cases hm : m = 0
          · subst hm
            simp only [allotPages,Except.ok.injEq,Prod.mk.injEq] at hrest
            exact ⟨⟨0,f,v.done ++ [v.cur']⟩,by simp only [if_true],rfl,hrest.2⟩
          · have hleft' : v.left' = m % 2^32 := by rw [hl,Nat.mod_eq_of_lt (by omega)]
            simp only [hm,if_false]
            simp only [raidLunSecNum_eq,maxUsedWcbEntitys_eq] at hpos hcross ⊢
            by_cases hp : (v.ftl.ent v.entity).pos + 1 = 128
            · simp only [raidLunSecNum_eq,hp,if_true] at hcase ⊢
              obtain ⟨e,he⟩ := hcase
              have hov : ¬ 3 ≤ v.done.length + 1 := by omega
              simp only [hov,if_false]
              obtain ⟨hsync,-,hzero⟩ := fresh_sync hs he
              have hz : ((v.fresh f).ftl.ent (v.fresh f).entity).pos = 0 := hzero
              refine ih hsync (by omega) (by omega) hleft' (by omega) ?_ hrest ?_
              · rw [hz]; decide
              · rw [hz]
                simp only [AllocVars.fresh,List.length_append,List.length_singleton,raidLunSecNum_eq,
                  maxUsedWcbEntitys_eq]
                omega
            · simp only [raidLunSecNum_eq,hp,if_false] at hcase ⊢
              rw [← hs.curppa] at hcase
              obtain ⟨hsync,-⟩ := same_sync hs hcase
              have hz : ((v.same f).ftl.ent (v.same f).entity).pos = (v.ftl.ent v.entity).pos + 1 := by
                simp only [AllocVars.same,hcase,ent_writeSlot_self]
              refine ih hsync (by omega) (by omega) hleft' (by omega) ?_ hrest ?_
              · rw [hz,raidLunSecNum_eq]; omega
              · rw [hz]
                simp only [AllocVars.same,raidLunSecNum_eq,maxUsedWcbEntitys_eq]
                omega

/-- Pages that the loop runs for; a request of 0 wraps around. -/
def allotCount (nrPpas : Nat) : Nat := if nrPpas % 2^32 = 0 then 2^32 else nrPpas % 2^32

theorem allotCount_of_lt {n : Nat} (h1 : 1 ≤ n) (h2 : n < 2^32) : allotCount n = n := by
  rw [allotCount,Nat.mod_eq_of_lt h2,if_neg (by omega)]

private theorem allotCount_bounds (n : Nat) :
    1 ≤ allotCount n ∧ allotCount n ≤ 2^32 ∧ n % 2^32 = allotCount n % 2^32 := by
  unfold allotCount
  split <;> omega

private theorem start_sync {f : Ftl α} {e : Nat} (hp : f.wcb.partialEntity = some e) (slba n : Nat) :
    AllocVars.Sync ⟨f,e,(f.ent e).baddr + BitVec.ofNat 32 (f.ent e).pos,slba,n,[],
      ⟨e,(f.ent e).pos,(f.ent e).pos⟩⟩ :=
  ⟨hp,rfl,rfl,Nat.le_refl _⟩

/-- A call of `alloc_wcb_core` that returns has allotted its pages one by one; it returns 0. -/
theorem allocWcbCore_sound {f : Ftl α} {slba n : Nat} {r : AllocResult α}
    (h : allocWcbCore f slba n = .ok r) :
    r.ret = 0 ∧ r.ctxs.length ≤ maxUsedWcbEntitys ∧
      allotPages (allotCount n) f slba = .ok (ctxSlots r.ctxs,r.ftl) := by
  unfold allocWcbCore at h
  split at h
  · simp at h
  · rename_i e he
    obtain ⟨h1,h2,h3⟩ := allotCount_bounds n
    obtain ⟨hret,hlen,ss,hss,hcs⟩ := allocLoop_sound (start_sync he slba (n % 2^32)) h1 h2 h3
      (by simp) h
    refine ⟨hret,hlen,?_⟩
    have hem : ctxSlots r.ctxs = ss := by simpa [AllocVars.emitted,ctxSlots] using hcs
    rw [hem]
    exact hss

theorem allocWcbCore_complete {f f' : Ftl α} {slba n e : Nat} {ss : List Slot}
    (hp : f.wcb.partialEntity = some e) (h1 : 1 ≤ n) (hpos : (f.ent e).pos < raidLunSecNum)
    (hcross : ((f.ent e).pos + n - 1) / raidLunSecNum < maxUsedWcbEntitys)
    (ha : allotPages n f slba = .ok (ss,f')) :
    ∃ r, allocWcbCore f slba n = .ok r ∧ r.ret = 0 ∧ r.ftl = f' ∧ ctxSlots r.ctxs = ss := by
  have hn : n < 2^32 := by simp only [raidLunSecNum_eq,maxUsedWcbEntitys_eq] at hcross; omega
  have hmod : n % 2^32 = n := Nat.mod_eq_of_lt hn
  obtain ⟨r,hr,hret,hftl⟩ := allocLoop_complete (start_sync hp slba (n % 2^32)) h1 (by omega)
    rfl (Nat.le_of_lt hn) hpos ha (by simpa using hcross)
  have hcall : allocWcbCore f slba n = .ok r := by simp only [allocWcbCore,hp]; exact hr
  obtain ⟨-,-,hall⟩ := allocWcbCore_sound hcall
  rw [allotCount_of_lt h1 hn,ha,Except.ok.injEq,Prod.mk.injEq] at hall
  exact ⟨r,hcall,hret,hftl,hall.1.symm⟩

end Sdssd.Host
