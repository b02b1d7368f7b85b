import Sdssd.Host.Ownership

/-!
# Specification of the page allocator

When `alloc_wcb_core` succeeds, and what it leaves in the contexts, the entities and the FIFO of empty
entities.
-/

namespace Sdssd.Host

open Framework

variable {α : Type}

/-- What an allocation has done to the entities once it has handed out the slots `ss`: it started in
`f` with entity `e` open and `q` empty, and stands in `g` with `x` open and `qs` empty. -/
structure HandedOut (f : Ftl α) (e : Nat) (q : List Nat) (ss : List Slot) (g : Ftl α) (x : Nat)
    (qs : List Nat) : Prop where
  behind : Behind ss g x qs
  opened : x ∈ e :: q
  suffix : qs <:+ q
  ppa : ∀ s ∈ ss, g.ppaAt s = ((g.ent s.1).baddr + BitVec.ofNat 32 s.2).toNat
  others : ∀ y, y ∉ e :: q ∨ y ∈ qs → g.ent y = f.ent y
  link : ∀ y, y ∉ q → g.wcb.link y = f.wcb.link y

section Steps

variable {f g g' : Ftl α} {e x x' lba : Nat} {q qs qs' : List Nat} {ss : List Slot}

theorem handedOut_init (f : Ftl α) (e : Nat) (q : List Nat) : HandedOut f e q [] f e q := by
  constructor
  case behind =>
    intro s hs
    cases hs
  case opened => exact List.mem_cons_self
  case suffix => exact List.suffix_rfl
  case ppa =>
    intro s hs
    cases hs
  case others => exact fun _ _ => rfl
  case link => exact fun _ _ => rfl

/-- The addresses in slots already handed out stay, and the next slot gets its own. -/
private theorem HandedOut.ppa_step (h : HandedOut f e q ss g x qs) (hg : Ready g x qs)
    (hall : Allot g x qs lba g' x' qs') :
    ∀ s ∈ ss ++ [(x,(g.ent x).pos)], g'.ppaAt s = ((g'.ent s.1).baddr + BitVec.ofNat 32 s.2).toNat := by
  have hnot (s : Slot) (hs : s ∈ ss ++ [(x,(g.ent x).pos)]) : s.1 ∉ qs := by
    rcases List.mem_append.mp hs with hs | hs
    · exact (h.behind s hs).1
    · rw [List.mem_singleton.mp hs]
      exact hg.notMem
  have hbaddr (s : Slot) (hs : s ∈ ss ++ [(x,(g.ent x).pos)]) :
      (g'.ent s.1).baddr = (g.ent s.1).baddr := by
    cases hall with
    | room hpos => exact baddr_writeSlot ..
    | last hpos hcons _ hqueue hlink =>
      have hne : s.1 ≠ x' := by
        intro he
        exact hnot s hs (hcons ▸ he ▸ List.mem_cons_self)
      rw [ent_openEnt_of_ne _ _ _ _ _ _ hne]
      exact baddr_writeSlot ..
  intro s hs
  rw [hbaddr s hs]
  rcases List.mem_append.mp hs with hs | hs
  · rw [(hall.off_slot (ne_of_mem_of_not_mem hs h.behind.notMem)).2]
    exact h.ppa s hs
  · rw [List.mem_singleton.mp hs]
    exact hall.at_slot.2

theorem HandedOut.step (h : HandedOut f e q ss g x qs) (hg : Ready g x qs)
    (hall : Allot g x qs lba g' x' qs') : HandedOut f e q (ss ++ [(x,(g.ent x).pos)]) g' x' qs' := by
  have hbehind := hall.behind hg h.behind
  have hppa := h.ppa_step hg hall
  have hx (y : Nat) (hy : y ∉ e :: q ∨ y ∈ qs) : y ≠ x := by
    rcases hy with hy | hy
    · exact fun he => hy (he ▸ h.opened)
    · exact ne_of_mem_of_not_mem hy hg.notMem
  cases hall with
  | room hpos =>
    refine ⟨hbehind,h.opened,h.suffix,hppa,?_,h.link⟩
    intro y hy
    rw [ent_writeSlot_of_ne _ _ _ (hx y hy)]
    exact h.others y hy
  | last hpos hcons hbaddr hqueue hlink =>
    subst hcons
    have hx'q : x' ∈ q := h.suffix.subset List.mem_cons_self
    refine ⟨hbehind,List.mem_cons_of_mem e hx'q,(List.suffix_cons x' qs').trans h.suffix,hppa,?_,?_⟩
    · intro y hy
      have hy' : y ∉ e :: q ∨ y ∈ x' :: qs' := hy.imp_right (List.mem_cons_of_mem x')
      have hne : y ≠ x' := by
        rcases hy with hy | hy
        · exact fun he => hy (he ▸ List.mem_cons_of_mem e hx'q)
        · exact ne_of_mem_of_not_mem hy (List.nodup_cons.mp hg.queue.nodup).1
      rw [ent_openEnt_of_ne _ _ _ _ _ _ hne,ent_writeSlot_of_ne _ _ _ (hx y hy')]
      exact h.others y hy'
    · intro y hy
      have hylink := hlink y fun hmem => hy (h.suffix.subset hmem)
      exact hylink.trans (h.link y hy)

end Steps

/-- A successful allocation, seen as a whole. -/
theorem allotPages_handedOut {f f' : Ftl α} {e lba n : Nat} {q : List Nat} {ss : List Slot}
    (hr : Ready f e q) (h : allotPages n f lba = .ok (ss,f')) :
    ∃ e' q', Ready f' e' q' ∧ HandedOut f e q ss f' e' q' := by
  have hinduct := allotPages_induct (HandedOut f e q) hr (handedOut_init f e q)
    (fun _ _ _ _ _ _ _ _ hg hP hall => hP.step hg hall) h
  exact hinduct.2

/-- What a successful call leaves, when it started with entity `e` open and `q` in `empty_lun`. -/
structure AllocPost (f : Ftl α) (e : Nat) (q : List Nat) (slba n : Nat) (r : AllocResult α) : Prop where
  contexts : r.ctxs.length ≤ maxUsedWcbEntitys
  count : (ctxSlots r.ctxs).length = n
  /-- The slots are consecutive from the old `pos` on, through the open and the pulled entities. -/
  slots : ctxSlots r.ctxs = nextSlots (e :: q) (f.ent e).pos n
  written : ∀ k s, (ctxSlots r.ctxs)[k]? = some s → r.ftl.lbaAt s = (slba + k) % 2^32 ∧
    r.ftl.ppaAt s = ((r.ftl.ent s.1).baddr + BitVec.ofNat 32 s.2).toNat
  /-- The entities behind those used up: the first of them is open, the others are still queued. -/
  pulled : ∃ e' q', (e :: q).drop (((f.ent e).pos + n) / raidLunSecNum) = e' :: q' ∧
    r.ftl.wcb.partialEntity = some e' ∧ Fifo.Holds r.ftl.wcb.link r.ftl.wcb.emptyLun q' ∧
    (r.ftl.ent e').pos = ((f.ent e).pos + n) % raidLunSecNum
  others : ∀ y, y ∉ (e :: q).take (((f.ent e).pos + n) / raidLunSecNum + 1) → r.ftl.ent y = f.ent y
  link : ∀ y, y ∉ q → r.ftl.wcb.link y = f.wcb.link y
  offSlots : ∀ s, s ∉ ctxSlots r.ctxs → r.ftl.lbaAt s = f.lbaAt s ∧ r.ftl.ppaAt s = f.ppaAt s
  data : ∀ y, (r.ftl.ent y).data = (f.ent y).data

section Spec

variable {f : Ftl α} {e slba n : Nat} {q pool : List Nat} {r : AllocResult α}

/-- The limit of three entities bounds the request, so the `u32` count does not wrap. -/
private theorem allotCount_of_three
    (hcap : ((f.ent e).pos + n + (raidLunSecNum - 1)) / raidLunSecNum ≤ maxUsedWcbEntitys)
    (hn : 1 ≤ n) : allotCount n = n := by
  simp only [raidLunSecNum_eq,maxUsedWcbEntitys_eq] at hcap
  exact allotCount_of_lt hn (by omega)

theorem allocWcbCore_post (hr : Ready f e q) (hcount : allotCount n = n)
    (h : allocWcbCore f slba n = .ok r) : AllocPost f e q slba n r := by
  obtain ⟨-,hlen,hpages⟩ := allocWcbCore_sound h
  rw [hcount] at hpages
  obtain ⟨hslots,e',q',hr',hdrop,hpos⟩ := allotPages_slots hr hpages
  obtain ⟨-,hcnt,hlba,hoff⟩ := allotPages_written hr hpages
  obtain ⟨x,qs,hx,hout⟩ := allotPages_handedOut hr hpages
  have hlast : x = e' := Option.some.inj (hx.isPart.symm.trans hr'.isPart)
  have hrest : qs = q' := hx.queue.toList_eq.symm.trans hr'.queue.toList_eq
  subst hlast hrest
  constructor
  case contexts => exact hlen
  case count => exact hcnt
  case slots => exact hslots
  case written =>
    intro k s hs
    constructor
    · have hk := congrArg (fun l : List Nat => l[k]?) hlba
      have hlt : k < n := hcnt ▸ (List.getElem?_eq_some_iff.mp hs).1
      simpa [hs,hlt] using hk
    · exact hout.ppa s (List.mem_of_getElem? hs)
  case pulled => exact ⟨x,qs,hdrop,hx.isPart,hx.queue,hpos⟩
  case others =>
    intro y hy
    apply hout.others
    by_cases hmem : y ∈ e :: q
    · right
      rw [← List.take_append_drop (((f.ent e).pos + n) / raidLunSecNum + 1) (e :: q)] at hmem
      rcases List.mem_append.mp hmem with hmem | hmem
      · exact absurd hmem hy
      · rwa [← List.drop_drop,hdrop] at hmem
    · exact Or.inl hmem
  case link => exact hout.link
  case offSlots => exact hoff
  case data => exact allotPages_data hr hpages

/-- A call that returns has found enough empty entities. -/
theorem allocWcbCore_enough (hr : Ready f e q) (hcount : allotCount n = n)
    (h : allocWcbCore f slba n = .ok r) : ((f.ent e).pos + n) / raidLunSecNum ≤ q.length := by
  obtain ⟨x,qs,hdrop,-⟩ := (allocWcbCore_post hr hcount h).pulled
  by_contra hlt
  have hnil : (e :: q).drop (((f.ent e).pos + n) / raidLunSecNum) = [] := by
    apply List.drop_eq_nil_of_le
    rw [List.length_cons]
    omega
  cases hnil.symm.trans hdrop

/-- `alloc_wcb_core` returns 0 exactly when `empty_lun` has an entity for each one that the request
uses up. -/
theorem allocWcbCore_returns_iff (slba : Nat) (hr : Ready f e q) (hpool : Pool f.sys pool) (hn : 1 ≤ n)
    (hcap : ((f.ent e).pos + n + (raidLunSecNum - 1)) / raidLunSecNum ≤ maxUsedWcbEntitys) :
    (∃ r, allocWcbCore f slba n = .ok r ∧ r.ret = 0) ↔
      ((f.ent e).pos + n) / raidLunSecNum ≤ q.length := by
  constructor
  · intro hret
    obtain ⟨r,hcall,-⟩ := hret
    exact allocWcbCore_enough hr (allotCount_of_three hcap hn) hcall
  · intro henough
    obtain ⟨ss,f',hpages⟩ := allotPages_progress slba hr hpool henough
    have hcross : ((f.ent e).pos + n - 1) / raidLunSecNum < maxUsedWcbEntitys := by
      simp only [raidLunSecNum_eq,maxUsedWcbEntitys_eq] at hcap ⊢
      omega
    obtain ⟨r,hcall,hzero,-⟩ := allocWcbCore_complete hr.isPart hn hr.pos hcross hpages
    exact ⟨r,hcall,hzero⟩

/-- `alloc_wcb_core` returns 0 exactly when `empty_lun` has an entity for each one that the request
uses up, and then the contexts, the slots, the entities and the FIFO are as specified. -/
theorem alloc_wcb_core_spec (slba : Nat) (hr : Ready f e q) (hpool : Pool f.sys pool) (hn : 1 ≤ n)
    (hcap : ((f.ent e).pos + n + (raidLunSecNum - 1)) / raidLunSecNum ≤ maxUsedWcbEntitys) :
    ((∃ r, allocWcbCore f slba n = .ok r ∧ r.ret = 0) ↔
        ((f.ent e).pos + n) / raidLunSecNum ≤ q.length) ∧
      ∀ r, allocWcbCore f slba n = .ok r → r.ret = 0 → AllocPost f e q slba n r := by
  refine ⟨allocWcbCore_returns_iff slba hr hpool hn hcap,?_⟩
  intro r hcall _
  exact allocWcbCore_post hr (allotCount_of_three hcap hn) hcall

end Spec

/-- Entity 0 is open at slot 100, entities 1 and 2 are empty. -/
def twoEmpty : Ftl Nat :=
  let r := Fifo.init.push (fun _ => ⟨noIndex,noIndex⟩) 1
  let r := r.1.push r.2 2
  ⟨⟨fun _ => ⟨0,0,0,0,fun _ => none,fun _ => 0,fun _ => 0,0,100,0⟩,r.2,r.1,Fifo.init,some 0,0⟩,
    sysTblInit,l2pTblInit⟩

theorem ready_twoEmpty : Ready twoEmpty 0 [1,2] := by
  have hone := (Fifo.holds_init fun _ => ⟨noIndex,noIndex⟩).push (i := 1) (by simp) (by decide)
  have htwo := hone.push (i := 2) (by simp) (by decide)
  exact ⟨rfl,by decide,htwo,by decide⟩

/-- A request for 200 pages from slot 100 on uses up two entities and ends in the third. -/
theorem alloc_wcb_core_spec_three :
    ∃ r, allocWcbCore twoEmpty 7 200 = .ok r ∧ r.ret = 0 ∧ AllocPost twoEmpty 0 [1,2] 7 200 r := by
  have hspec := alloc_wcb_core_spec (n := 200) 7 ready_twoEmpty pool_init (by decide) (by decide)
  obtain ⟨r,hcall,hzero⟩ := hspec.1.mpr (by decide)
  exact ⟨r,hcall,hzero,hspec.2 r hcall hzero⟩

/-- `lba` is a `u32` and the LBA is a `sector_t`: from `2^32` on the slot holds something else. -/
theorem alloc_wcb_core_truncates_lba :
    ∃ r, allocWcbCore twoEmpty (2^32) 1 = .ok r ∧ r.ret = 0 ∧ ctxSlots r.ctxs = [(0,100)] ∧
      r.ftl.lbaAt (0,100) = 0 := by
  have hpages : allotPages 1 twoEmpty (2^32) =
      .ok ([(0,100)],twoEmpty.writeSlot 0 (2^32) (twoEmpty.nextPpa 0)) := rfl
  obtain ⟨r,hcall,hzero,hftl,hslots⟩ := allocWcbCore_complete ready_twoEmpty.isPart (by decide) (by decide)
    (by decide) hpages
  refine ⟨r,hcall,hzero,hslots,?_⟩
  rw [hftl]
  rfl

end Sdssd.Host
