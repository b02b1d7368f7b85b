import Sdssd.Host.AllocSpec

/-!
# Resuming in the middle of a LUN

`get_lun_entity` opens an entity at any page of a LUN. The slots before it count as used in `pos`, but
not in `fill_cnt`, whose test decides when the entity is full.
-/

namespace Sdssd.Host

open Framework

variable {α : Type}

section Position

/-- The three fields are the low seven bits of the address. -/
theorem resume_pos (startppa : GeoPpa) :
    Nand.ch.get startppa ||| Nand.sec.get startppa <<< chBits |||
      Nand.pl.get startppa <<< (chBits + epBits) = startppa.toNat % raidLunSecNum := by
  have hch : Nand.ch.get startppa = startppa.toNat % 16 := by
    rw [show Nand.ch.get startppa = startppa.toNat / 1 % 16 from rfl,Nat.div_one]
  have hsec : Nand.sec.get startppa = startppa.toNat / 16 % 4 := rfl
  have hpl : Nand.pl.get startppa = startppa.toNat / 64 % 2 := rfl
  have hlow : Nand.ch.get startppa ||| Nand.sec.get startppa <<< chBits = startppa.toNat % 64 := by
    have hlt : Nand.ch.get startppa < 2^chBits := by
      rw [hch]
      exact Nat.mod_lt _ (by decide)
    rw [Nat.or_comm,← Nat.shiftLeft_add_eq_or_of_lt hlt,Nat.shiftLeft_eq,hch,hsec]
    simp only [chBits]
    omega
  have hlt : startppa.toNat % 64 < 2^(chBits + epBits) := Nat.mod_lt _ (by decide)
  rw [hlow,Nat.or_comm,← Nat.shiftLeft_add_eq_or_of_lt hlt,Nat.shiftLeft_eq,hpl,raidLunSecNum_eq]
  simp only [chBits,epBits]
  omega

end Position

/-- The entity starts at `startppa`: its base is the LUN's first page. -/
structure StartsAt (f : Ftl α) (e : Nat) (startppa : GeoPpa) : Prop where
  address : (f.ent e).baddr.toNat + (f.ent e).pos = startppa.toNat
  ch : Nand.ch.get (f.ent e).baddr = 0
  sec : Nand.sec.get (f.ent e).baddr = 0
  pl : Nand.pl.get (f.ent e).baddr = 0

/-- The tables after the resume, the slots that were allotted and not yet copied, and the entities that
the copies pushed to `full_lun`. -/
structure Refill (α : Type) where
  ftl : Ftl α
  pend : List Slot
  pushed : List Nat

inductive RefillLabel (α : Type)
  | alloc (slba n : Nat)
  | copy (slot : Slot) (bio : Bio α) (adv : Nat)

namespace Refill

/-- The copy that brings `fill_cnt` to the number of slots pushes the entity. -/
def copied (s : Refill α) (slot : Slot) (bio : Bio α) (adv : Nat) : Refill α where
  ftl := (flushSlot s.ftl bio adv slot).1
  pend := s.pend.erase slot
  pushed := if (s.ftl.ent slot.1).fillCnt + 1 = raidLunSecNum then s.pushed ++ [slot.1] else s.pushed

/-- Allocations of any size, and copies of their slots in any order. -/
def step (s : Refill α) : RefillLabel α → Option (Refill α)
  | .alloc slba n => (allocWcbCore s.ftl slba n).toOption.map fun r =>
      { s with ftl := r.ftl, pend := s.pend ++ ctxSlots r.ctxs }
  | .copy slot bio adv => if s.pend.contains slot then some (s.copied slot bio adv) else none

/-- All slots of the entity were allotted, and all allotted ones are copied. -/
def Filled (s : Refill α) (e : Nat) : Prop := (s.ftl.ent e).pos = raidLunSecNum ∧ heldBy s.pend e = []

end Refill

/-- The push in `flush_data_to_wcb` is the one that the log records. -/
theorem Refill.copied_fullLun (s : Refill α) (slot : Slot) (bio : Bio α) (adv : Nat) :
    (s.copied slot bio adv).ftl.wcb.fullLun = if (s.ftl.ent slot.1).fillCnt + 1 = raidLunSecNum then
      (s.ftl.wcb.fullLun.push s.ftl.wcb.link slot.1).1 else s.ftl.wcb.fullLun := by
  rw [copied,flushSlot_wcb]
  split <;> rfl

/-- Entity `e` was opened at slot `p₀` with `fill_cnt` at `c₀`, and `k` of its slots are copied since.
The counter passes 128 at most once. -/
structure Tally (e p₀ c₀ k : Nat) (s : Refill α) : Prop where
  pos : (s.ftl.ent e).pos = p₀ + (heldBy s.pend e).length + k
  fill : (s.ftl.ent e).fillCnt + raidLunSecNum * s.pushed.count e = c₀ + k
  pushes : s.pushed.count e = if c₀ < raidLunSecNum ∧ raidLunSecNum ≤ c₀ + k then 1 else 0

/-- The rest of the invariant: the open entity `cur` and the empty ones `q`, which are `q₀` at first, and
that the links of `q` are out of reach of the pushes. -/
structure Refilling (e : Nat) (q₀ : List Nat) (s : Refill α) (cur : Nat) (q : List Nat) : Prop where
  origin : ∀ i ∈ cur :: q, i ∈ e :: q₀
  ready : Ready s.ftl cur q
  tail : s.ftl.wcb.fullLun.tail ∉ q
  pend : ∀ slot ∈ s.pend, slot.1 ∉ q
  notMem : e ∉ q
  used : cur ≠ e → (s.ftl.ent e).pos = raidLunSecNum

section Run

variable {e p₀ c₀ k cur lba : Nat} {q₀ q : List Nat} {s s' : Refill α}

theorem Refilling.pos_le (h : Refilling e q₀ s cur q) : (s.ftl.ent e).pos ≤ raidLunSecNum := by
  rcases eq_or_ne cur e with rfl | hne
  · exact Nat.le_of_lt h.ready.pos
  · exact Nat.le_of_eq (h.used hne)

/-- Of an entity that is not queued an allotment only moves `pos`, if it is the open one. -/
theorem Allot.ent_of_notMem {f g' : Ftl α} {x' : Nat} {q' : List Nat} (ha : Allot f cur q lba g' x' q')
    (he : e ∉ q) : (g'.ent e).fillCnt = (f.ent e).fillCnt ∧
      (g'.ent e).pos = (f.ent e).pos + if cur = e then 1 else 0 := by
  cases ha with
  | room hpos =>
    rcases eq_or_ne cur e with rfl | hne
    · simp [ent_writeSlot_self]
    · simp [ent_writeSlot_of_ne,hne,Ne.symm hne]
  | last hpos hq hbaddr hqueue hlink =>
    have hne' : e ≠ x' := fun hx => he (by simp [hq,hx])
    rw [ent_openEnt_of_ne _ _ _ _ _ _ hne']
    rcases eq_or_ne cur e with rfl | hne
    · simp [ent_writeSlot_self]
    · simp [ent_writeSlot_of_ne,hne,Ne.symm hne]

theorem Allot.queues {f g' : Ftl α} {x' : Nat} {q' : List Nat} (ha : Allot f cur q lba g' x' q') :
    g'.wcb.fullLun = f.wcb.fullLun ∧ (∀ i ∈ q', i ∈ q) ∧ ∀ i ∈ x' :: q', i ∈ cur :: q := by
  cases ha with
  | room => exact ⟨rfl,fun _ hi => hi,fun _ hi => hi⟩
  | last _ hq =>
    subst hq
    exact ⟨rfl,fun i hi => List.mem_cons_of_mem _ hi,fun i hi => List.mem_cons_of_mem _ hi⟩

/-- One page is allotted. -/
theorem Refilling.allot {g' : Ftl α} {x' : Nat} {q' : List Nat} (h : Refilling e q₀ s cur q)
    (ha : Allot s.ftl cur q lba g' x' q') :
    Refilling e q₀ { s with ftl := g', pend := s.pend ++ [(cur,(s.ftl.ent cur).pos)] } x' q' := by
  obtain ⟨hfull,hsub,horigin⟩ := ha.queues
  refine ⟨fun i hi => h.origin i (horigin i hi),ha.ready h.ready,?_,fun slot hslot hmem => ?_,
    fun hmem => h.notMem (hsub e hmem),fun hx' => ?_⟩
  · rw [hfull]
    exact fun hmem => h.tail (hsub _ hmem)
  · rcases List.mem_append.mp hslot with hslot | hslot
    · exact h.pend slot hslot (hsub _ hmem)
    · rw [List.mem_singleton.mp hslot] at hmem
      exact h.ready.notMem (hsub _ hmem)
  · rw [(ha.ent_of_notMem h.notMem).2]
    cases ha with
    | room => rw [if_neg hx',Nat.add_zero,h.used hx']
    | last hpos =>
      rcases eq_or_ne cur e with rfl | hne
      · rw [if_pos rfl,hpos]
      · rw [if_neg hne,Nat.add_zero,h.used hne]

theorem Tally.allot {g' : Ftl α} {x' : Nat} {q' : List Nat} (ht : Tally e p₀ c₀ k s) (he : e ∉ q)
    (ha : Allot s.ftl cur q lba g' x' q') :
    Tally e p₀ c₀ k { s with ftl := g', pend := s.pend ++ [(cur,(s.ftl.ent cur).pos)] } := by
  obtain ⟨hfill,hpos⟩ := ha.ent_of_notMem he
  have hheld : (heldBy (s.pend ++ [(cur,(s.ftl.ent cur).pos)]) e).length =
      (heldBy s.pend e).length + if cur = e then 1 else 0 := by
    rw [heldBy_append,List.length_append]
    rcases eq_or_ne cur e with rfl | hne
    · simp
    · simp [hne]
  refine ⟨?_,?_,ht.pushes⟩
  · show (g'.ent e).pos = p₀ + (heldBy (s.pend ++ [(cur,(s.ftl.ent cur).pos)]) e).length + k
    rw [hpos,hheld,ht.pos]
    omega
  · show (g'.ent e).fillCnt + _ = _
    rw [hfill]
    exact ht.fill

/-- An allocation of any size. -/
theorem Refilling.alloc {slba n : Nat} {r : AllocResult α} (h : Refilling e q₀ s cur q)
    (ht : Tally e p₀ c₀ k s) (hr : allocWcbCore s.ftl slba n = .ok r) :
    ∃ x' q', Refilling e q₀ { s with ftl := r.ftl, pend := s.pend ++ ctxSlots r.ctxs } x' q' ∧
      Tally e p₀ c₀ k { s with ftl := r.ftl, pend := s.pend ++ ctxSlots r.ctxs } := by
  let P (ss : List Slot) (g : Ftl α) (x : Nat) (qs : List Nat) : Prop :=
    Refilling e q₀ { s with ftl := g, pend := s.pend ++ ss } x qs ∧
      Tally e p₀ c₀ k { s with ftl := g, pend := s.pend ++ ss }
  have h0 : P [] s.ftl cur q := by
    simp only [P,List.append_nil]
    exact ⟨h,ht⟩
  obtain ⟨-,x',q',-,hP⟩ := allotPages_induct P h.ready h0
    (fun ss g x qs g' x' qs' _ _ hP ha => by
      have hallot := And.intro (hP.1.allot ha) (hP.2.allot hP.1.notMem ha)
      rwa [List.append_assoc] at hallot) (allocWcbCore_sound hr).2.2
  exact ⟨x',q',hP⟩

/-- The copy of any slot. -/
theorem Refilling.copied {slot : Slot} (h : Refilling e q₀ s cur q) (hm : slot ∈ s.pend) (bio : Bio α)
    (adv : Nat) : Refilling e q₀ (s.copied slot bio adv) cur q := by
  have hframe := flushSlot_frame s.ftl bio adv slot
  have hout := h.pend slot hm
  have hwcb := flushSlot_wcb s.ftl bio adv slot
  have hlink (j : Nat) (hj : j ∈ q) :
      (flushSlot s.ftl bio adv slot).1.wcb.link j = s.ftl.wcb.link j := by
    rw [hwcb]
    split
    · exact Fifo.push_link_off_tail (fun he => hout (he ▸ hj)) fun he => h.tail (he ▸ hj)
    · rfl
  have hempty : (flushSlot s.ftl bio adv slot).1.wcb.emptyLun = s.ftl.wcb.emptyLun := by
    rw [hwcb]
    split <;> rfl
  have hpart : (flushSlot s.ftl bio adv slot).1.wcb.partialEntity = s.ftl.wcb.partialEntity := by
    rw [hwcb]
    split <;> rfl
  refine ⟨h.origin,⟨hpart.trans h.ready.isPart,?_,?_,h.ready.notMem⟩,?_,?_,h.notMem,fun hne => ?_⟩
  · rw [Refill.copied,hframe.pos]
    exact h.ready.pos
  · rw [Refill.copied,hempty]
    exact h.ready.queue.congr hlink
  · rw [Refill.copied_fullLun]
    split
    · rw [Fifo.push_tail]
      exact hout
    · exact h.tail
  · exact fun slot' hslot' => h.pend slot' (List.mem_of_mem_erase hslot')
  · rw [Refill.copied,hframe.pos]
    exact h.used hne

/-- A copy of one of the entity's slots counts, and the counter cannot pass 128 twice. -/
theorem Tally.copied_self {pos : Nat} (ht : Tally e p₀ c₀ k s) (hle : (s.ftl.ent e).pos ≤ raidLunSecNum)
    (hm : (e,pos) ∈ s.pend) (bio : Bio α) (adv : Nat) : Tally e p₀ c₀ (k+1) (s.copied (e,pos) bio adv) := by
  have hlen : (heldBy s.pend e).length = (heldBy (s.pend.erase (e,pos)) e).length + 1 := by
    rw [(heldBy_perm (List.perm_cons_erase hm) e).length_eq,heldBy_cons_self,List.length_cons]
  have hself := flushSlot_ent_self s.ftl bio adv (e,pos)
  have hpos := ht.pos
  have hfill := ht.fill
  have hpushes := ht.pushes
  have hcount : (s.copied (e,pos) bio adv).pushed.count e =
      s.pushed.count e + if (s.ftl.ent e).fillCnt + 1 = raidLunSecNum then 1 else 0 := by
    simp only [Refill.copied]
    split
    · rw [List.count_append,List.count_singleton_self]
    · rfl
  have hfill' : ((s.copied (e,pos) bio adv).ftl.ent e).fillCnt =
      if (s.ftl.ent e).fillCnt + 1 = raidLunSecNum then 0 else (s.ftl.ent e).fillCnt + 1 := by
    rw [Refill.copied,hself]
  have hpos' : ((s.copied (e,pos) bio adv).ftl.ent e).pos = (s.ftl.ent e).pos := by
    rw [Refill.copied,hself]
  rw [raidLunSecNum_eq] at *
  refine ⟨?_,?_,?_⟩
  · rw [hpos',hpos,hlen]
    show _ = p₀ + (heldBy (s.pend.erase (e,pos)) e).length + (k + 1)
    omega
  · rw [hfill',hcount,raidLunSecNum_eq]
    split_ifs <;> omega
  · rw [hcount,hpushes,raidLunSecNum_eq]
    rw [hpushes] at hfill
    split_ifs at hfill ⊢ <;> omega

/-- A copy into another entity leaves the count alone. -/
theorem Tally.copied_of_ne {slot : Slot} (ht : Tally e p₀ c₀ k s) (hm : slot ∈ s.pend) (hne : e ≠ slot.1)
    (bio : Bio α) (adv : Nat) : Tally e p₀ c₀ k (s.copied slot bio adv) := by
  have hheld : (heldBy s.pend e).length = (heldBy (s.pend.erase slot) e).length := by
    rw [(heldBy_perm (List.perm_cons_erase hm) e).length_eq,heldBy_cons_of_ne (Ne.symm hne)]
  have hent : (s.copied slot bio adv).ftl.ent e = s.ftl.ent e :=
    flushSlot_ent_of_ne s.ftl bio adv slot hne
  have hcount : (s.copied slot bio adv).pushed.count e = s.pushed.count e := by
    simp only [Refill.copied]
    split
    · rw [List.count_append,List.count_singleton,beq_false_of_ne (Ne.symm hne)]
      rfl
    · rfl
  refine ⟨?_,?_,?_⟩
  · rw [hent,ht.pos,hheld]
    rfl
  · rw [hent,hcount]
    exact ht.fill
  · rw [hcount]
    exact ht.pushes

/-- What holds in every state that a resumed entity can reach. -/
def Resumed (e : Nat) (q₀ : List Nat) (p₀ c₀ : Nat) (s : Refill α) : Prop :=
  ∃ cur q k, Refilling e q₀ s cur q ∧ Tally e p₀ c₀ k s

theorem Resumed.step {l : RefillLabel α} (h : Resumed e q₀ p₀ c₀ s) (hl : s.step l = some s') :
    Resumed e q₀ p₀ c₀ s' := by
  obtain ⟨cur,q,k,hr,ht⟩ := h
  cases l with
  | alloc slba n =>
    obtain ⟨r,hcall,rfl⟩ := Option.map_eq_some_iff.mp hl
    have hcall : allocWcbCore s.ftl slba n = .ok r := by
      cases hres : allocWcbCore s.ftl slba n with
      | error x =>
        rw [hres] at hcall
        cases hcall
      | ok r' =>
        rw [hres] at hcall
        rw [Option.some.inj hcall]
    obtain ⟨x',q',h'⟩ := hr.alloc ht hcall
    exact ⟨x',q',k,h'⟩
  | copy slot bio adv =>
    simp only [Refill.step,List.contains_iff_mem,Option.ite_none_right_eq_some,Option.some.injEq] at hl
    obtain ⟨hm,rfl⟩ := hl
    rcases eq_or_ne e slot.1 with rfl | hne
    · exact ⟨cur,q,k+1,hr.copied hm bio adv,ht.copied_self hr.pos_le hm bio adv⟩
    · exact ⟨cur,q,k,hr.copied hm bio adv,ht.copied_of_ne hm hne bio adv⟩

/-- When all slots behind `p₀` are copied, the entity was pushed once or not at all. -/
theorem Resumed.filled (h : Resumed e q₀ p₀ c₀ s) (hfilled : s.Filled e) :
    s.pushed.count e = 1 ↔ p₀ ≤ c₀ ∧ c₀ < raidLunSecNum := by
  obtain ⟨cur,q,k,-,ht⟩ := h
  have hpos := ht.pos
  rw [hfilled.1,hfilled.2,List.length_nil,raidLunSecNum_eq] at hpos
  rw [ht.pushes,raidLunSecNum_eq]
  by_cases hpassed : c₀ < 128 ∧ 128 ≤ c₀ + k
  · rw [if_pos hpassed]
    omega
  · rw [if_neg hpassed]
    omega

/-- Without another empty entity the last slot cannot be allotted. -/
theorem Resumed.not_filled (h : Resumed e [] p₀ c₀ s) : ¬s.Filled e := by
  obtain ⟨cur,q,k,hr,-⟩ := h
  rintro ⟨hpos,-⟩
  have hcur : cur = e := List.mem_singleton.mp (hr.origin cur List.mem_cons_self)
  exact Nat.ne_of_lt hr.ready.pos (hcur ▸ hpos)

/-- Every state reaches one in which nothing is left to copy. -/
theorem exists_copied (bio : Bio α) (s : Refill α) : ∃ s', Reaches Refill.step always s s' ∧
    s'.pend = [] ∧ ∀ x, (s'.ftl.ent x).pos = (s.ftl.ent x).pos := by
  generalize hpend : s.pend = pend
  induction pend generalizing s with
  | nil => exact ⟨s,Reaches.refl s,hpend,fun _ => rfl⟩
  | cons slot pend ih =>
    have hm : s.pend.contains slot := by simp [hpend]
    have hrest : (s.copied slot bio 0).pend = pend := by simp [Refill.copied,hpend]
    obtain ⟨s',hrun,hnil,hpos⟩ := ih (s.copied slot bio 0) hrest
    refine ⟨s',(Reaches.single (l := .copy slot bio 0) trivial (if_pos hm)).trans hrun,hnil,?_⟩
    intro x
    rw [hpos,Refill.copied,(flushSlot_frame s.ftl bio 0 slot).pos]

end Run

/-- The queues when `get_lun_entity` is called; `e` is the entity it takes. -/
structure Resumable (f : Ftl α) (e : Nat) (q fq free : List Nat) : Prop where
  empties : Fifo.Holds f.wcb.link f.wcb.emptyLun (e :: q)
  fulls : Fifo.Holds f.wcb.link f.wcb.fullLun fq
  apart : ∀ i ∈ q, i ∉ fq
  pool : Pool f.sys free

section Start

variable {f : Ftl α} {e : Nat} {q fq free : List Nat}

theorem getLunEntity_ok (h : Resumable f e q fq free) (startppa : GeoPpa) :
    ∃ f', getLunEntity f startppa = (some e,f') ∧ StartsAt f' e startppa ∧ Pool f'.sys free ∧
      Resumed e q (startppa.toNat % raidLunSecNum) (f.ent e).fillCnt ⟨f',[],[]⟩ ∧ Ready f' e q := by
  obtain ⟨fifo,ln,hpull,hqueue,-⟩ := h.empties.pull
  let f' := (getLunEntity f startppa).2
  have hcall : getLunEntity f startppa = (some e,f') := by
    simp only [f',getLunEntity,pullLunEntityFromFifo,hpull]
  have hf' : f' = ((f.setEmpty fifo ln).setEnt e { f.ent e with
      baddr := Nand.pl.set (Nand.sec.set (Nand.ch.set startppa 0) 0) 0
      pos := startppa.toNat % raidLunSecNum, cqeFlag := 0 }).setPartial (some e) := by
    simp only [f',getLunEntity,pullLunEntityFromFifo,hpull,resume_pos]
  have hent : f'.ent e = { f.ent e with
      baddr := Nand.pl.set (Nand.sec.set (Nand.ch.set startppa 0) 0) 0
      pos := startppa.toNat % raidLunSecNum, cqeFlag := 0 } := by
    rw [hf']
    exact ent_setEnt_self _ e _
  have hbase : (f'.ent e).baddr.toNat = startppa.toNat / 128 * 128 := by
    rw [hent]
    exact toNat_stripe startppa
  have hpos : (f'.ent e).pos = startppa.toNat % raidLunSecNum := by rw [hent]
  have hfill : (f'.ent e).fillCnt = (f.ent e).fillCnt := by rw [hent]
  have hready : Ready f' e q := by
    refine ⟨by rw [hf']; rfl,?_,by rw [hf']; exact hqueue,(List.nodup_cons.mp h.empties.nodup).1⟩
    rw [hpos]
    exact Nat.mod_lt _ (by decide)
  have htail : f'.wcb.fullLun.tail ∉ q := by
    rw [show f'.wcb.fullLun = f.wcb.fullLun by rw [hf']; rfl]
    intro hmem
    have hindex := h.empties.index _ (List.mem_cons_of_mem e hmem)
    exact h.apart _ hmem (h.fulls.tail_mem hindex)
  refine ⟨f',hcall,?_,by rw [hf']; exact h.pool,⟨e,q,0,?_,?_⟩,hready⟩
  · refine ⟨?_,?_,?_,?_⟩
    · rw [hbase,hpos,raidLunSecNum_eq]
      omega
    · show (f'.ent e).baddr.toNat / 1 % 16 = 0
      omega
    · show (f'.ent e).baddr.toNat / 16 % 4 = 0
      omega
    · show (f'.ent e).baddr.toNat / 64 % 2 = 0
      omega
  · exact ⟨fun _ hi => hi,hready,htail,by simp,hready.notMem,fun hne => absurd rfl hne⟩
  · refine ⟨hpos,hfill,?_⟩
    show 0 = _
    rw [if_neg (by omega)]

/-- With another empty entity there is an allocation of exactly the remaining slots. -/
theorem exists_filled {f' : Ftl α} {p₀ c₀ : Nat} (hres : Resumed e q p₀ c₀ ⟨f',[],[]⟩)
    (hr : Ready f' e q) (hpool : Pool f'.sys free) (hne : q ≠ []) :
    ∃ s, Reaches Refill.step always ⟨f',[],[]⟩ s ∧ s.Filled e := by
  obtain ⟨x,q,rfl⟩ := List.exists_cons_of_ne_nil hne
  have hpos := hr.pos
  let n := raidLunSecNum - (f'.ent e).pos
  have hend : (f'.ent e).pos + n = raidLunSecNum := Nat.add_sub_cancel' (Nat.le_of_lt hpos)
  have hn : 1 ≤ n := Nat.sub_pos_of_lt hpos
  have hcount : allotCount n = n := by
    apply allotCount_of_lt hn
    simp only [raidLunSecNum_eq] at hend
    omega
  obtain ⟨r,hcall,-⟩ : ∃ r, allocWcbCore f' 0 n = .ok r ∧ r.ret = 0 := by
    rw [allocWcbCore_returns_iff 0 hr hpool hn (by rw [hend]; decide),hend]
    exact Nat.le_add_left _ _
  -- The allocation has closed the entity and opened the next one.
  have hstep : Refill.step ⟨f',[],[]⟩ (.alloc 0 n) = some ⟨r.ftl,ctxSlots r.ctxs,[]⟩ := by
    simp only [Refill.step,hcall,Except.toOption,Option.map_some,List.nil_append]
  obtain ⟨cur,q',k,hrest,-⟩ := hres.step hstep
  obtain ⟨e',q'',hdrop,hpart,-⟩ := (allocWcbCore_post hr hcount hcall).pulled
  have hcur : cur = x := by
    rw [hend] at hdrop
    have hx : x = e' := (List.cons.inj hdrop).1
    exact (Option.some.inj (hrest.ready.isPart.symm.trans hpart)).trans hx.symm
  have hfull : (r.ftl.ent e).pos = raidLunSecNum := by
    apply hrest.used
    rw [hcur]
    exact fun hx => hr.notMem (hx ▸ List.mem_cons_self)
  obtain ⟨s,hrun,hnil,hsame⟩ := exists_copied ⟨0,[],(by decide : 0 * expPpaSize < 2^32)⟩
    ⟨r.ftl,ctxSlots r.ctxs,[]⟩
  refine ⟨s,(Reaches.single trivial hstep).trans hrun,(hsame e).trans hfull,?_⟩
  rw [hnil]
  rfl

end Start

/-- Resuming works exactly if `fill_cnt` of the entity, which `get_lun_entity` does not set, is at least
the slot number of `startppa`, or there is no other empty entity, so that the remaining slots cannot be
allotted. -/
theorem resume_in_lun_iff {f : Ftl α} {e : Nat} {q fq free : List Nat} (h : Resumable f e q fq free)
    (startppa : GeoPpa) :
    (∃ f', getLunEntity f startppa = (some e,f') ∧ StartsAt f' e startppa ∧
      ∀ s, Reaches Refill.step always ⟨f',[],[]⟩ s → s.Filled e → s.pushed.count e = 1) ↔
    startppa.toNat % raidLunSecNum ≤ (f.ent e).fillCnt ∧ (f.ent e).fillCnt < raidLunSecNum ∨ q = [] := by
  obtain ⟨f',hcall,hstart,hpool,hresumed,hready⟩ := getLunEntity_ok h startppa
  have hinv (s : Refill α) (hrun : Reaches Refill.step always ⟨f',[],[]⟩ s) :=
    hrun.invariant (Resumed e q _ _) hresumed fun t l u ht _ hl => ht.step hl
  constructor
  · rintro ⟨f'',hcall',-,honce⟩
    obtain rfl : f' = f'' := (Prod.mk.inj (hcall.symm.trans hcall')).2
    by_cases hq : q = []
    · exact Or.inr hq
    · obtain ⟨s,hrun,hfilled⟩ := exists_filled hresumed hready hpool hq
      exact Or.inl (((hinv s hrun).filled hfilled).mp (honce s hrun hfilled))
  · intro hcond
    refine ⟨f',hcall,hstart,fun s hrun hfilled => ?_⟩
    rcases hcond with hcond | rfl
    · exact ((hinv s hrun).filled hfilled).mpr hcond
    · exact absurd hfilled (hinv s hrun).not_filled

private theorem resumable_twoEmpty : Resumable twoEmpty 1 [2] [] [] :=
  ⟨ready_twoEmpty.queue,Fifo.holds_init _,by simp,pool_init⟩

/-- A start at the first page of a LUN. -/
theorem resume_in_lun_iff_start : ∃ f', getLunEntity twoEmpty 128#32 = (some 1,f') ∧
    StartsAt f' 1 128#32 ∧
    ∀ s, Reaches Refill.step always ⟨f',[],[]⟩ s → s.Filled 1 → s.pushed.count 1 = 1 :=
  (resume_in_lun_iff resumable_twoEmpty 128#32).mpr (Or.inl (by decide))

/-- From slot 5 on, 123 copies leave `fill_cnt` at 123, and the entity is never pushed. -/
theorem resume_in_lun_never_pushed : ∃ f', getLunEntity twoEmpty 133#32 = (some 1,f') ∧
    ∃ s, Reaches Refill.step always ⟨f',[],[]⟩ s ∧ s.Filled 1 ∧ s.pushed.count 1 ≠ 1 := by
  obtain ⟨f',hcall,-,hpool,hresumed,hready⟩ := getLunEntity_ok resumable_twoEmpty 133#32
  obtain ⟨s,hrun,hfilled⟩ := exists_filled hresumed hready hpool (by decide)
  have hs := hrun.invariant (Resumed 1 [2] _ _) hresumed fun t l u ht _ hl => ht.step hl
  refine ⟨f',hcall,s,hrun,hfilled,fun honce => ?_⟩
  exact absurd ((hs.filled hfilled).mp honce) (by decide)

end Sdssd.Host
