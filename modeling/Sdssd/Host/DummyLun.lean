import Sdssd.Host.LineSubmission

/-!
# Closing a LUN that is not full

`flush_dummy_lun` pads the open entity, hands it to the writer and opens the next LUN. Entities are
recycled, so a slot that is not written still holds what an earlier use left in it.
-/

namespace Sdssd.Host

open Framework

variable {α : Type}

/-- One round of the padding loop; `zero` is a page of zeros. -/
def padSlot (zero : α) (e pos : Nat) (f : Ftl α) : Ftl α :=
  f.setEnt e { f.ent e with data := Function.update (f.ent e).data pos (some zero) }

/-- The loop runs over `i`, but the buffer it clears is the one of `pos` every time. -/
def flushDummyLun (zero : α) (f : Ftl α) : Except Fault (Ftl α) :=
  match f.wcb.partialEntity with
  | none => .error .nullDeref
  | some e =>
    let pos := (f.ent e).pos
    if pos = 0 then .ok f
    else
      let f := (List.range' pos (raidLunSecNum - pos)).foldl (fun f _ => padSlot zero e pos f) f
      let f := f.pushFull e
      (getNextLunEntity f (f.ent e).baddr).map fun r => r.2.setEnt e { r.2.ent e with fillCnt := 0 }

/-- The open entity `e` with some of its slots in use, the two queues and the free pool. -/
structure Closable (f : Ftl α) (e : Nat) (q fq free : List Nat) : Prop extends Pulled f e q fq where
  isPart : f.wcb.partialEntity = some e
  used : 0 < (f.ent e).pos
  room : (f.ent e).pos < raidLunSecNum
  apart : ∀ i ∈ q, i ∉ fq
  pool : Pool f.sys free
  address : (f.ent e).baddr.toNat < 2^31

/-- The open entity of a reachable state. -/
theorem Conserved.closable {f : Ftl α} {pend : List Slot} {infl : List (Nat × Nat)} {pl : Nat → Place}
    {eq fq : List Nat} {e₀ : Nat} (h : Conserved f pend infl pl eq fq e₀) (hused : 0 < (f.ent e₀).pos)
    (haddr : (f.ent e₀).baddr.toNat < 2^31) : ∃ free, Closable f e₀ eq fq free := by
  have hopen : pl e₀ = .open := (h.open_iff e₀).mpr rfl
  have hlt := h.lt_of_ne_outside (e := e₀) (by simp [hopen])
  obtain ⟨free,hpool⟩ := h.pool
  refine ⟨free,⟨h.empties,h.fulls,h.notMem_empties (by simp [hopen]),h.notMem_fulls (by simp [hopen]),
    Conserved.noIndex_of_lt hlt⟩,h.isPart,hused,h.open_ok.1,fun i hi => ?_,hpool,haddr⟩
  exact h.notMem_fulls (by simp [(h.empty_iff i).mp hi])

/-- What closing the LUN is to achieve. -/
structure ClosedLun (zero : α) (f : Ftl α) (e : Nat) (free : List Nat) (f' : Ftl α) : Prop where
  full : e ∈ f'.wcb.fullLun.toList f'.wcb.link
  kept : ∀ i, i < (f.ent e).pos → (f'.ent e).ppa i = (f.ent e).ppa i ∧
    (f'.ent e).lba i = (f.ent e).lba i ∧ (f'.ent e).data i = (f.ent e).data i
  ppa : ∀ i, (f.ent e).pos ≤ i → i < raidLunSecNum → (f'.ent e).ppa i = (f.ent e).baddr.toNat + i
  data : ∀ i, (f.ent e).pos ≤ i → i < raidLunSecNum → (f'.ent e).data i = some zero
  next : ∃ e', f'.wcb.partialEntity = some e' ∧ e' ≠ e ∧
    nextLun free (f.ent e).baddr.toNat = some (f'.ent e').baddr.toNat ∧ (f'.ent e').pos = 0 ∧
    (f'.ent e').fillCnt = 0

section Close

variable {zero : α} {f : Ftl α} {e x : Nat} {q fq free : List Nat}

/-- Clearing one slot again changes nothing, so the loop clears that one slot. -/
theorem padSlots_eq (zero : α) (f : Ftl α) (e pos : Nat) (i : Nat) (is : List Nat) :
    (i :: is).foldl (fun f _ => padSlot zero e pos f) f = padSlot zero e pos f := by
  rw [List.foldl_cons]
  induction is with
  | nil => rfl
  | cons j is ih =>
    have htwice : padSlot zero e pos (padSlot zero e pos f) = padSlot zero e pos f := by
      simp [padSlot,Ftl.setEnt,Ftl.ent]
    rw [List.foldl_cons,htwice,ih]

/-- The oldest empty entity is opened at the next LUN; the other entities and their links stay. -/
theorem getNextLunEntity_nextLun {cur : GeoPpa} (hempties : Fifo.Holds f.wcb.link f.wcb.emptyLun (x :: q))
    (hpool : Pool f.sys free) (hlt : cur.toNat < 2^31) :
    ∃ f', getNextLunEntity f cur = .ok (some x,f') ∧ f'.wcb.partialEntity = some x ∧
      f'.wcb.fullLun = f.wcb.fullLun ∧ (∀ j, j ∉ x :: q → f'.wcb.link j = f.wcb.link j) ∧
      (∀ y, y ≠ x → f'.ent y = f.ent y) ∧ (f'.ent x).pos = 0 ∧ (f'.ent x).fillCnt = 0 ∧
      (f'.ent x).baddr.toNat = (nextLun free cur.toNat).getD 0 := by
  obtain ⟨q',ln,hpull,-,hlink⟩ := hempties.pull
  obtain ⟨b,t',hb,haddr⟩ := getNextEntityBaddr_nextLun hlt hpool
  let opened : WcbLunEntity α := { f.ent x with baddr := b, pos := 0, cqeFlag := 0, fillCnt := 0 }
  let f' : Ftl α := { ((f.setEmpty q' ln).setEnt x opened).setPartial (some x) with sys := t' }
  have hnext : getNextLunEntity f cur = .ok (some x,f') := by
    simp only [getNextLunEntity,pullLunEntityFromFifo,hpull,hb,Except.map]
    rfl
  have hself : f'.ent x = opened := ent_setEnt_self _ x _
  refine ⟨f',hnext,rfl,rfl,hlink,fun y hy => ent_setEnt_of_ne _ x _ hy,?_⟩
  rw [hself]
  exact ⟨rfl,rfl,haddr⟩

/-- What `flush_dummy_lun` does: of the entity only one slot of data and `fill_cnt` change. -/
theorem flushDummyLun_ok (zero : α) (h : Closable f e (x :: q) fq free) :
    ∃ f', flushDummyLun zero f = .ok f' ∧ f'.wcb.fullLun.toList f'.wcb.link = fq ++ [e] ∧
      f'.ent e = { f.ent e with
        data := Function.update (f.ent e).data (f.ent e).pos (some zero), fillCnt := 0 } ∧
      f'.wcb.partialEntity = some x ∧ (f'.ent x).pos = 0 ∧ (f'.ent x).fillCnt = 0 ∧
      (f'.ent x).baddr.toNat = (nextLun free (f.ent e).baddr.toNat).getD 0 := by
  have hxe : x ≠ e := fun hx => h.notEmpty (hx ▸ List.mem_cons_self)
  obtain ⟨i,is,hloop⟩ : ∃ i is,
      List.range' (f.ent e).pos (raidLunSecNum - (f.ent e).pos) = i :: is := by
    apply List.exists_cons_of_ne_nil
    rw [ne_eq,List.range'_eq_nil_iff]
    have := h.room
    omega
  let f₁ := (padSlot zero e (f.ent e).pos f).pushFull e
  have hent : f₁.ent e = { f.ent e with
      data := Function.update (f.ent e).data (f.ent e).pos (some zero) } := ent_setEnt_self f e _
  have haddress : (f₁.ent e).baddr = (f.ent e).baddr := by rw [hent]
  -- The push changes links of the entity and of `full_lun`, the pull only links of `empty_lun`.
  have hempties : Fifo.Holds f₁.wcb.link f₁.wcb.emptyLun (x :: q) := by
    refine h.empties.congr fun j hj => Fifo.push_link_of_ne h.fulls ?_ (h.apart j hj)
    exact fun hje => h.notEmpty (hje ▸ hj)
  have hfulls : Fifo.Holds f₁.wcb.link f₁.wcb.fullLun (fq ++ [e]) := h.fulls.push h.notFull h.index
  obtain ⟨f₂,hnext,hpart,hqueue,hlink,hothers,hpos,hfill,haddr⟩ :=
    getNextLunEntity_nextLun hempties (show Pool f₁.sys free from h.pool) (haddress ▸ h.address)
  have hx : (f₂.setEnt e { f₂.ent e with fillCnt := 0 }).ent x = f₂.ent x :=
    ent_setEnt_of_ne f₂ e _ hxe
  refine ⟨f₂.setEnt e { f₂.ent e with fillCnt := 0 },?_,?_,?_,hpart,?_⟩
  · simp only [flushDummyLun,h.isPart,if_neg (Nat.ne_of_gt h.used),hloop,padSlots_eq]
    exact congrArg (Except.map _) hnext
  · have hfull₂ : Fifo.Holds f₂.wcb.link f₂.wcb.fullLun (fq ++ [e]) := by
      rw [hqueue]
      refine hfulls.congr fun j hj => hlink j fun hjq => ?_
      rcases List.mem_append.mp hj with hj | hj
      · exact h.apart j hjq hj
      · exact h.notEmpty (List.mem_singleton.mp hj ▸ hjq)
    exact hfull₂.toList_eq
  · rw [ent_setEnt_self,hothers e (Ne.symm hxe),hent]
  · rw [hx,← haddress]
    exact ⟨hpos,hfill,haddr⟩

theorem nextLun_eq_some_iff {addr b : Nat} (h : b = (nextLun free addr).getD 0) :
    nextLun free addr = some b ↔ (addr / raidLunSecNum % 4096 = 4095 → free ≠ []) := by
  subst h
  by_cases hend : addr / raidLunSecNum % 4096 = 4095
  · rw [nextLun,if_pos hend,forall_prop_of_true hend]
    cases free <;> simp
  · rw [nextLun,if_neg hend]
    exact iff_of_true rfl fun h => absurd h hend

end Close

/-- `flush_dummy_lun` closes the LUN as it should exactly if the slots behind `pos` happen to hold the
right addresses and, but for the first of them, zeros already, and there is a next LUN. -/
theorem flush_dummy_lun_closes_iff (zero : α) {f : Ftl α} {e x : Nat} {q fq free : List Nat}
    (h : Closable f e (x :: q) fq free) :
    (∃ f', flushDummyLun zero f = .ok f' ∧ ClosedLun zero f e free f') ↔
      (∀ i, (f.ent e).pos ≤ i → i < raidLunSecNum → (f.ent e).ppa i = (f.ent e).baddr.toNat + i) ∧
      (∀ i, (f.ent e).pos < i → i < raidLunSecNum → (f.ent e).data i = some zero) ∧
      ((f.ent e).baddr.toNat / raidLunSecNum % 4096 = 4095 → free ≠ []) := by
  have hxe : x ≠ e := fun hx => h.notEmpty (hx ▸ List.mem_cons_self)
  obtain ⟨f',hf',hfull,hent,hpart,hpos,hfill,haddr⟩ := flushDummyLun_ok zero h
  have hslots : (f'.ent e).data = Function.update (f.ent e).data (f.ent e).pos (some zero) := by
    rw [hent]
  rw [← nextLun_eq_some_iff haddr]
  constructor
  · rintro ⟨f'',hf'',hclosed⟩
    obtain rfl : f' = f'' := Except.ok.inj (hf'.symm.trans hf'')
    refine ⟨fun i hi hlt => ?_,fun i hi hlt => ?_,?_⟩
    · have := hclosed.ppa i hi hlt
      rwa [hent] at this
    · have := hclosed.data i (Nat.le_of_lt hi) hlt
      rwa [hslots,Function.update_of_ne (Nat.ne_of_gt hi)] at this
    · obtain ⟨e',hpart',-,hnext,-⟩ := hclosed.next
      obtain rfl : x = e' := Option.some.inj (hpart.symm.trans hpart')
      exact hnext
  · rintro ⟨hppa,hdata,hnext⟩
    refine ⟨f',hf',by simp [hfull],fun i hi => ?_,fun i hi hlt => ?_,fun i hi hlt => ?_,
      x,hpart,hxe,hnext,hpos,hfill⟩
    · rw [hent]
      exact ⟨rfl,rfl,Function.update_of_ne (Nat.ne_of_lt hi) _ _⟩
    · rw [hent]
      exact hppa i hi hlt
    · rw [hslots]
      rcases Nat.eq_or_lt_of_le hi with rfl | hi
      · exact Function.update_self _ _ _
      · rw [Function.update_of_ne (Nat.ne_of_gt hi)]
        exact hdata i hi hlt

/-- Entity 0 was used for the same LUN before, with zeros in its last slots. -/
def sameLunAgain : Ftl Nat :=
  twoEmpty.setEnt 0 { twoEmpty.ent 0 with ppa := fun i => i, data := fun _ => some 0 }

private theorem closable_twoEmpty : Closable twoEmpty 0 [1,2] [] [] :=
  ⟨⟨ready_twoEmpty.queue,Fifo.holds_init _,by decide,by decide,by decide⟩,rfl,by decide,by decide,
    by simp,pool_init,by decide⟩

private theorem closable_sameLunAgain : Closable sameLunAgain 0 [1,2] [] [] :=
  ⟨⟨ready_twoEmpty.queue,Fifo.holds_init _,by decide,by decide,by decide⟩,rfl,by decide,by decide,
    by simp,pool_init,by decide⟩

theorem flush_dummy_lun_closes_iff_again :
    ∃ f', flushDummyLun 0 sameLunAgain = .ok f' ∧ ClosedLun 0 sameLunAgain 0 [] f' := by
  apply (flush_dummy_lun_closes_iff 0 closable_sameLunAgain).mpr
  exact ⟨fun i _ _ => (Nat.zero_add i).symm,fun _ _ _ => rfl,by decide⟩

/-- The entity's slots 100 to 127 hold address 0 from an earlier use, and the padding leaves it there. -/
theorem flush_dummy_lun_keeps_stale_ppa :
    ¬∃ f', flushDummyLun 0 twoEmpty = .ok f' ∧ ClosedLun 0 twoEmpty 0 [] f' := by
  rintro ⟨f',hf',hclosed⟩
  obtain ⟨f'',hf'',-,hent,-⟩ := flushDummyLun_ok 0 closable_twoEmpty
  obtain rfl : f'' = f' := Except.ok.inj (hf''.symm.trans hf')
  have hppa := hclosed.ppa 101 (by decide) (by decide)
  rw [hent] at hppa
  cases hppa

end Sdssd.Host
