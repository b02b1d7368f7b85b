import Sdssd.Host.ModuleInit

/-!
# Allocation of the write cache's DMA memory

`wcb_lun_mem_alloc` gives three DMA regions to every entity and puts it into `empty_lun`. When the
memory of an entity cannot be allocated, the loop `while (--i)` is meant to free that of the entities
before it.
-/

namespace Sdssd.Host

open Framework

/-- The DMA regions of an entity. -/
inductive DmaPart
  | data
  | metadata
  | ppa
  deriving DecidableEq, Repr

/-- `dma_alloc_coherent` that succeeds, and `dma_free_coherent`, for the entity at an index. -/
inductive DmaEvent
  | alloc (entity : Int) (part : DmaPart)
  | free (entity : Int) (part : DmaPart)
  deriving DecidableEq, Repr

/-- Whether each of the three allocations for an entity would succeed. -/
structure DmaOk where
  data : Bool
  metadata : Bool
  ppa : Bool
  deriving DecidableEq, Repr

def DmaOk.all (ok : DmaOk) : Bool := ok.data && ok.metadata && ok.ppa

/-- `-ENOMEM`. -/
def errNomem : Int := -12

/-- Return value and allocations of `wcb_single_lun_alloc`, which frees what it got before it fails. -/
def wcbSingleLunAlloc (ok : DmaOk) (e : Int) : Int × List DmaEvent :=
  if ok.data = false then (errNomem,[])
  else if ok.metadata = false then (errNomem,[.alloc e .data,.free e .data])
  else if ok.ppa = false then
    (errNomem,[.alloc e .data,.alloc e .metadata,.free e .metadata,.free e .data])
  else (0,[.alloc e .data,.alloc e .metadata,.alloc e .ppa])

def wcbSingleLunFree (e : Int) : List DmaEvent := [.free e .ppa,.free e .metadata,.free e .data]

/-- What the loops work on. -/
structure LunMem where
  emptyLun : Fifo
  link : Nat → Link
  events : List DmaEvent

/-- The body of the first loop and its return value. -/
def LunMem.add (ok : Nat → DmaOk) (s : LunMem) (i : Nat) : Int × LunMem :=
  let link := Function.update s.link i ⟨noIndex,noIndex⟩
  let r := pushLunEntityToFifo s.emptyLun link i
  let a := wcbSingleLunAlloc (ok i) i
  (a.1,⟨r.1,r.2,s.events ++ a.2⟩)

/-- The loop over the entities up to the first that fails. -/
def LunMem.addAll (ok : Nat → DmaOk) : List Nat → LunMem → LunMem × Option Nat
  | [], s => (s,none)
  | i :: is, s =>
    let r := s.add ok i
    if r.1 ≠ 0 then (r.2,some i) else LunMem.addAll ok is r.2

/-- `while (--i)` on an `int`: the indices passed to `wcb_single_lun_free`, if the loop ends within so
many tests. The kernel is compiled with wrapping signed arithmetic. -/
def rollback : Nat → BitVec 32 → Option (List Int)
  | 0, _ => none
  | fuel+1, i => if i - 1 = 0 then some [] else (rollback fuel (i - 1)).map ((i - 1).toInt :: ·)

/-- Outcome of `wcb_lun_mem_alloc`: the return value, what is left, and the entities rolled back. -/
structure LunMemResult where
  ret : Int
  mem : LunMem
  frees : List Int

/-- `wcb_lun_mem_alloc` with `n` for `CB_ENTITYS_CNT`. -/
def wcbLunMemAlloc (n : Nat) (ok : Nat → DmaOk) (fuel : Nat) (s : LunMem) : Option LunMemResult :=
  match s.addAll ok (List.range n) with
  | (s,none) => some ⟨0,s,[]⟩
  | (s,some k) => (rollback fuel (BitVec.ofNat 32 k)).map fun frees =>
    ⟨errNomem,{ s with events := s.events ++ frees.flatMap wcbSingleLunFree },frees⟩

section Alloc

variable {ok : Nat → DmaOk} {s : LunMem} {l : List Nat}

theorem wcbSingleLunAlloc_ok {o : DmaOk} (h : o.all = true) (e : Int) :
    wcbSingleLunAlloc o e = (0,[.alloc e .data,.alloc e .metadata,.alloc e .ppa]) := by
  rw [DmaOk.all,Bool.and_eq_true,Bool.and_eq_true] at h
  simp [wcbSingleLunAlloc,h]

theorem wcbSingleLunAlloc_fail {o : DmaOk} (h : o.all = false) (e : Int) :
    (wcbSingleLunAlloc o e).1 = errNomem := by
  rw [wcbSingleLunAlloc]
  split
  · rfl
  · split
    · rfl
    · split
      · rfl
      · simp_all [DmaOk.all]

/-- Entities whose memory can be allocated are all added. -/
theorem LunMem.addAll_append (s : LunMem) (hl : ∀ i ∈ l, (ok i).all = true) (is : List Nat) :
    s.addAll ok (l ++ is) = (l.foldl (fun s i => (s.add ok i).2) s).addAll ok is := by
  induction l generalizing s with
  | nil => rfl
  | cons i l ih =>
    have hret : (s.add ok i).1 = 0 := by
      rw [LunMem.add,wcbSingleLunAlloc_ok (hl i List.mem_cons_self)]
    rw [List.cons_append,LunMem.addAll,if_neg (fun h => h hret)]
    exact ih _ fun j hj => hl j (List.mem_cons_of_mem i hj)

/-- The loop stops at the first entity that fails. -/
theorem LunMem.addAll_fail {n k : Nat} (hk : k < n) (hbefore : ∀ i, i < k → (ok i).all = true)
    (hfail : (ok k).all = false) : s.addAll ok (List.range n) =
      ((((List.range k).foldl (fun s i => (s.add ok i).2) s).add ok k).2,some k) := by
  obtain ⟨m,rfl⟩ : ∃ m, n = k + (m + 1) := ⟨n - k - 1,by omega⟩
  rw [List.range_add,List.range_succ_eq_map,List.map_cons,Nat.add_zero,
    LunMem.addAll_append s fun i hi => hbefore i (List.mem_range.mp hi),LunMem.addAll,if_pos]
  rw [LunMem.add,wcbSingleLunAlloc_fail hfail]
  decide

end Alloc

section Rollback

/-- The rollback never frees entity 0. -/
theorem rollback_zero_notMem {fuel : Nat} {i : BitVec 32} {l : List Int} (h : rollback fuel i = some l) :
    0 ∉ l := by
  induction fuel generalizing i l with
  | zero => cases h
  | succ fuel ih =>
    rw [rollback] at h
    split at h
    · cases h
      exact List.not_mem_nil
    · rename_i hne
      obtain ⟨l',hl',rfl⟩ := Option.map_eq_some_iff.mp h
      rw [List.mem_cons]
      rintro (hzero | hmem)
      · exact hne (BitVec.eq_of_toInt_eq hzero.symm)
      · exact ih hl' hmem

/-- From the first entity on it frees the index before it. -/
theorem rollback_from_zero {fuel : Nat} {l : List Int} (h : rollback fuel 0 = some l) : -1 ∈ l := by
  cases fuel with
  | zero => cases h
  | succ fuel =>
    rw [rollback,if_neg (by decide)] at h
    obtain ⟨l',-,rfl⟩ := Option.map_eq_some_iff.mp h
    exact List.mem_cons_self

/-- From a later entity it frees those before it except entity 0. -/
theorem rollback_eq {fuel : Nat} (k : Nat) (hk : k + 1 < 2^31) (hfuel : k < fuel) :
    rollback fuel (BitVec.ofNat 32 (k + 1)) = some ((List.range' 1 k).reverse.map Int.ofNat) := by
  induction k generalizing fuel with
  | zero =>
    obtain ⟨fuel,rfl⟩ := Nat.exists_eq_succ_of_ne_zero (Nat.ne_of_gt hfuel)
    rfl
  | succ k ih =>
    obtain ⟨fuel,rfl⟩ := Nat.exists_eq_succ_of_ne_zero (Nat.ne_of_gt (Nat.lt_of_le_of_lt (Nat.zero_le _) hfuel))
    have hdec : BitVec.ofNat 32 (k + 1 + 1) - 1 = BitVec.ofNat 32 (k + 1) := by
      bv_omega
    have hnat : (BitVec.ofNat 32 (k + 1)).toNat = k + 1 := by
      rw [BitVec.toNat_ofNat,Nat.mod_eq_of_lt (by omega)]
    have hne : BitVec.ofNat 32 (k + 1) ≠ 0 := by
      intro he
      rw [he] at hnat
      cases hnat
    have hint : (BitVec.ofNat 32 (k + 1)).toInt = Int.ofNat (k + 1) := by
      rw [BitVec.toInt_eq_toNat_of_lt (by omega),hnat]
      rfl
    rw [rollback,hdec,if_neg hne,ih (by omega) (by omega),hint,Option.map_some]
    rw [List.range'_1_concat,List.reverse_append,List.map_append,Nat.add_comm 1 k]
    rfl

end Rollback

section Balance

/-- Allocations of a region that have not been freed. -/
def dmaBalance (events : List DmaEvent) (e : Int) (part : DmaPart) : Int :=
  events.count (.alloc e part) - events.count (.free e part)

theorem dmaBalance_append (xs ys : List DmaEvent) (e : Int) (part : DmaPart) :
    dmaBalance (xs ++ ys) e part = dmaBalance xs e part + dmaBalance ys e part := by
  rw [dmaBalance,dmaBalance,dmaBalance,List.count_append,List.count_append]
  omega

/-- An entity that is added has one more of each of its regions. -/
theorem dmaBalance_ok {o : DmaOk} (h : o.all = true) (i e : Int) (part : DmaPart) :
    dmaBalance (wcbSingleLunAlloc o i).2 e part = if i = e then 1 else 0 := by
  rw [wcbSingleLunAlloc_ok h]
  by_cases he : i = e <;> cases part <;> simp [dmaBalance,he]

/-- An allocation that fails has freed what it got. -/
theorem dmaBalance_fail {o : DmaOk} (h : o.all = false) (i e : Int) (part : DmaPart) :
    dmaBalance (wcbSingleLunAlloc o i).2 e part = 0 := by
  obtain ⟨d,m,q⟩ := o
  cases d <;> cases m <;> cases q <;> by_cases he : i = e <;> cases part <;>
    simp_all [dmaBalance,wcbSingleLunAlloc,DmaOk.all]

theorem dmaBalance_free (i e : Int) (part : DmaPart) :
    dmaBalance (wcbSingleLunFree i) e part = if i = e then -1 else 0 := by
  by_cases he : i = e <;> cases part <;> simp [dmaBalance,wcbSingleLunFree,he]

theorem dmaBalance_frees (frees : List Int) (e : Int) (part : DmaPart) :
    dmaBalance (frees.flatMap wcbSingleLunFree) e part = - frees.count e := by
  induction frees with
  | nil => rfl
  | cons i frees ih =>
    rw [List.flatMap_cons,dmaBalance_append,ih,dmaBalance_free,List.count_cons]
    by_cases he : i = e
    · simp [he]
    · simp [he]

theorem dmaBalance_adds {ok : Nat → DmaOk} {s : LunMem} {l : List Nat} (hl : ∀ i ∈ l, (ok i).all = true)
    (e : Int) (part : DmaPart) : dmaBalance (l.foldl (fun s i => (s.add ok i).2) s).events e part =
      dmaBalance s.events e part + (l.map Int.ofNat).count e := by
  induction l generalizing s with
  | nil => simp
  | cons i l ih =>
    rw [List.foldl_cons,ih fun j hj => hl j (List.mem_cons_of_mem i hj),List.map_cons,List.count_cons]
    show dmaBalance (s.events ++ (wcbSingleLunAlloc (ok i) i).2) e part + _ = _
    rw [dmaBalance_append,dmaBalance_ok (hl i List.mem_cons_self)]
    by_cases he : (i : Int) = e
    · simp [he]
      omega
    · simp [he]

end Balance

section Claim

variable {n k : Nat} {ok : Nat → DmaOk} {s : LunMem}

/-- A call that fails first at entity `k` is right if it ends, reports the failure and frees the memory of
exactly the entities before it. -/
def RollsBack (n k : Nat) (ok : Nat → DmaOk) (s : LunMem) : Prop :=
  ∃ fuel res, wcbLunMemAlloc n ok fuel s = some res ∧ res.ret = errNomem ∧
    res.frees.Perm ((List.range k).map Int.ofNat)

/-- What a failing call returns. -/
theorem wcbLunMemAlloc_fail (hk : k < n) (hbefore : ∀ i, i < k → (ok i).all = true)
    (hfail : (ok k).all = false) (fuel : Nat) : ∃ mem : LunMem,
      wcbLunMemAlloc n ok fuel s = (rollback fuel (BitVec.ofNat 32 k)).map (fun frees =>
        ⟨errNomem,{ mem with events := mem.events ++ frees.flatMap wcbSingleLunFree },frees⟩) ∧
      ∀ e part, dmaBalance mem.events e part =
        dmaBalance s.events e part + ((List.range k).map Int.ofNat).count e := by
  refine ⟨(((List.range k).foldl (fun s i => (s.add ok i).2) s).add ok k).2,?_,?_⟩
  · rw [wcbLunMemAlloc,LunMem.addAll_fail hk hbefore hfail]
  · intro e part
    show dmaBalance (_ ++ (wcbSingleLunAlloc (ok k) k).2) e part = _
    rw [dmaBalance_append,dmaBalance_fail hfail,Int.add_zero,
      dmaBalance_adds fun i hi => hbefore i (List.mem_range.mp hi)]

/-- Entity 0 is never freed: a failure at a later entity leaves its memory allocated, and after a failure
at entity 0 itself the loop starts with index -1, in front of the array. -/
theorem lun_mem_rollback_never (hn : n < 2^31) (hk : k < n) (hbefore : ∀ i, i < k → (ok i).all = true)
    (hfail : (ok k).all = false) (s : LunMem) : ¬ RollsBack n k ok s ∧
      (1 ≤ k → ∀ fuel, k ≤ fuel → ∃ res, wcbLunMemAlloc n ok fuel s = some res ∧ res.ret = errNomem ∧
        res.frees = (List.range' 1 (k - 1)).reverse.map Int.ofNat ∧
        ∀ part, dmaBalance res.mem.events 0 part = dmaBalance s.events 0 part + 1) ∧
      (k = 0 → ∀ fuel res, wcbLunMemAlloc n ok fuel s = some res → -1 ∈ res.frees) := by
  refine ⟨?_,?_,?_⟩
  · rintro ⟨fuel,res,hres,-,hperm⟩
    obtain ⟨mem,hcall,-⟩ := wcbLunMemAlloc_fail (s := s) hk hbefore hfail fuel
    obtain ⟨frees,hroll,rfl⟩ := Option.map_eq_some_iff.mp (hcall.symm.trans hres)
    cases k with
    | zero => exact absurd (hperm.mem_iff.mp (rollback_from_zero hroll)) List.not_mem_nil
    | succ k =>
      apply rollback_zero_notMem hroll
      exact hperm.mem_iff.mpr (List.mem_map.mpr ⟨0,List.mem_range.mpr (Nat.succ_pos k),rfl⟩)
  · intro hpos fuel hfuel
    obtain ⟨k,rfl⟩ := Nat.exists_eq_succ_of_ne_zero (Nat.ne_of_gt hpos)
    obtain ⟨mem,hcall,hbalance⟩ := wcbLunMemAlloc_fail (s := s) hk hbefore hfail fuel
    have hroll := rollback_eq k (by omega) hfuel
    refine ⟨_,hcall.trans (by rw [hroll,Option.map_some]),rfl,rfl,?_⟩
    intro part
    have hnodup : ((List.range (k + 1)).map Int.ofNat).Nodup :=
      List.nodup_range.map fun i j hij => Int.ofNat.inj hij
    have hmem : 0 ∈ (List.range (k + 1)).map Int.ofNat :=
      List.mem_map.mpr ⟨0,List.mem_range.mpr (Nat.succ_pos k),rfl⟩
    have hkept : ((List.range' 1 k).reverse.map Int.ofNat).count 0 = 0 :=
      List.count_eq_zero_of_not_mem (rollback_zero_notMem hroll)
    show dmaBalance (mem.events ++ _) 0 part = _
    rw [dmaBalance_append,dmaBalance_frees,hbalance,List.count_eq_one_of_mem hnodup hmem,hkept]
    omega
  · rintro rfl fuel res hres
    obtain ⟨mem,hcall,-⟩ := wcbLunMemAlloc_fail (s := s) hk hbefore hfail fuel
    obtain ⟨frees,hroll,rfl⟩ := Option.map_eq_some_iff.mp (hcall.symm.trans hres)
    exact rollback_from_zero hroll

/-- Five entities of which the last but one gets no memory for its metadata. -/
def fourthFails (i : Nat) : DmaOk := ⟨true,i != 3,true⟩

theorem lun_mem_rollback_never_fourth : ¬ RollsBack 5 3 fourthFails ⟨Fifo.init,fun _ => ⟨0,0⟩,[]⟩ :=
  (lun_mem_rollback_never (by decide) (by decide) (by decide) (by decide) _).1

/-- Entities 0 to 2 have their memory when entity 3 fails; 2 and 1 are freed, 0 is not. -/
theorem lun_mem_rollback_leaks_first : ∃ res,
    wcbLunMemAlloc 5 fourthFails 10 ⟨Fifo.init,fun _ => ⟨0,0⟩,[]⟩ = some res ∧ res.ret = errNomem ∧
      res.frees = [2,1] ∧ ¬ res.frees.Perm ((List.range 3).map Int.ofNat) ∧
      dmaBalance res.mem.events 0 .data = 1 ∧ dmaBalance res.mem.events 1 .data = 0 := by
  refine ⟨_,rfl,rfl,rfl,?_,?_,?_⟩
  · decide
  · decide
  · decide

end Claim

/-- When no allocation fails the call succeeds, and the entities are in `empty_lun` in index order. -/
theorem wcbLunMemAlloc_ok {n : Nat} {ok : Nat → DmaOk} (hok : ∀ i, i < n → (ok i).all = true)
    (hn : n ≤ noIndex) (fuel : Nat) (link : Nat → Link) : ∃ mem,
      wcbLunMemAlloc n ok fuel ⟨Fifo.init,link,[]⟩ = some ⟨0,mem,[]⟩ ∧
      Fifo.Holds mem.link mem.emptyLun (List.range n) := by
  have hall := LunMem.addAll_append ⟨Fifo.init,link,[]⟩
    (fun i hi => hok i (List.mem_range.mp hi)) []
  rw [List.append_nil] at hall
  refine ⟨_,by rw [wcbLunMemAlloc,hall]; rfl,?_⟩
  clear hall hok
  induction n with
  | zero => exact Fifo.holds_init link
  | succ n ih =>
    have hlast : n ∉ List.range n := fun h => Nat.lt_irrefl n (List.mem_range.mp h)
    rw [List.range_succ,List.foldl_append,List.foldl_cons,List.foldl_nil]
    apply Fifo.Holds.push _ hlast (Nat.ne_of_lt hn)
    apply (ih (Nat.le_of_succ_le hn)).congr
    intro i hi
    have hne : i ≠ n := fun he => hlast (he ▸ hi)
    exact Function.update_of_ne hne _ _

end Sdssd.Host
