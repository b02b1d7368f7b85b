import Sdssd.Framework.IndexQueue
import Sdssd.Host.Geometry

/-!
# Raid-block table and free-block pool

`sys-meta.c`: the block table `bmitbl`, the pool of free blocks threaded through it, and the two
functions that take a block out of the pool and put one in.
-/

namespace Sdssd.Host

open Framework

/-- Ways in which kernel code stops: a `BUG_ON`, a NULL dereference, a store past the end of the
on-stack context array, or a loop that never leaves. -/
inductive Fault
  | bugOn
  | nullDeref
  | ctxOverrun
  | noReturn
  deriving DecidableEq, Repr

/-- `enum raidblk_status`. -/
inductive RaidblkStatus
  | free
  | open
  | closed
  | toGc
  | gcing
  deriving DecidableEq, Repr

/-- The fields of `struct bmi_item` that the modelled functions read: one bad-channel word for
each LUN, and the block's state. Its FIFO links are kept in `SysTbl.link`. -/
structure BmiItem where
  bbt : Nat → Nat
  bmstate : RaidblkStatus

/-- `statetbl->free_blk_pool` and `bmitbl`. -/
structure SysTbl where
  freeBlkPool : Fifo
  bmitbl : Nat → BmiItem
  link : Nat → Link

/-- `get_bmi_item`: the argument is a `u16`, and a block past the table is a `BUG_ON`. -/
def getBmiItem (blk : Nat) : Except Fault Nat :=
  if cfgNandBlockNum ≤ blk % 2^16 then .error .bugOn else .ok (blk % 2^16)

def SysTbl.setPool (t : SysTbl) (q : Fifo) (ln : Nat → Link) : SysTbl :=
  { t with freeBlkPool := q, link := ln }

def pullBlkFromPool (t : SysTbl) : Except Fault (Nat × SysTbl) :=
  match t.freeBlkPool.pull t.link with
  | none => .ok (0xffff,t)
  | some (blk,q,ln) => do
    let bmi ← getBmiItem blk
    if t.freeBlkPool.head ≠ t.freeBlkPool.tail then
      let _ ← getBmiItem (t.link bmi).prev
    return (blk,t.setPool q ln)

def pushBlkToPool (t : SysTbl) (blk : Nat) : Except Fault SysTbl := do
  let bmi ← getBmiItem blk
  if t.freeBlkPool.tail ≠ 0xffff then
    let _ ← getBmiItem t.freeBlkPool.tail
  let (q,ln) := t.freeBlkPool.push t.link bmi
  return t.setPool q ln

def SysTbl.setState (t : SysTbl) (blk : Nat) (st : RaidblkStatus) : SysTbl :=
  { t with bmitbl := Function.update t.bmitbl blk { t.bmitbl blk with bmstate := st } }

/-- An empty pool is reported as block 0. -/
def getBlkFromFreeList (t : SysTbl) : Except Fault (Nat × SysTbl) := do
  let (blk,t) ← pullBlkFromPool t
  if blk = 0xffff then
    return (0,t)
  let bmi ← getBmiItem blk
  return (blk,t.setState bmi .open)

def insertBlkToFreeList (t : SysTbl) (blk : Nat) : Except Fault SysTbl := do
  let bmi ← getBmiItem blk
  let t ← pushBlkToPool t blk
  return t.setState bmi .free

/-- `statetbl_init` and `bmitbl_init`: an empty pool over a zeroed table. -/
def sysTblInit : SysTbl :=
  ⟨Fifo.init,fun _ => ⟨fun _ => 0,.free⟩,fun _ => ⟨noIndex,noIndex⟩⟩

/-- The pool holds the blocks `l`, oldest first, all of them inside the block table. -/
structure Pool (t : SysTbl) (l : List Nat) : Prop where
  holds : Fifo.Holds t.link t.freeBlkPool l
  lt : ∀ b ∈ l, b < cfgNandBlockNum

theorem getBmiItem_of_lt {blk : Nat} (h : blk < cfgNandBlockNum) : getBmiItem blk = .ok blk := by
  simp only [cfgNandBlockNum_eq] at h
  have hm : blk % 2^16 = blk := Nat.mod_eq_of_lt (by omega)
  rw [getBmiItem,hm,if_neg (by simp; omega)]

theorem pool_init : Pool sysTblInit [] :=
  ⟨Fifo.holds_init _,by simp⟩

theorem SysTbl.setState_bbt (t : SysTbl) (blk : Nat) (st : RaidblkStatus) (b : Nat) :
    ((t.setState blk st).bmitbl b).bbt = (t.bmitbl b).bbt := by
  by_cases hb : b = blk
  · simp [hb,SysTbl.setState]
  · simp [SysTbl.setState,Function.update_of_ne hb]

@[simp] theorem SysTbl.setState_pool {t : SysTbl} {blk : Nat} {st : RaidblkStatus} {l : List Nat} :
    Pool (t.setState blk st) l ↔ Pool t l :=
  ⟨fun h => ⟨h.holds,h.lt⟩,fun h => ⟨h.holds,h.lt⟩⟩

theorem pushBlkToPool_eq {t : SysTbl} {blk : Nat} (hblk : blk < cfgNandBlockNum)
    (htail : t.freeBlkPool.tail ≠ 0xffff → t.freeBlkPool.tail < cfgNandBlockNum) :
    pushBlkToPool t blk = .ok (t.setPool (t.freeBlkPool.push t.link blk).1
      (t.freeBlkPool.push t.link blk).2) := by
  unfold pushBlkToPool
  by_cases ht : t.freeBlkPool.tail = 0xffff
  · simp [ht,getBmiItem_of_lt hblk,bind,Except.bind,pure,Except.pure]
  · simp [ht,getBmiItem_of_lt hblk,getBmiItem_of_lt (htail ht),bind,Except.bind,pure,Except.pure]

theorem pullBlkFromPool_eq {t : SysTbl} {blk : Nat} {q : Fifo} {ln : Nat → Link}
    (hpull : t.freeBlkPool.pull t.link = some (blk,q,ln)) (hblk : blk < cfgNandBlockNum)
    (hprev : t.freeBlkPool.head ≠ t.freeBlkPool.tail → (t.link blk).prev < cfgNandBlockNum) :
    pullBlkFromPool t = .ok (blk,t.setPool q ln) := by
  unfold pullBlkFromPool
  rw [hpull]
  by_cases ht : t.freeBlkPool.head = t.freeBlkPool.tail
  · simp [ht,getBmiItem_of_lt hblk,bind,Except.bind,pure,Except.pure]
  · simp [ht,getBmiItem_of_lt hblk,getBmiItem_of_lt (hprev ht),bind,Except.bind,pure,Except.pure]

theorem pushBlkToPool_bmitbl {t t' : SysTbl} {blk : Nat} (h : pushBlkToPool t blk = .ok t') :
    t'.bmitbl = t.bmitbl := by
  unfold pushBlkToPool at h
  cases hbmi : getBmiItem blk with
  | error x => simp [hbmi,bind,Except.bind] at h
  | ok bmi =>
    cases htail : getBmiItem t.freeBlkPool.tail with
    | error x =>
      by_cases hne : t.freeBlkPool.tail = 0xffff
      · simp only [hbmi,hne,bind,Except.bind,pure,Except.pure] at h
        cases h
        rfl
      · simp [hbmi,htail,hne,bind,Except.bind] at h
    | ok tail =>
      simp only [hbmi,htail,bind,Except.bind,pure,Except.pure,ite_self] at h
      cases h
      rfl

/-- With an empty pool nothing is pulled, and the caller is told block 0. -/
theorem getBlkFromFreeList_empty {t : SysTbl} (h : Pool t []) :
    getBlkFromFreeList t = .ok (0,t) := by
  have hp : t.freeBlkPool.pull t.link = none := (Fifo.pull_eq_none_iff h.holds).mpr rfl
  simp only [getBlkFromFreeList,pullBlkFromPool,hp]
  rfl

/-- With a non-empty pool the oldest block leaves it and becomes the open one. -/
theorem getBlkFromFreeList_cons {t : SysTbl} {b : Nat} {l : List Nat} (h : Pool t (b :: l)) :
    ∃ t', getBlkFromFreeList t = .ok (b,t') ∧ Pool t' l ∧
      (t'.bmitbl b).bmstate = .open ∧ ∀ c, c ≠ b → t'.bmitbl c = t.bmitbl c := by
  obtain ⟨q,ln,hpull,hq,-⟩ := h.holds.pull
  have hb : b < cfgNandBlockNum := h.lt b (by simp)
  have hne : b ≠ 0xffff := by simp only [cfgNandBlockNum_eq] at hb; omega
  have hprev (hht : t.freeBlkPool.head ≠ t.freeBlkPool.tail) : (t.link b).prev < cfgNandBlockNum :=
    h.lt _ (List.mem_cons_of_mem b (h.holds.prev_mem hht))
  refine ⟨(t.setPool q ln).setState b .open,?_,?_,?_,?_⟩
  · simp [getBlkFromFreeList,pullBlkFromPool_eq hpull hb hprev,hne,getBmiItem_of_lt hb,bind,Except.bind,
      pure,Except.pure]
  · exact SysTbl.setState_pool.mpr ⟨hq,fun c hc => h.lt c (by simp [hc])⟩
  · simp [SysTbl.setState]
  · intro c hc
    simp [SysTbl.setState,SysTbl.setPool,Function.update_of_ne hc]

/-- The block enters the pool last, and no bad-channel word changes. -/
theorem insertBlkToFreeList_pool {t : SysTbl} {b : Nat} {l : List Nat} (h : Pool t l)
    (hb : b < cfgNandBlockNum) (hbl : b ∉ l) :
    ∃ t', insertBlkToFreeList t b = .ok t' ∧ Pool t' (l ++ [b]) ∧
      ∀ c, (t'.bmitbl c).bbt = (t.bmitbl c).bbt := by
  have hne : b ≠ noIndex := by simp only [cfgNandBlockNum_eq] at hb; unfold noIndex; omega
  have htail (ht : t.freeBlkPool.tail ≠ 0xffff) : t.freeBlkPool.tail < cfgNandBlockNum :=
    h.lt _ (h.holds.tail_mem ht)
  refine ⟨(t.setPool (t.freeBlkPool.push t.link b).1 (t.freeBlkPool.push t.link b).2).setState b
    .free,?_,?_,fun c => SysTbl.setState_bbt _ b .free c⟩
  · simp [insertBlkToFreeList,pushBlkToPool_eq hb htail,getBmiItem_of_lt hb,bind,Except.bind,pure,
      Except.pure]
  · refine SysTbl.setState_pool.mpr ⟨h.holds.push hbl hne,?_⟩
    intro c hc
    rcases List.mem_append.mp hc with hc | hc
    · exact h.lt c hc
    · simp at hc; exact hc ▸ hb

end Sdssd.Host
