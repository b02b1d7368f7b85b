import Mathlib.Algebra.Group.Nat.Defs
import Sdssd.Framework.QueueArray

/-!
# Lists of R-blocks

`dlist`s are threaded through the `next` and `prev` fields of the block table `g_bmi_tbl`; blocks enter
at the tail and leave at the head, and iterators run in either direction.
-/

namespace Sdssd.Fw

open Framework

/-- `dlist`. -/
abbrev Dlist := Fifo

/-- The link fields of `g_bmi_tbl`. -/
abbrev BmiLinks := Nat → Link

/-- `DLIST_EMPTY`. -/
def dlistEmpty : Nat := 0xffff

/-- `dlink_list_init`. -/
def dlinkListInit : Dlist := ⟨0xffff,0xffff,0⟩

def pushToRblkDlist (d : Dlist) (bmi : BmiLinks) (blk : Nat) : Dlist × BmiLinks :=
  if d.tail = 0xffff then
    (⟨blk,blk,(d.size+1) % 2^16⟩,Function.update bmi blk ⟨0xffff,0xffff⟩)
  else
    let bmi := Function.update bmi blk ⟨d.tail,0xffff⟩
    (⟨d.head,blk,(d.size+1) % 2^16⟩,Function.update bmi d.tail { bmi d.tail with prev := blk })

/-- `get_prev_bmi`. -/
def getPrevBmi (bmi : BmiLinks) (blk : Nat) : Option Nat :=
  if (bmi blk).prev ≠ 0xffff then some (bmi blk).prev else none

/-- `pull_from_rblk_dlist`; there is no result when `pitem` is dereferenced as `NULL`. -/
def pullFromRblkDlist (d : Dlist) (bmi : BmiLinks) : Option (Nat × Dlist × BmiLinks) :=
  let size := (d.size + (2^16-1)) % 2^16
  if d.head = 0xffff then some (dlistEmpty,d,bmi)
  else if d.head = d.tail then
    some (d.head,⟨0xffff,0xffff,size⟩,Function.update bmi d.head ⟨0xffff,0xffff⟩)
  else (getPrevBmi bmi d.head).map fun pitem =>
    let bmi := Function.update bmi pitem { bmi pitem with next := 0xffff }
    (d.head,⟨(bmi d.head).prev,d.tail,size⟩,Function.update bmi d.head ⟨0xffff,0xffff⟩)

/-- Directions for iterators. -/
inductive Direction
  | head
  | tail
  deriving DecidableEq, Repr

/-- `dlist_iter`. -/
structure DlistIter where
  next : Nat
  direction : Direction

def dlistIterInit (d : Dlist) : Direction → DlistIter
  | .head => ⟨d.head,.head⟩
  | .tail => ⟨d.tail,.tail⟩

/-- The link along which an iterator moves. -/
def Direction.along (bmi : BmiLinks) : Direction → Nat → Nat
  | .head, blk => (bmi blk).prev
  | .tail, blk => (bmi blk).next

/-- The block an iterator stands at, and the iterator moved on. -/
def rblkIter (bmi : BmiLinks) (iter : DlistIter) : Nat × DlistIter :=
  if iter.next ≠ 0xffff then
    (iter.next,{ iter with next := iter.direction.along bmi iter.next })
  else (iter.next,iter)

/-- The blocks that calls of `rblk_iter` return before the first `0xffff`; there is no result when
`n` calls do not reach it. -/
def iterate (bmi : BmiLinks) : Nat → DlistIter → Option (List Nat)
  | 0, _ => none
  | n+1, iter =>
    let r := rblkIter bmi iter
    if r.1 = 0xffff then some [] else (iterate bmi n r.2).map (r.1 :: ·)

section Ops

variable {d : Dlist} {bmi : BmiLinks} {blk : Nat} {l : List Nat}

/-- As long as the `u16` counter does not wrap, a push is that of an index queue. -/
theorem pushToRblkDlist_eq (hsize : d.size + 1 < 2^16) : pushToRblkDlist d bmi blk = d.push bmi blk := by
  rw [pushToRblkDlist,Nat.mod_eq_of_lt hsize]
  rfl

theorem pullFromRblkDlist_nil (h : Fifo.Holds bmi d []) :
    pullFromRblkDlist d bmi = some (dlistEmpty,d,bmi) := if_pos h.head

/-- A pull from a list with members is that of an index queue, and the previous entry exists. -/
theorem pullFromRblkDlist_cons (h : Fifo.Holds bmi d (blk :: l)) (hsize : d.size < 2^16) :
    pullFromRblkDlist d bmi = d.pull bmi := by
  have hhead : d.head ≠ 0xffff := fun he => by cases h.head_eq_noIndex_iff.mp he
  have hblk : d.head = blk := h.head
  have hdec : (d.size + (2^16-1)) % 2^16 = d.size - 1 := by
    have hpos : d.size = l.length + 1 := h.size
    omega
  rw [pullFromRblkDlist,hdec,if_neg hhead,Fifo.pull,if_neg (show d.head ≠ noIndex from hhead)]
  by_cases hone : d.head = d.tail
  · rw [if_pos hone,if_pos hone]
    rfl
  · have hprev : (bmi d.head).prev ≠ 0xffff := by
      rw [hblk]
      exact h.index _ (List.mem_cons_of_mem blk (h.prev_mem hone))
    rw [if_neg hone,if_neg hone,getPrevBmi,if_pos hprev]
    have hkept : (Function.update bmi (bmi d.head).prev
        { bmi (bmi d.head).prev with next := 0xffff } d.head).prev = (bmi d.head).prev := by
      by_cases he : d.head = (bmi d.head).prev
      · rw [← he,Function.update_self]
        exact he.symm
      · rw [Function.update_of_ne he]
    simp only [Option.map_some,hkept]
    rfl

/-- An iterator that follows a walk which ends visits what the walk meets. -/
theorem iterate_follow (dir : Direction) (blk : Nat) {n : Nat}
    (h : (Fifo.follow (dir.along bmi) n blk).length < n) :
    iterate bmi n ⟨blk,dir⟩ = some (Fifo.follow (dir.along bmi) n blk) := by
  induction n generalizing blk with
  | zero => exact absurd h (Nat.not_lt_zero _)
  | succ n ih =>
    rw [Fifo.follow] at h ⊢
    by_cases hend : blk = noIndex
    · subst hend
      rfl
    · rw [if_neg hend] at h ⊢
      have hrest := ih (dir.along bmi blk) (Nat.lt_of_succ_lt_succ h)
      rw [iterate,rblkIter,if_pos (show blk ≠ 0xffff from hend),if_neg (show blk ≠ 0xffff from hend),hrest]
      rfl

/-- From the head an iterator visits the blocks in the order in which they leave. -/
theorem iterate_head (h : Fifo.Linked bmi d l) {n : Nat} (hn : l.length < n) :
    iterate bmi n (dlistIterInit d .head) = some l := by
  have hwalk : Fifo.follow (Direction.head.along bmi) n d.head = l := h.follow_prev hn.le
  have hiter := iterate_follow .head d.head (hwalk.symm ▸ hn)
  rwa [hwalk] at hiter

theorem iterate_tail (h : Fifo.Linked bmi d l) {n : Nat} (hn : l.length < n) :
    iterate bmi n (dlistIterInit d .tail) = some l.reverse := by
  have hwalk : Fifo.follow (Direction.tail.along bmi) n d.tail = l.reverse := h.follow_next hn.le
  have hlen : (Fifo.follow (Direction.tail.along bmi) n d.tail).length < n := by
    rw [hwalk,List.length_reverse]
    exact hn
  have hiter := iterate_follow .tail d.tail hlen
  rwa [hwalk] at hiter

end Ops

section Family

variable {κ : Type} [DecidableEq κ] {c : FifoArray κ} {a : κ → List Nat}

/-- A call on one of the lists; `DLIST_EMPTY` is no block. -/
def rblkDlistStep (c : FifoArray κ) : QueueOp κ → Option (FifoArray κ × Option Nat)
  | .push k blk =>
    let r := pushToRblkDlist (c.fifos k) c.link blk
    some (c.set k r.1 r.2,none)
  | .pull k => (pullFromRblkDlist (c.fifos k) c.link).map fun r =>
    (c.set k r.2.1 r.2.2,if r.1 = dlistEmpty then none else some r.1)

/-- The lists represent the queues, and their members are block numbers. -/
structure RblkDlists (c : FifoArray κ) (a : κ → List Nat) : Prop where
  rep : c.Represents a
  lt : ∀ k, ∀ blk ∈ a k, blk < noIndex

omit [DecidableEq κ] in
theorem RblkDlists.size_le (h : RblkDlists c a) (k : κ) : (c.fifos k).size ≤ noIndex := by
  have hk := h.rep.linked k
  rw [hk.size]
  exact length_le_of_nodup hk.nodup (h.lt k)

omit [DecidableEq κ] in
/-- With a further block in no list, the counter of a list still has room. -/
theorem RblkDlists.size_lt (h : RblkDlists c a) {k : κ} {blk : Nat} (hblk : blk < noIndex)
    (hfree : blk ∉ a k) : (c.fifos k).size < noIndex := by
  have hk := h.rep.linked k
  have hlen := length_le_of_nodup (List.nodup_cons.mpr ⟨hfree,hk.nodup⟩) (n := noIndex) (by
    intro i hi
    rcases List.mem_cons.mp hi with rfl | hi
    · exact hblk
    · exact h.lt k i hi)
  rw [hk.size]
  exact hlen

theorem rblkDlistStep_refines (h : RblkDlists c a) {op : QueueOp κ} (hop : queueFree a op) :
    ∃ c' a' o, rblkDlistStep c op = some (c',o) ∧ queueStep a op = some (a',o) ∧ RblkDlists c' a' ∧
      c.Keeps c' a op.queue := by
  cases op with
  | push k blk =>
    have hsize : (c.fifos k).size + 1 < 2^16 := Nat.succ_lt_succ (h.size_lt hop.1 (hop.2 k))
    obtain ⟨hrep,hkeep⟩ := h.rep.push hop.1 hop.2 k
    have hlt := queueStep_forall h.lt (fun _ _ he => by cases he; exact hop.1)
      (rfl : queueStep a (.push k blk) = _)
    refine ⟨_,_,none,?_,rfl,⟨hrep,hlt⟩,hkeep⟩
    rw [rblkDlistStep,pushToRblkDlist_eq hsize]
  | pull k =>
    have hsize : (c.fifos k).size < 2^16 := Nat.lt_succ_of_le (h.size_le k)
    cases hk : a k with
    | nil =>
      refine ⟨c,a,none,?_,?_,h,fun _ _ => ⟨rfl,fun _ _ => rfl⟩⟩
      · rw [rblkDlistStep,pullFromRblkDlist_nil (hk ▸ (h.rep.linked k).toHolds)]
        show some (c.set k (c.fifos k) c.link,_) = _
        rw [FifoArray.set,Function.update_eq_self]
        rfl
      · rw [queueStep,hk,List.tail_nil,← hk,Function.update_eq_self,hk]
        rfl
    | cons blk l =>
      obtain ⟨q,ln,hpull,hrep,hkeep⟩ := h.rep.pull_cons hk
      have hspec : queueStep a (.pull k) = some (Function.update a k l,some blk) := by
        rw [queueStep,hk]
        rfl
      have hlt := queueStep_forall h.lt (fun _ _ he => by cases he) hspec
      have hblk : blk ≠ dlistEmpty := Nat.ne_of_lt (h.lt k blk (hk ▸ List.mem_cons_self))
      refine ⟨c.set k q ln,Function.update a k l,some blk,?_,hspec,⟨hrep,hlt⟩,hkeep⟩
      rw [rblkDlistStep,pullFromRblkDlist_cons (hk ▸ (h.rep.linked k).toHolds) hsize,hpull]
      show some (c.set k q ln,_) = _
      rw [if_neg hblk]

/-- For all pushes and pulls in which a block is pushed only when it is in no list, lists of R-blocks
give the results of queues. Afterwards the counters are the lengths, iterators from the head and from
the tail visit the members in pull order and in reverse and then end, and one more call leaves the
other lists alone. -/
theorem rblk_dlists_refine_queues (bmi : BmiLinks) (ops : List (QueueOp κ))
    (hops : Admits queueStep queueFree (fun _ => []) ops) :
    ∃ c a outs, runOps rblkDlistStep ⟨fun _ => dlinkListInit,bmi⟩ ops = some (c,outs) ∧
      runOps queueStep (fun _ => []) ops = some (a,outs) ∧
      (∀ k, (c.fifos k).size = (a k).length ∧ ∀ n, (a k).length < n →
        iterate c.link n (dlistIterInit (c.fifos k) .head) = some (a k) ∧
          iterate c.link n (dlistIterInit (c.fifos k) .tail) = some (a k).reverse) ∧
      ∀ op, queueFree a op → ∃ c' o, rblkDlistStep c op = some (c',o) ∧ c.Keeps c' a op.queue := by
  have hinit : RblkDlists (⟨fun _ => dlinkListInit,bmi⟩ : FifoArray κ) fun _ => [] :=
    ⟨FifoArray.represents_init bmi,fun _ _ hb => by cases hb⟩
  have hstep (c : FifoArray κ) (a : κ → List Nat) (op : QueueOp κ) (hR : RblkDlists c a)
      (hok : queueFree a op) :
      ∃ c' a' o, rblkDlistStep c op = some (c',o) ∧ queueStep a op = some (a',o) ∧ RblkDlists c' a' := by
    obtain ⟨c',a',o,hc',ha',hR',-⟩ := rblkDlistStep_refines hR hok
    exact ⟨c',a',o,hc',ha',hR'⟩
  obtain ⟨c,a,outs,hc,ha,hR⟩ := runOps_refines RblkDlists hstep hinit hops
  refine ⟨c,a,outs,hc,ha,?_,?_⟩
  · intro k
    have hk := hR.rep.linked k
    apply And.intro hk.size
    intro n hn
    exact ⟨iterate_head hk hn,iterate_tail hk hn⟩
  · intro op hop
    obtain ⟨c',a',o,hc',-,-,hkeep⟩ := rblkDlistStep_refines hR hop
    exact ⟨c',o,hc',hkeep⟩

end Family

/-- Two lists: block 3 leaves the first and enters the second behind block 7. -/
theorem rblk_dlists_refine_queues_two : ∃ c : FifoArray Bool,
    runOps rblkDlistStep ⟨fun _ => dlinkListInit,fun _ => ⟨0,0⟩⟩
      [.push false 3,.push true 7,.push false 5,.pull false,.push true 3] =
        some (c,[none,none,none,some 3,none]) ∧
      iterate c.link 3 (dlistIterInit (c.fifos true) .tail) = some [3,7] := by
  let ops : List (QueueOp Bool) := [.push false 3,.push true 7,.push false 5,.pull false,.push true 3]
  have hops : Admits queueStep queueFree (fun _ => []) ops := by
    simp [Admits,ops,queueStep,queueFree,noIndex]
  obtain ⟨c,a,outs,hc,ha,hshow,-⟩ := rblk_dlists_refine_queues (fun _ => ⟨0,0⟩) ops hops
  have houts : some outs = some [none,none,none,some 3,none] := congrArg (Option.map Prod.snd) ha.symm
  have hlist : some (a true) = some [7,3] :=
    congrArg (Option.map fun r : (Bool → List Nat) × List (Option Nat) => r.1 true) ha.symm
  have htail := ((hshow true).2 3 (by rw [Option.some.inj hlist]; decide)).2
  exact ⟨c,Option.some.inj houts ▸ hc,by rw [htail,Option.some.inj hlist]; rfl⟩

end Sdssd.Fw
