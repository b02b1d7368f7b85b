import Mathlib.Data.List.Chain
import Mathlib.Data.List.Nodup
import Mathlib.Logic.Function.Basic

/-!
# FIFO queues threaded through an array of links

A queue is a head, a tail and a size; its members are chained through two link fields kept in
one array, which several disjoint queues may share. Elements enter at the tail and leave at the
head, and `prev` leads from an element to the one that entered after it.
-/

namespace Sdssd.Framework

/-- The index that stands for "none". -/
def noIndex : Nat := 0xffff

/-- The two link fields of one array entry. -/
structure Link where
  next : Nat
  prev : Nat
  deriving DecidableEq, Repr

/-- Queue descriptor; the members live in the link array. -/
structure Fifo where
  head : Nat
  tail : Nat
  size : Nat
  deriving DecidableEq, Repr

namespace Fifo

variable {q : Fifo} {ln : Nat → Link} {l m : List Nat} {i j : Nat}

def init : Fifo := ⟨noIndex,noIndex,0⟩

/-- Append one index at the tail. -/
def push (q : Fifo) (ln : Nat → Link) (i : Nat) : Fifo × (Nat → Link) :=
  if q.tail = noIndex then
    (⟨i,i,q.size+1⟩,Function.update ln i ⟨noIndex,noIndex⟩)
  else
    let ln' := Function.update ln i ⟨q.tail,noIndex⟩
    (⟨q.head,i,q.size+1⟩,Function.update ln' q.tail { ln' q.tail with prev := i })

/-- Remove the index at the head. -/
def pull (q : Fifo) (ln : Nat → Link) : Option (Nat × Fifo × (Nat → Link)) :=
  if q.head = noIndex then none
  else if q.head = q.tail then
    some (q.head,⟨noIndex,noIndex,q.size-1⟩,Function.update ln q.head ⟨noIndex,noIndex⟩)
  else
    let p := (ln q.head).prev
    let ln' := Function.update ln p { ln p with next := noIndex }
    some (q.head,⟨p,q.tail,q.size-1⟩,Function.update ln' q.head ⟨noIndex,noIndex⟩)

/-- Follow `prev` links for a given number of members. -/
def walk (ln : Nat → Link) : Nat → Nat → List Nat
  | 0, _ => []
  | n+1, i => i :: walk ln n (ln i).prev

/-- The members from head to tail. -/
def toList (q : Fifo) (ln : Nat → Link) : List Nat := walk ln q.size q.head

/-- The descriptor and the link array represent the list `l`, oldest member first. -/
structure Holds (ln : Nat → Link) (q : Fifo) (l : List Nat) : Prop where
  nodup : l.Nodup
  index : ∀ i ∈ l, i ≠ noIndex
  head : q.head = l.head?.getD noIndex
  tail : q.tail = l.getLast?.getD noIndex
  size : q.size = l.length
  chain : l.IsChain (fun a b => (ln a).prev = b)

theorem holds_init (ln : Nat → Link) : Holds ln init [] := by
  refine ⟨List.nodup_nil,?_,rfl,rfl,rfl,List.isChain_nil⟩
  intro i hi
  simp at hi

private theorem walk_chain (i : Nat) (l : List Nat)
    (h : (i :: l).IsChain (fun a b => (ln a).prev = b)) :
    walk ln (l.length+1) i = i :: l := by
  induction l generalizing i with
  | nil => rfl
  | cons j l ih =>
    have hij := (List.isChain_cons_cons.mp h).1
    have hl := (List.isChain_cons_cons.mp h).2
    rw [walk,hij,List.length_cons,ih j hl]

theorem Holds.toList_eq (h : Holds ln q l) : q.toList ln = l := by
  cases l with
  | nil => simp [toList,h.size,walk]
  | cons i l =>
    have hhead : q.head = i := by simpa using h.head
    rw [toList,h.size,hhead,List.length_cons]
    exact walk_chain i l h.chain

/-- A queue does not notice changes to links of entries outside it. -/
theorem Holds.congr {ln' : Nat → Link} (h : Holds ln q l) (hln : ∀ i ∈ l, ln' i = ln i) :
    Holds ln' q l := by
  refine ⟨h.nodup,h.index,h.head,h.tail,h.size,?_⟩
  refine h.chain.imp_of_mem_imp ?_
  intro a b ha _ hab
  rw [hln a ha]
  exact hab

theorem Holds.head_eq_noIndex_iff (h : Holds ln q l) : q.head = noIndex ↔ l = [] := by
  constructor
  · intro hq
    cases l with
    | nil => rfl
    | cons i l =>
      have hi : q.head = i := by simpa using h.head
      exact absurd (hi.symm.trans hq) (h.index i (by simp))
  · rintro rfl
    simpa using h.head

theorem Holds.tail_eq_noIndex_iff (h : Holds ln q l) : q.tail = noIndex ↔ l = [] := by
  constructor
  · intro hq
    by_contra hne
    have ht := h.tail
    rw [List.getLast?_eq_getLast_of_ne_nil hne] at ht
    exact h.index _ (List.getLast_mem hne) (by simpa using ht.symm.trans hq)
  · rintro rfl
    simpa using h.tail

theorem Holds.tail_mem (h : Holds ln q l) (ht : q.tail ≠ noIndex) : q.tail ∈ l := by
  have hlast := h.tail
  cases hl : l.getLast? with
  | none =>
    rw [hl] at hlast
    exact absurd hlast ht
  | some x =>
    rw [hl] at hlast
    exact hlast ▸ List.mem_of_getLast? hl

/-- With more than one member the head links to one of the others. -/
theorem Holds.prev_mem (h : Holds ln q (i :: l)) (hht : q.head ≠ q.tail) : (ln i).prev ∈ l := by
  cases l with
  | nil => exact absurd (h.head.trans h.tail.symm) hht
  | cons k l =>
    rw [(List.isChain_cons_cons.mp h.chain).1]
    exact List.mem_cons_self

theorem Holds.size_eq_zero_iff (h : Holds ln q l) : q.size = 0 ↔ l = [] := by
  rw [h.size,List.length_eq_zero_iff]

/-- Pushing an entry that is in no position of the queue appends it. -/
theorem Holds.push (h : Holds ln q l) (hi : i ∉ l) (hno : i ≠ noIndex) :
    Holds (q.push ln i).2 (q.push ln i).1 (l ++ [i]) := by
  have hnodup : (l ++ [i]).Nodup := List.nodup_append.mpr
    ⟨h.nodup,by simp,by intro a ha b hb hab; simp at hb; exact hi (hb ▸ hab ▸ ha)⟩
  have hindex : ∀ j ∈ l ++ [i], j ≠ noIndex := by
    intro j hj
    rcases List.mem_append.mp hj with hj | hj
    · exact h.index j hj
    · simp at hj; exact hj ▸ hno
  by_cases hl : l = []
  · subst hl
    have ht : q.tail = noIndex := h.tail_eq_noIndex_iff.mpr rfl
    have hs : q.size = 0 := h.size
    simp only [Fifo.push,ht,if_true]
    exact ⟨hnodup,hindex,rfl,rfl,by simp [hs],List.isChain_singleton i⟩
  · have ht : q.tail ≠ noIndex := fun hq => hl (h.tail_eq_noIndex_iff.mp hq)
    have hlast : q.tail = l.getLast hl := by
      have := h.tail
      rw [List.getLast?_eq_getLast_of_ne_nil hl] at this
      simpa using this
    have hne : q.tail ≠ i := fun hq => hi (hq ▸ h.tail_mem ht)
    simp only [Fifo.push,if_neg ht]
    refine ⟨hnodup,hindex,?_,by simp,by simp [h.size],?_⟩
    · rw [h.head]
      cases l with
      | nil => exact absurd rfl hl
      | cons a l => rfl
    · -- the old tail is the only member whose `prev` changes, and it is last in `l`
      rw [List.isChain_append]
      refine ⟨?_,List.isChain_singleton i,?_⟩
      · obtain ⟨l',hl'⟩ : ∃ l', l = l' ++ [q.tail] := ⟨l.dropLast,by
          rw [hlast]; exact (List.dropLast_append_getLast hl).symm⟩
        have hnl : q.tail ∉ l' := by
          intro hm
          have hn := h.nodup
          rw [hl'] at hn
          exact (List.nodup_append.mp hn).2.2 _ hm _ (by simp) rfl
        have hc := h.chain
        rw [hl',List.isChain_append] at hc ⊢
        refine ⟨?_,List.isChain_singleton _,?_⟩
        · refine hc.1.imp_of_mem_imp ?_
          intro a b ha _ hab
          have hat : a ≠ q.tail := fun he => hnl (he ▸ ha)
          have hai : a ≠ i := fun he => hi (by rw [hl']; simp [← he,ha])
          simpa [Function.update_of_ne hat,Function.update_of_ne hai] using hab
        · intro a ha b hb
          have ham : a ∈ l' := List.mem_of_getLast? ha
          have hat : a ≠ q.tail := fun he => hnl (he ▸ ham)
          have hai : a ≠ i := fun he => hi (by rw [hl']; simp [← he,ham])
          simpa [Function.update_of_ne hat,Function.update_of_ne hai] using hc.2.2 a ha b hb
      · intro a ha b hb
        have hat : a = q.tail := by
          rw [List.getLast?_eq_getLast_of_ne_nil hl] at ha
          simpa [hlast] using ha.symm
        subst hat
        simpa using hb

@[simp] theorem push_tail (q : Fifo) (ln : Nat → Link) (i : Nat) : (q.push ln i).1.tail = i := by
  unfold Fifo.push
  split <;> rfl

theorem push_link_off_tail (hji : j ≠ i) (hjt : j ≠ q.tail) : (q.push ln i).2 j = ln j := by
  unfold Fifo.push
  split
  · simp [Function.update_of_ne hji]
  · simp [Function.update_of_ne hjt,Function.update_of_ne hji]

theorem push_link_of_ne (h : Holds ln q l) (hji : j ≠ i) (hjl : j ∉ l) :
    (q.push ln i).2 j = ln j := by
  by_cases ht : q.tail = noIndex
  · unfold Fifo.push
    simp [ht,Function.update_of_ne hji]
  · exact push_link_off_tail hji fun hjt => hjl (hjt ▸ h.tail_mem ht)

theorem pull_eq_none_iff (h : Holds ln q l) : q.pull ln = none ↔ l = [] := by
  rw [← h.head_eq_noIndex_iff]
  unfold pull
  constructor
  · intro hp
    by_contra hne
    rw [if_neg hne] at hp
    split at hp <;> simp at hp
  · intro hq
    simp [hq]

theorem Holds.head_ne_tail {k : Nat} (h : Holds ln q (i :: k :: l)) : q.head ≠ q.tail := by
  have hhead : q.head = i := by simpa using h.head
  have htail : q.tail = (k :: l).getLast (by simp) := by
    have := h.tail
    rw [List.getLast?_eq_getLast_of_ne_nil (by simp),List.getLast_cons (by simp)] at this
    simpa using this
  rw [hhead,htail]
  intro he
  exact (List.nodup_cons.mp h.nodup).1 (he ▸ List.getLast_mem _)

/-- Pulling returns the oldest member and leaves the rest in order. -/
theorem Holds.pull (h : Holds ln q (i :: l)) :
    ∃ q' ln', q.pull ln = some (i,q',ln') ∧ Holds ln' q' l ∧ ∀ j, j ∉ i :: l → ln' j = ln j := by
  have hhead : q.head = i := by simpa using h.head
  have hne : q.head ≠ noIndex := hhead ▸ h.index i (by simp)
  have hnodup := List.nodup_cons.mp h.nodup
  cases l with
  | nil =>
    have htail : q.tail = i := by simpa using h.tail
    refine ⟨⟨noIndex,noIndex,q.size-1⟩,Function.update ln i ⟨noIndex,noIndex⟩,?_,?_,?_⟩
    · rw [Fifo.pull,if_neg hne,if_pos (hhead.trans htail.symm),hhead]
    · exact ⟨List.nodup_nil,by simp,rfl,rfl,by simp [h.size],List.isChain_nil⟩
    · intro j hj
      exact Function.update_of_ne (by simpa using hj) _ _
  | cons k l =>
    have hprev : (ln i).prev = k := (List.isChain_cons_cons.mp h.chain).1
    have hht := h.head_ne_tail
    have hik : i ≠ k := fun he => hnodup.1 (by simp [he])
    refine ⟨_,_,by rw [Fifo.pull,if_neg hne,if_neg hht,hhead],?_,?_⟩
    · refine ⟨hnodup.2,fun j hj => h.index j (by simp [hj]),?_,?_,by simp [h.size],?_⟩
      · simpa using hprev
      · simpa using h.tail
      · refine (List.isChain_cons_cons.mp h.chain).2.imp_of_mem_imp ?_
        intro a b ha _ hab
        have hai : a ≠ i := fun he => hnodup.1 (he ▸ ha)
        rw [Function.update_of_ne hai,hprev]
        by_cases hak : a = k
        · subst hak
          simpa using hab
        · simpa [Function.update_of_ne hak] using hab
    · intro j hj
      simp only [List.mem_cons,not_or] at hj
      rw [Function.update_of_ne hj.1,hprev,Function.update_of_ne hj.2.1]

end Fifo

end Sdssd.Framework
