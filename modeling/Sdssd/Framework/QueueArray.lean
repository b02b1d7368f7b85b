import Sdssd.Framework.IndexQueue
import Sdssd.Framework.ListFamily
import Sdssd.Framework.Refinement

/-!
# Several queues in one array of links

Queues that share the link array represent disjoint lists. Both walks through a queue, from the head
by `prev` and from the tail by `next`, stop at `noIndex`.
-/

namespace Sdssd.Framework

namespace Fifo

variable {q : Fifo} {ln : Nat → Link} {l : List Nat} {i j : Nat}

/-- `Holds`, with the links of the other direction and the ends of both walks. -/
structure Linked (ln : Nat → Link) (q : Fifo) (l : List Nat) : Prop extends Holds ln q l where
  stop : ∀ i ∈ l.getLast?, (ln i).prev = noIndex
  back : (noIndex :: l).IsChain (fun a b => (ln b).next = a)

theorem linked_init (ln : Nat → Link) : Linked ln init [] :=
  ⟨holds_init ln,by simp,List.isChain_singleton _⟩

theorem Linked.congr {ln' : Nat → Link} (h : Linked ln q l) (hln : ∀ i ∈ l, ln' i = ln i) :
    Linked ln' q l := by
  refine ⟨h.toHolds.congr hln,?_,?_⟩
  · intro i hi
    rw [hln i (List.mem_of_getLast? hi)]
    exact h.stop i hi
  · cases l with
    | nil => exact List.isChain_singleton _
    | cons a l =>
      obtain ⟨hfirst,hrest⟩ := List.isChain_cons_cons.mp h.back
      refine List.isChain_cons_cons.mpr ⟨by rw [hln a List.mem_cons_self]; exact hfirst,?_⟩
      refine hrest.imp_of_mem_imp ?_
      intro x y _ hy hxy
      rw [hln y hy]
      exact hxy

/-- Of the `next` links a push changes that of the new entry only; it leads to the old tail. -/
theorem push_next (htail : q.tail ≠ i) :
    ((q.push ln i).2 j).next = if j = i then q.tail else (ln j).next := by
  unfold push
  by_cases hj : j = i
  · subst hj
    by_cases ht : q.tail = noIndex
    · simp [ht]
    · simp [ht,Function.update_of_ne (Ne.symm htail)]
  · by_cases ht : q.tail = noIndex
    · simp [ht,hj]
    · by_cases hjt : j = q.tail
      · simp [hjt,ht,htail]
      · simp [ht,hj,Function.update_of_ne hjt]

theorem push_prev_self (htail : q.tail ≠ i) : ((q.push ln i).2 i).prev = noIndex := by
  unfold push
  by_cases ht : q.tail = noIndex
  · simp [ht]
  · simp [ht,Function.update_of_ne (Ne.symm htail)]

theorem Holds.tail_ne (h : Holds ln q l) (hi : i ∉ l) (hno : i ≠ noIndex) : q.tail ≠ i := by
  intro he
  exact hi (he ▸ h.tail_mem (he ▸ hno))

theorem Linked.push (h : Linked ln q l) (hi : i ∉ l) (hno : i ≠ noIndex) :
    Linked (q.push ln i).2 (q.push ln i).1 (l ++ [i]) := by
  have htail := h.toHolds.tail_ne hi hno
  refine ⟨h.toHolds.push hi hno,?_,?_⟩
  · intro x hx
    obtain rfl : i = x := by simpa using hx
    exact push_prev_self htail
  · rw [← List.cons_append,List.isChain_append]
    refine ⟨?_,List.isChain_singleton i,?_⟩
    · cases l with
      | nil => exact List.isChain_singleton _
      | cons a l =>
        have hne (y : Nat) (hy : y ∈ a :: l) : y ≠ i := fun he => hi (he ▸ hy)
        obtain ⟨hfirst,hrest⟩ := List.isChain_cons_cons.mp h.back
        refine List.isChain_cons_cons.mpr ⟨?_,?_⟩
        · rw [push_next htail,if_neg (hne a List.mem_cons_self)]
          exact hfirst
        · refine hrest.imp_of_mem_imp ?_
          intro x y _ hy hxy
          rw [push_next htail,if_neg (hne y hy)]
          exact hxy
    · intro x hx y hy
      obtain rfl : i = y := by simpa using hy
      rw [push_next htail,if_pos rfl,h.tail]
      rw [List.getLast?_cons] at hx
      exact Option.some.inj hx

/-- A pull clears the links of the entry that leaves, and the `next` link of the new head. -/
theorem pull_links {q' : Fifo} {ln' : Nat → Link} (h : q.pull ln = some (i,q',ln')) (hj : j ≠ i) :
    (ln' j).prev = (ln j).prev ∧ (ln' j).next =
      if q.head ≠ q.tail ∧ j = (ln i).prev then noIndex else (ln j).next := by
  unfold Fifo.pull at h
  by_cases hhead : q.head = noIndex
  · simp [hhead] at h
  · rw [if_neg hhead] at h
    by_cases hone : q.head = q.tail
    · rw [if_pos hone,Option.some.injEq,Prod.mk.injEq,Prod.mk.injEq] at h
      obtain ⟨hi,-,rfl⟩ := h
      rw [hi,Function.update_of_ne hj,← hi]
      simp [hone]
    · rw [if_neg hone,Option.some.injEq,Prod.mk.injEq,Prod.mk.injEq] at h
      obtain ⟨hi,-,rfl⟩ := h
      rw [hi,Function.update_of_ne hj]
      by_cases hjp : j = (ln i).prev
      · subst hjp
        rw [← hi]
        simp [hone]
      · rw [Function.update_of_ne hjp]
        simp [hjp]

theorem Linked.pull (h : Linked ln q (i :: l)) :
    ∃ q' ln', q.pull ln = some (i,q',ln') ∧ Linked ln' q' l ∧ ∀ j, j ∉ i :: l → ln' j = ln j := by
  obtain ⟨q',ln',hpull,hq',hframe⟩ := h.toHolds.pull
  have hnodup := List.nodup_cons.mp h.nodup
  have hne (j : Nat) (hj : j ∈ l) : j ≠ i := fun he => hnodup.1 (he ▸ hj)
  refine ⟨q',ln',hpull,⟨hq',?_,?_⟩,hframe⟩
  · intro x hx
    have hmem := List.mem_of_getLast? hx
    rw [(pull_links hpull (hne x hmem)).1]
    apply h.stop
    cases l with
    | nil => cases hmem
    | cons k l => simpa using hx
  · cases l with
    | nil => exact List.isChain_singleton _
    | cons k l =>
      have hprev : (ln i).prev = k := (List.isChain_cons_cons.mp h.chain).1
      have hback := (List.isChain_cons_cons.mp (List.isChain_cons_cons.mp h.back).2).2
      refine List.isChain_cons_cons.mpr ⟨?_,?_⟩
      · rw [(pull_links hpull (hne k List.mem_cons_self)).2,if_pos ⟨h.head_ne_tail,hprev.symm⟩]
      · have hk := (List.nodup_cons.mp hnodup.2).1
        have hnext (y : Nat) (hy : y ∈ l) : (ln' y).next = (ln y).next := by
          rw [(pull_links hpull (hne y (List.mem_cons_of_mem k hy))).2,if_neg]
          rintro ⟨-,he⟩
          exact hk (hprev ▸ he ▸ hy)
        cases l with
        | nil => exact List.isChain_singleton _
        | cons m l =>
          obtain ⟨hfirst,hrest⟩ := List.isChain_cons_cons.mp hback
          refine List.isChain_cons_cons.mpr ⟨(hnext m List.mem_cons_self).trans hfirst,?_⟩
          refine hrest.imp_of_mem_imp ?_
          intro x y _ hy hxy
          exact (hnext y hy).trans hxy

/-- Follow a link field until it leads nowhere, for at most `n` entries. -/
def follow (link : Nat → Nat) : Nat → Nat → List Nat
  | 0, _ => []
  | n+1, i => if i = noIndex then [] else i :: follow link n (link i)

theorem follow_chain {link : Nat → Nat} {n : Nat} (hi : i = l.head?.getD noIndex)
    (hindex : ∀ j ∈ l, j ≠ noIndex) (hchain : l.IsChain (fun a b => link a = b))
    (hstop : ∀ j ∈ l.getLast?, link j = noIndex) (hn : l.length ≤ n) : follow link n i = l := by
  induction l generalizing i n with
  | nil =>
    cases n with
    | zero => rfl
    | succ n => exact if_pos hi
  | cons a l ih =>
    cases n with
    | zero => exact absurd hn (Nat.not_succ_le_zero _)
    | succ n =>
      obtain rfl : i = a := hi
      have hlink : link i = l.head?.getD noIndex := by
        cases l with
        | nil => exact hstop i rfl
        | cons b l => exact (List.isChain_cons_cons.mp hchain).1
      have hrest : follow link n (link i) = l := by
        apply ih hlink (fun j hj => hindex j (List.mem_cons_of_mem i hj)) hchain.tail
        · intro j hj
          cases l with
          | nil => cases hj
          | cons b l => exact hstop j (by simpa using hj)
        · exact Nat.le_of_succ_le_succ hn
      rw [follow,if_neg (hindex i List.mem_cons_self),hrest]

/-- From the head by `prev` the walk meets the members in the order in which they entered. -/
theorem Linked.follow_prev (h : Linked ln q l) {n : Nat} (hn : l.length ≤ n) :
    follow (fun i => (ln i).prev) n q.head = l :=
  follow_chain h.head h.index h.chain h.stop hn

/-- From the tail by `next` it meets them in the opposite order. -/
theorem Linked.follow_next (h : Linked ln q l) {n : Nat} (hn : l.length ≤ n) :
    follow (fun i => (ln i).next) n q.tail = l.reverse := by
  apply follow_chain
  case hi => rw [h.tail,List.head?_reverse]
  case hindex =>
    intro j hj
    exact h.index j (List.mem_reverse.mp hj)
  case hchain =>
    rw [List.isChain_reverse]
    exact h.back.tail
  case hstop =>
    intro j hj
    rw [List.getLast?_reverse] at hj
    cases l with
    | nil => cases hj
    | cons a l =>
      obtain rfl : a = j := Option.some.inj hj
      exact (List.isChain_cons_cons.mp h.back).1
  case hn => rwa [List.length_reverse]

end Fifo

section Array

variable {κ : Type*} [DecidableEq κ]

/-- An operation on one of the queues `κ`. -/
inductive QueueOp (κ : Type*)
  | push (k : κ) (i : Nat)
  | pull (k : κ)

def QueueOp.queue : QueueOp κ → κ
  | .push k _ | .pull k => k

/-- Lists with the same operations; a pull gives the oldest member, if there is one. -/
def queueStep (a : κ → List Nat) : QueueOp κ → Option ((κ → List Nat) × Option Nat)
  | .push k i => some (Function.update a k (a k ++ [i]),none)
  | .pull k => some (Function.update a k (a k).tail,(a k).head?)

/-- What is pushed has an index and is in none of the queues. -/
def queueFree (a : κ → List Nat) : QueueOp κ → Prop
  | .push _ i => i < noIndex ∧ ∀ k, i ∉ a k
  | .pull _ => True

/-- What holds of everything pushed holds of all members. -/
theorem queueStep_forall {P : Nat → Prop} {a a' : κ → List Nat} {op : QueueOp κ} {o : Option Nat}
    (h : ∀ k, ∀ i ∈ a k, P i) (hop : ∀ k i, op = .push k i → P i)
    (hs : queueStep a op = some (a',o)) : ∀ k, ∀ i ∈ a' k, P i := by
  cases op with
  | push k j =>
    cases hs
    intro k' i hi
    by_cases hk : k' = k
    · rw [hk,Function.update_self,List.mem_append,List.mem_singleton] at hi
      rcases hi with hi | rfl
      · exact h k i hi
      · exact hop k i rfl
    · rw [Function.update_of_ne hk] at hi
      exact h k' i hi
  | pull k =>
    cases hs
    intro k' i hi
    by_cases hk : k' = k
    · rw [hk,Function.update_self] at hi
      exact h k i (List.mem_of_mem_tail hi)
    · rw [Function.update_of_ne hk] at hi
      exact h k' i hi

/-- Queues over one array of links. -/
structure FifoArray (κ : Type*) where
  fifos : κ → Fifo
  link : Nat → Link

def FifoArray.set (c : FifoArray κ) (k : κ) (q : Fifo) (ln : Nat → Link) : FifoArray κ :=
  ⟨Function.update c.fifos k q,ln⟩

/-- The queues represent the lists, and no entry is in two of them. -/
structure FifoArray.Represents (c : FifoArray κ) (a : κ → List Nat) : Prop where
  linked : ∀ k, Fifo.Linked c.link (c.fifos k) (a k)
  apart : ∀ k k' i, i ∈ a k → i ∈ a k' → k = k'

/-- Other queues and their links are left alone. -/
def FifoArray.Keeps (c c' : FifoArray κ) (a : κ → List Nat) (k : κ) : Prop :=
  ∀ k', k' ≠ k → c'.fifos k' = c.fifos k' ∧ ∀ i ∈ a k', c'.link i = c.link i

namespace FifoArray

variable {c : FifoArray κ} {a : κ → List Nat} {k : κ} {i : Nat}

omit [DecidableEq κ] in
theorem represents_init (ln : Nat → Link) :
    Represents (⟨fun _ => Fifo.init,ln⟩ : FifoArray κ) fun _ => [] :=
  ⟨fun _ => Fifo.linked_init ln,fun _ _ _ h => by cases h⟩

/-- One queue is replaced, with changes to its own links only. -/
theorem Represents.set (h : c.Represents a) {q : Fifo} {ln : Nat → Link} {l : List Nat}
    (hq : Fifo.Linked ln q l) (hsub : ∀ i ∈ l, i ∈ a k ∨ ∀ k', i ∉ a k')
    (hln : ∀ k', k' ≠ k → ∀ i ∈ a k', ln i = c.link i) :
    (c.set k q ln).Represents (Function.update a k l) ∧ c.Keeps (c.set k q ln) a k := by
  refine ⟨⟨?_,?_⟩,?_⟩
  · intro k'
    by_cases hk : k' = k
    · subst hk
      simpa [FifoArray.set] using hq
    · rw [Function.update_of_ne hk]
      show Fifo.Linked ln (Function.update c.fifos k q k') (a k')
      rw [Function.update_of_ne hk]
      exact (h.linked k').congr (hln k' hk)
  · exact Disjointed.update h.apart hsub
  · intro k' hk
    exact ⟨Function.update_of_ne hk ..,hln k' hk⟩

theorem Represents.push (h : c.Represents a) (hi : i < noIndex) (hfree : ∀ k', i ∉ a k') (k : κ) :
    (c.set k ((c.fifos k).push c.link i).1 ((c.fifos k).push c.link i).2).Represents
        (Function.update a k (a k ++ [i])) ∧
      c.Keeps (c.set k ((c.fifos k).push c.link i).1 ((c.fifos k).push c.link i).2) a k := by
  apply h.set ((h.linked k).push (hfree k) (Nat.ne_of_lt hi))
  · intro j hj
    rcases List.mem_append.mp hj with hj | hj
    · exact Or.inl hj
    · rw [List.mem_singleton.mp hj]
      exact Or.inr hfree
  · intro k' hk j hj
    apply Fifo.push_link_of_ne (h.linked k).toHolds
    · exact fun he => hfree k' (he ▸ hj)
    · exact fun hjk => hk (h.apart k' k j hj hjk)

omit [DecidableEq κ] in
theorem Represents.pull_nil (h : c.Represents a) (hk : a k = []) : (c.fifos k).pull c.link = none :=
  (Fifo.pull_eq_none_iff (h.linked k).toHolds).mpr hk

theorem Represents.pull_cons (h : c.Represents a) {l : List Nat} (hk : a k = i :: l) :
    ∃ q ln, (c.fifos k).pull c.link = some (i,q,ln) ∧
      (c.set k q ln).Represents (Function.update a k l) ∧ c.Keeps (c.set k q ln) a k := by
  obtain ⟨q,ln,hpull,hq,hframe⟩ := (hk ▸ h.linked k).pull
  refine ⟨q,ln,hpull,h.set hq ?_ ?_⟩
  · intro j hj
    exact Or.inl (hk ▸ List.mem_cons_of_mem i hj)
  · intro k' hk' j hj
    apply hframe j
    intro hjk
    exact hk' (h.apart k' k j hj (hk ▸ hjk))

end FifoArray

end Array

end Sdssd.Framework
