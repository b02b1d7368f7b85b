import Mathlib.Algebra.Group.Nat.Defs
import Sdssd.Framework.ListFamily
import Sdssd.Framework.PointerChain
import Sdssd.Framework.Refinement

/-!
# Intrusive queues

`lib/queue.h`: a front, a rear and a counter over nodes that carry their own `next` pointer. Nodes
enter at either end and leave at the front. Any number of queues share the nodes.
-/

namespace Sdssd.Fw

open Framework

/-- A `struct qnode`, by its address; 0 is `NULL`. -/
abbrev QNode := {p : BitVec 32 // p ≠ 0}

/-- The `next` fields of all nodes. -/
abbrev NextMap := QNode → Option QNode

/-- `struct Queue`. -/
structure Queue where
  size : Nat
  front : Option QNode
  rear : Option QNode
  deriving DecidableEq

namespace Queue

variable {q : Queue} {next : NextMap} {l : List QNode} {x : QNode}

/-- `queue_init`. -/
def init : Queue := ⟨0,none,none⟩

/-- Increment of the `u32` counter. -/
def incSize (q : Queue) : Nat := (q.size + 1) % 2^32

/-- `enqueue`; there is no result when `rear` is dereferenced as `NULL`. -/
def enqueue (q : Queue) (next : NextMap) (node : QNode) : Option (Queue × NextMap) :=
  let next := Function.update next node none
  match q.front with
  | some _ => q.rear.map fun rear =>
      (⟨q.incSize,q.front,some node⟩,Function.update next rear (some node))
  | none => some (⟨q.incSize,some node,some node⟩,next)

/-- `dequeue`; `node->next` is cleared before `front` is advanced along it. -/
def dequeue (q : Queue) (next : NextMap) : Option (Option QNode × Queue × NextMap) :=
  if q.size = 0 then some (none,q,next)
  else q.front.map fun node =>
    let next := Function.update next node none
    (some node,⟨q.size-1,next node,if q.front = q.rear then none else q.rear⟩,next)

/-- `enqueue_front`. -/
def enqueueFront (q : Queue) (next : NextMap) (node : QNode) : Queue × NextMap :=
  (⟨q.incSize,some node,if q.rear = none then some node else q.rear⟩,Function.update next node q.front)

/-- `merge_queue`: `queue1` is hung behind `queue2` and becomes empty. -/
def mergeQueue (queue2 queue1 : Queue) (next : NextMap) : Option (Queue × Queue × NextMap) :=
  match queue1.front with
  | none => some (queue2,queue1,next)
  | some _ => queue2.rear.map fun rear =>
      (⟨(queue2.size + queue1.size) % 2^32,queue2.front,queue1.rear⟩,init,
        Function.update next rear queue1.front)

/-- The queue is the list: reachable from `front` in order, `rear` the last, `size` their number. -/
structure Holds (next : NextMap) (q : Queue) (l : List QNode) : Prop where
  chain : Leads next q.front l
  rear : q.rear = l.getLast?
  size : q.size = l.length
  nodup : l.Nodup

theorem holds_init (next : NextMap) : Holds next init [] := ⟨rfl,rfl,rfl,List.nodup_nil⟩

theorem Holds.congr {next' : NextMap} (h : Holds next q l) (heq : ∀ a ∈ l, next' a = next a) :
    Holds next' q l := ⟨h.chain.congr heq,h.rear,h.size,h.nodup⟩

/-- Different nodes have different addresses, so a queue never has `2^32` of them. -/
theorem length_lt_of_nodup (h : l.Nodup) : l.length < 2^32 := by
  have hinj : Function.Injective fun p : QNode => p.val.toNat := fun p p' he =>
    Subtype.ext (BitVec.eq_of_toNat_eq he)
  have hzero : 0 ∉ l.map fun p : QNode => p.val.toNat := by
    intro hmem
    obtain ⟨p,-,hp⟩ := List.mem_map.mp hmem
    exact p.property (BitVec.eq_of_toNat_eq hp)
  have hnodup : (0 :: l.map fun p : QNode => p.val.toNat).Nodup :=
    List.nodup_cons.mpr ⟨hzero,h.map hinj⟩
  have hlen := length_le_of_nodup (n := 2^32) hnodup (by
    intro n hn
    rcases List.mem_cons.mp hn with rfl | hn
    · exact Nat.two_pow_pos 32
    · obtain ⟨p,-,rfl⟩ := List.mem_map.mp hn
      exact p.val.isLt)
  rwa [List.length_cons,List.length_map] at hlen

theorem Holds.incSize {l' : List QNode} (h : Holds next q l) (hnodup : l'.Nodup)
    (hlen : l'.length = l.length + 1) : q.incSize = l'.length := by
  rw [Queue.incSize,h.size,← hlen]
  exact Nat.mod_eq_of_lt (length_lt_of_nodup hnodup)

theorem nodup_concat (h : Holds next q l) (hx : x ∉ l) : (l ++ [x]).Nodup := by
  rw [← List.concat_eq_append]
  exact h.nodup.concat hx

/-- An enqueue appends the node and writes to its pointer and that of the old rear. -/
theorem Holds.enqueue (h : Holds next q l) (hx : x ∉ l) :
    ∃ q' next', q.enqueue next x = some (q',next') ∧ Holds next' q' (l ++ [x]) ∧
      ∀ y, y ∉ l → y ≠ x → next' y = next y := by
  have hnodup := nodup_concat h hx
  have hsize := h.incSize hnodup (by simp)
  rcases List.eq_nil_or_concat l with rfl | ⟨l,z,rfl⟩
  · have hfront : q.front = none := h.chain
    refine ⟨_,_,by rw [Queue.enqueue,hfront],⟨?_,rfl,hsize,hnodup⟩,?_⟩
    · exact ⟨rfl,Function.update_self ..⟩
    · intro y _ hy
      exact Function.update_of_ne hy ..
  · rw [List.concat_eq_append] at *
    have hrear : q.rear = some z := h.rear.trans (by simp)
    obtain ⟨a,hfront⟩ : ∃ a, q.front = some a := by
      rw [h.chain.head?]
      cases l <;> simp
    have hchain := (h.chain.update hx none).concat h.nodup (Function.update_self ..) hx
    refine ⟨_,_,by rw [Queue.enqueue,hfront,hrear]; rfl,⟨?_,by simp,hsize,hnodup⟩,?_⟩
    · rw [← hfront]
      exact hchain
    · intro y hy hyx
      have hyz : y ≠ z := by
        rintro rfl
        exact hy (List.mem_append_right l (List.mem_singleton_self y))
      rw [Function.update_of_ne hyz,Function.update_of_ne hyx]

theorem Holds.enqueueFront (h : Holds next q l) (hx : x ∉ l) :
    Holds (q.enqueueFront next x).2 (q.enqueueFront next x).1 (x :: l) := by
  have hnodup : (x :: l).Nodup := List.nodup_cons.mpr ⟨hx,h.nodup⟩
  constructor
  case chain =>
    apply And.intro rfl
    show Leads (Function.update next x q.front) (Function.update next x q.front x) l
    rw [Function.update_self]
    exact h.chain.update hx _
  case rear =>
    show (if q.rear = none then some x else q.rear) = _
    rw [h.rear,List.getLast?_cons]
    cases l.getLast? <;> rfl
  case size => exact h.incSize hnodup rfl
  case nodup => exact hnodup

theorem Holds.dequeue_nil (h : Holds next q []) : q.dequeue next = some (none,q,next) := if_pos h.size

/-- The only node leaves, and the queue is empty again. -/
theorem Holds.dequeue_single (h : Holds next q [x]) :
    q.dequeue next = some (some x,init,Function.update next x none) := by
  have hfront : q.front = some x := h.chain.1
  have hrear : q.rear = some x := h.rear
  have hsize : q.size = 1 := h.size
  rw [dequeue,if_neg (by rw [hsize]; decide),hfront,hrear,hsize]
  simp [init]

/-- After a merge `queue2` is both queues, one behind the other, and `queue1` is empty. -/
def Merges (queue2 queue1 : Queue) (next : NextMap) (l : List QNode) : Prop :=
  ∃ q₂ q₁ next', queue2.mergeQueue queue1 next = some (q₂,q₁,next') ∧ Holds next' q₂ l ∧ Holds next' q₁ []

section Merge

variable {queue1 queue2 : Queue} {l₁ l₂ : List QNode}

/-- An empty `queue1` is left as it is. -/
theorem merges_of_nil (h₂ : Holds next queue2 l₂) (h₁ : Holds next queue1 []) :
    Merges queue2 queue1 next (l₂ ++ []) := by
  have hfront : queue1.front = none := h₁.chain
  rw [List.append_nil]
  exact ⟨queue2,queue1,next,by rw [mergeQueue,hfront],h₂,h₁⟩

/-- The last node of `queue2` is given the first one of `queue1` as its next. -/
theorem merges_of_concat {z : QNode} (h₂ : Holds next queue2 (l₂ ++ [z])) (h₁ : Holds next queue1 (x :: l₁))
    (hnodup : (l₂ ++ [z] ++ x :: l₁).Nodup) : Merges queue2 queue1 next (l₂ ++ [z] ++ x :: l₁) := by
  have hfront : queue1.front = some x := h₁.chain.1
  have hrear : queue2.rear = some z := h₂.rear.trans List.getLast?_concat
  have hz : z ∉ x :: l₁ := by
    intro hmem
    exact (List.nodup_append.mp hnodup).2.2 z (List.mem_append_right l₂ (List.mem_singleton_self z)) z hmem rfl
  refine ⟨_,init,_,by rw [mergeQueue,hfront,hrear]; rfl,?_,holds_init _⟩
  constructor
  case chain =>
    rw [← hfront]
    exact h₂.chain.append h₂.nodup h₁.chain hz
  case rear =>
    show queue1.rear = _
    rw [h₁.rear,List.getLast?_append_of_ne_nil _ (List.cons_ne_nil x l₁)]
  case size =>
    show (queue2.size + queue1.size) % 2^32 = _
    rw [h₂.size,h₁.size,← List.length_append]
    exact Nat.mod_eq_of_lt (length_lt_of_nodup hnodup)
  case nodup => exact hnodup

/-- Nothing is merged into an empty queue: its `rear` is dereferenced. -/
theorem mergeQueue_nil (h₂ : Holds next queue2 []) (h₁ : Holds next queue1 (x :: l₁)) :
    queue2.mergeQueue queue1 next = none := by
  have hfront : queue1.front = some x := h₁.chain.1
  have hrear : queue2.rear = none := h₂.rear
  rw [mergeQueue,hfront,hrear]
  rfl

end Merge

end Queue

/-- `merge_queue` appends exactly if `queue2` has a node or `queue1` has none. -/
theorem merge_queue_appends_iff {next : NextMap} {queue2 queue1 : Queue} {l₂ l₁ : List QNode}
    (h₂ : Queue.Holds next queue2 l₂) (h₁ : Queue.Holds next queue1 l₁) (hdisj : ∀ x ∈ l₂, x ∉ l₁) :
    Queue.Merges queue2 queue1 next (l₂ ++ l₁) ↔ l₂ ≠ [] ∨ l₁ = [] := by
  cases l₁ with
  | nil => exact iff_of_true (Queue.merges_of_nil h₂ h₁) (Or.inr rfl)
  | cons x l₁ =>
    rcases List.eq_nil_or_concat l₂ with rfl | ⟨l₂,z,rfl⟩
    · apply iff_of_false
      · rintro ⟨q₂,q₁,next',hmerge,-,-⟩
        rw [Queue.mergeQueue_nil h₂ h₁] at hmerge
        cases hmerge
      · rintro (h | h)
        · exact h rfl
        · cases h
    · rw [List.concat_eq_append] at *
      apply iff_of_true
      · apply Queue.merges_of_concat h₂ h₁
        rw [List.nodup_append]
        refine ⟨h₂.nodup,h₁.nodup,?_⟩
        rintro a ha b hb rfl
        exact hdisj a ha hb
      · exact Or.inl (by simp)

/-- Two nodes. -/
def nodeA : QNode := ⟨8,by decide⟩
def nodeB : QNode := ⟨16,by decide⟩

theorem holds_alone (x : QNode) : Queue.Holds (fun _ => none) ⟨1,some x,some x⟩ [x] :=
  ⟨⟨rfl,rfl⟩,rfl,rfl,List.nodup_singleton x⟩

theorem merge_queue_appends_two :
    Queue.Merges ⟨1,some nodeA,some nodeA⟩ ⟨1,some nodeB,some nodeB⟩ (fun _ => none) [nodeA,nodeB] := by
  have hdisj : ∀ x ∈ [nodeA], x ∉ [nodeB] := by
    intro x hx
    rw [List.mem_singleton.mp hx,List.mem_singleton]
    decide
  exact (merge_queue_appends_iff (holds_alone nodeA) (holds_alone nodeB) hdisj).mpr (Or.inl (by simp))

/-- A queue with one node cannot be merged into an empty one. -/
theorem merge_queue_into_empty : Queue.Holds (fun _ => none) Queue.init [] ∧
    Queue.Holds (fun _ => none) ⟨1,some nodeB,some nodeB⟩ [nodeB] ∧
    Queue.mergeQueue Queue.init ⟨1,some nodeB,some nodeB⟩ (fun _ => none) = none :=
  ⟨Queue.holds_init _,holds_alone nodeB,rfl⟩

section Family

variable {κ : Type} [DecidableEq κ]

/-- Queues over one set of nodes. -/
structure Queues (κ : Type) where
  queue : κ → Queue
  next : NextMap

namespace Queues

def init (next : NextMap) : Queues κ := ⟨fun _ => Queue.init,next⟩

def set (c : Queues κ) (k : κ) (q : Queue) (next : NextMap) : Queues κ :=
  ⟨Function.update c.queue k q,next⟩

/-- One call on one of the queues, with what `dequeue` returns. -/
def step (c : Queues κ) : DequeOp κ QNode → Option (Queues κ × Option QNode)
  | .enqueue k node => ((c.queue k).enqueue c.next node).map fun r => (c.set k r.1 r.2,none)
  | .enqueueFront k node =>
    let r := (c.queue k).enqueueFront c.next node
    some (c.set k r.1 r.2,none)
  | .dequeue k => ((c.queue k).dequeue c.next).map fun r => (c.set k r.2.1 r.2.2,r.1)

/-- Every queue is its list, and no node is in two of them. -/
structure Represents (c : Queues κ) (a : κ → List QNode) : Prop where
  holds : ∀ k, Queue.Holds c.next (c.queue k) (a k)
  apart : Disjointed a

variable {c : Queues κ} {a : κ → List QNode} {k : κ}

omit [DecidableEq κ] in
theorem represents_init (next : NextMap) : (init next : Queues κ).Represents fun _ => [] :=
  ⟨fun _ => Queue.holds_init next,disjointed_nil⟩

/-- One queue changes, and with it only pointers of nodes in no other queue. -/
theorem Represents.set (h : c.Represents a) {q : Queue} {next : NextMap} {l : List QNode}
    (hq : Queue.Holds next q l) (hsub : ∀ x ∈ l, x ∈ a k ∨ ∀ k', x ∉ a k')
    (hnext : ∀ x, x ∉ a k → (∃ k', x ∈ a k') → next x = c.next x) :
    (c.set k q next).Represents (Function.update a k l) := by
  refine ⟨?_,h.apart.update hsub⟩
  intro k'
  show Queue.Holds next (Function.update c.queue k q k') (Function.update a k l k')
  by_cases hk : k' = k
  · rw [hk,Function.update_self,Function.update_self]
    exact hq
  · rw [Function.update_of_ne hk,Function.update_of_ne hk]
    apply (h.holds k').congr
    intro x hx
    exact hnext x (fun hxk => hk (h.apart k' k x hx hxk)) ⟨k',hx⟩

end Queues

/-- A dequeue finds at most one element. -/
def shortDequeue (a : κ → List QNode) : DequeOp κ QNode → Prop
  | .dequeue k => (a k).length ≤ 1
  | _ => True

namespace Queues

variable {c : Queues κ} {a : κ → List QNode}

private theorem Represents.step_dequeue (h : c.Represents a) {k : κ} (hshort : (a k).length ≤ 1) :
    ∃ c', c.step (.dequeue k) = some (c',(a k).head?) ∧
      c'.Represents (Function.update a k (a k).tail) := by
  cases hk : a k with
  | nil =>
    have hq := hk ▸ h.holds k
    apply Exists.intro (c.set k (c.queue k) c.next)
    constructor
    · rw [step,hq.dequeue_nil]
      rfl
    · rw [Queues.set,Function.update_eq_self,List.tail_nil,← hk,Function.update_eq_self]
      exact h
  | cons x l =>
    obtain rfl : l = [] := by
      rw [hk,List.length_cons] at hshort
      exact List.eq_nil_of_length_eq_zero (by omega)
    have hq := hk ▸ h.holds k
    apply Exists.intro (c.set k Queue.init (Function.update c.next x none))
    constructor
    · rw [step,hq.dequeue_single]
      rfl
    · apply h.set (Queue.holds_init _)
      · intro y hy
        cases hy
      · intro y hy _
        have hyx : y ≠ x := by
          rintro rfl
          exact hy (hk ▸ List.mem_cons_self)
        exact Function.update_of_ne hyx ..

theorem step_refines (h : c.Represents a) {op : DequeOp κ QNode} (hfree : dequeFree a op)
    (hshort : shortDequeue a op) :
    ∃ c' a' o, c.step op = some (c',o) ∧ dequeStep a op = some (a',o) ∧ c'.Represents a' := by
  cases op with
  | enqueue k x =>
    obtain ⟨q,next,henqueue,hq,hframe⟩ := (h.holds k).enqueue (hfree k)
    refine ⟨c.set k q next,_,none,by rw [step,henqueue]; rfl,rfl,h.set hq ?_ ?_⟩
    · intro y hy
      rcases List.mem_append.mp hy with hy | hy
      · exact Or.inl hy
      · exact Or.inr (List.mem_singleton.mp hy ▸ hfree)
    · intro y hy hin
      obtain ⟨k',hk'⟩ := hin
      exact hframe y hy (ne_of_mem_of_not_mem hk' (hfree k'))
  | enqueueFront k x =>
    refine ⟨_,_,none,rfl,rfl,h.set ((h.holds k).enqueueFront (hfree k)) ?_ ?_⟩
    · intro y hy
      rcases List.mem_cons.mp hy with hy | hy
      · exact Or.inr (hy ▸ hfree)
      · exact Or.inl hy
    · intro y _ hin
      obtain ⟨k',hk'⟩ := hin
      exact Function.update_of_ne (ne_of_mem_of_not_mem hk' (hfree k')) ..
  | dequeue k =>
    obtain ⟨c',hstep,hrep⟩ := h.step_dequeue hshort
    exact ⟨c',_,_,hstep,rfl,hrep⟩

end Queues

/-- Queues give the results of deques, and are the deques afterwards, for all calls in which a node is
enqueued only when it is in no queue and a dequeue finds at most one element. -/
theorem queues_refine_deques (next : NextMap) (ops : List (DequeOp κ QNode))
    (hops : Admits dequeStep (fun a op => dequeFree a op ∧ shortDequeue a op) (fun _ => []) ops) :
    ∃ c a outs, runOps Queues.step (Queues.init next) ops = some (c,outs) ∧
      runOps dequeStep (fun _ => []) ops = some (a,outs) ∧
      ∀ k, Queue.Holds c.next (c.queue k) (a k) := by
  have hstep (c : Queues κ) (a : κ → List QNode) (op : DequeOp κ QNode) (hrep : c.Represents a)
      (hok : dequeFree a op ∧ shortDequeue a op) :
      ∃ c' a' o, c.step op = some (c',o) ∧ dequeStep a op = some (a',o) ∧ c'.Represents a' :=
    Queues.step_refines hrep hok.1 hok.2
  obtain ⟨c,a,outs,hc,ha,hrep⟩ := runOps_refines Queues.Represents hstep (Queues.represents_init next) hops
  exact ⟨c,a,outs,hc,ha,hrep.holds⟩

end Family

/-- Two queues: a node leaves the first and is put in front of another one in the second. -/
theorem queues_refine_deques_two : ∃ c : Queues Bool,
    runOps Queues.step (Queues.init fun _ => none)
      [.enqueue false nodeA,.dequeue false,.enqueue true nodeB,
        .enqueueFront true nodeA,.dequeue false] =
        some (c,[none,some nodeA,none,none,none]) ∧
      Queue.Holds c.next (c.queue true) [nodeA,nodeB] := by
  let ops : List (DequeOp Bool QNode) := [.enqueue false nodeA,.dequeue false,
    .enqueue true nodeB,.enqueueFront true nodeA,.dequeue false]
  have hops : Admits dequeStep (fun a op => dequeFree a op ∧ shortDequeue a op) (fun _ => []) ops := by
    simp [Admits,ops,dequeStep,dequeFree,shortDequeue,nodeA,nodeB]
  obtain ⟨c,a,outs,hc,ha,hholds⟩ := queues_refine_deques (fun _ => none) ops hops
  have houts : some outs = some [none,some nodeA,none,none,none] :=
    congrArg (Option.map Prod.snd) ha.symm
  have hlist : some (a true) = some [nodeA,nodeB] :=
    congrArg (Option.map fun r : (Bool → List QNode) × List (Option QNode) => r.1 true) ha.symm
  exact ⟨c,Option.some.inj houts ▸ hc,Option.some.inj hlist ▸ hholds true⟩

/-- With two elements, `dequeue` returns the first and drops the second: the deque still has it, but
`front` is `NULL` while `size` is 1, and the next `dequeue` dereferences `NULL`. -/
theorem dequeue_drops_the_rest :
    (runOps dequeStep (fun _ : Unit => [])
        [.enqueue () nodeA,.enqueue () nodeB,.dequeue ()]).map (fun r => (r.1 (),r.2)) =
      some ([nodeB],[none,none,some nodeA]) ∧
    (runOps Queues.step (Queues.init fun _ => none)
        [.enqueue () nodeA,.enqueue () nodeB,.dequeue ()]).map
          (fun r => (r.1.queue (),r.2)) =
      some (⟨1,none,some nodeB⟩,[none,none,some nodeA]) ∧
    (runOps Queues.step (Queues.init fun _ => none)
        [.enqueue () nodeA,.enqueue () nodeB,.dequeue (),.dequeue ()]).isNone = true := by
  decide +kernel

end Sdssd.Fw
