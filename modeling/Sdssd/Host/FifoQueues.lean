import Sdssd.Framework.QueueArray
import Sdssd.Host.WriteCache

/-!
# The FIFOs of LUN entities and of raid blocks

Any number of `fsc_fifo` lists over the entities of the write cache, or over the blocks of `bmitbl`,
behave like queues.
-/

namespace Sdssd.Host

open Framework

section

variable {κ : Type} [DecidableEq κ] {c : FifoArray κ} {a : κ → List Nat}

/-- `push_lun_entity_to_fifo` and `pull_lun_entity_from_fifo` on one of the lists. -/
def lunFifoStep (c : FifoArray κ) : QueueOp κ → Option (FifoArray κ × Option Nat)
  | .push k e =>
    let r := pushLunEntityToFifo (c.fifos k) c.link e
    some (c.set k r.1 r.2,none)
  | .pull k => match pullLunEntityFromFifo (c.fifos k) c.link with
    | none => some (c,none)
    | some (e,q,ln) => some (c.set k q ln,some e)

/-- The tables with list `k` in the place of the pool. -/
def poolTbl (bmitbl : Nat → BmiItem) (c : FifoArray κ) (k : κ) : SysTbl := ⟨c.fifos k,bmitbl,c.link⟩

/-- `push_blk_to_pool` and `pull_blk_from_pool` on one of the lists; a `BUG_ON` has no result. -/
def blkPoolStep (bmitbl : Nat → BmiItem) (c : FifoArray κ) :
    QueueOp κ → Option (FifoArray κ × Option Nat)
  | .push k blk => (pushBlkToPool (poolTbl bmitbl c k) blk).toOption.map fun t =>
      (c.set k t.freeBlkPool t.link,none)
  | .pull k => (pullBlkFromPool (poolTbl bmitbl c k)).toOption.map fun r =>
      (c.set k r.2.freeBlkPool r.2.link,if r.1 = 0xffff then none else some r.1)

/-- An operation on an entry of `bmitbl`. -/
def inBmitbl : QueueOp κ → Prop
  | .push _ blk => blk < cfgNandBlockNum
  | .pull _ => True

theorem lunFifoStep_refines (h : c.Represents a) {op : QueueOp κ} (hop : queueFree a op) :
    ∃ c' a' o, lunFifoStep c op = some (c',o) ∧ queueStep a op = some (a',o) ∧ c'.Represents a' ∧
      c.Keeps c' a op.queue := by
  cases op with
  | push k e =>
    obtain ⟨hrep,hkeep⟩ := h.push hop.1 hop.2 k
    exact ⟨_,_,none,rfl,rfl,hrep,hkeep⟩
  | pull k =>
    cases hk : a k with
    | nil =>
      refine ⟨c,a,none,?_,?_,h,fun _ _ => ⟨rfl,fun _ _ => rfl⟩⟩
      · rw [lunFifoStep,pullLunEntityFromFifo,h.pull_nil hk]
      · rw [queueStep,hk,List.tail_nil,← hk,Function.update_eq_self,hk]
        rfl
    | cons e l =>
      obtain ⟨q,ln,hpull,hrep,hkeep⟩ := h.pull_cons hk
      refine ⟨c.set k q ln,Function.update a k l,some e,?_,?_,hrep,hkeep⟩
      · rw [lunFifoStep,pullLunEntityFromFifo,hpull]
      · rw [queueStep,hk]
        rfl

/-- The lists represent the queues, and their members are entries of `bmitbl`. -/
structure Pools (c : FifoArray κ) (a : κ → List Nat) : Prop where
  rep : c.Represents a
  lt : ∀ k, ∀ blk ∈ a k, blk < cfgNandBlockNum

omit [DecidableEq κ] in
theorem Pools.tail_lt (h : Pools c a) {k : κ} (htail : (c.fifos k).tail ≠ 0xffff) :
    (c.fifos k).tail < cfgNandBlockNum := by
  exact h.lt k _ ((h.rep.linked k).tail_mem htail)

omit [DecidableEq κ] in
theorem Pools.prev_lt (h : Pools c a) {k : κ} {blk : Nat} {l : List Nat} (hk : a k = blk :: l)
    (hone : (c.fifos k).head ≠ (c.fifos k).tail) : (c.link blk).prev < cfgNandBlockNum := by
  have hlinked := hk ▸ h.rep.linked k
  exact h.lt k _ (hk ▸ List.mem_cons_of_mem blk (hlinked.prev_mem hone))

theorem blkPoolStep_refines (bmitbl : Nat → BmiItem) (h : Pools c a) {op : QueueOp κ}
    (hop : queueFree a op) (hin : inBmitbl op) :
    ∃ c' a' o, blkPoolStep bmitbl c op = some (c',o) ∧ queueStep a op = some (a',o) ∧ Pools c' a' ∧
      c.Keeps c' a op.queue := by
  cases op with
  | push k blk =>
    have hpush := pushBlkToPool_eq (t := poolTbl bmitbl c k) hin h.tail_lt
    obtain ⟨hrep,hkeep⟩ := h.rep.push hop.1 hop.2 k
    have hlt := queueStep_forall h.lt (fun _ _ he => by cases he; exact hin)
      (rfl : queueStep a (.push k blk) = _)
    exact ⟨_,_,none,by rw [blkPoolStep,hpush]; rfl,rfl,⟨hrep,hlt⟩,hkeep⟩
  | pull k =>
    cases hk : a k with
    | nil =>
      have hpull : pullBlkFromPool (poolTbl bmitbl c k) = .ok (0xffff,poolTbl bmitbl c k) := by
        rw [pullBlkFromPool,poolTbl,h.rep.pull_nil hk]
      refine ⟨c,a,none,?_,?_,h,fun _ _ => ⟨rfl,fun _ _ => rfl⟩⟩
      · rw [blkPoolStep,hpull]
        show some (c.set k (c.fifos k) c.link,_) = _
        rw [FifoArray.set,Function.update_eq_self]
        rfl
      · rw [queueStep,hk,List.tail_nil,← hk,Function.update_eq_self,hk]
        rfl
    | cons blk l =>
      obtain ⟨q,ln,hpull,hrep,hkeep⟩ := h.rep.pull_cons hk
      have hblk : blk < cfgNandBlockNum := h.lt k blk (hk ▸ List.mem_cons_self)
      have hblkPull := pullBlkFromPool_eq (t := poolTbl bmitbl c k) hpull hblk (h.prev_lt hk)
      have hne : blk ≠ 0xffff := by
        simp only [cfgNandBlockNum_eq] at hblk
        omega
      have hspec : queueStep a (.pull k) = some (Function.update a k l,some blk) := by
        rw [queueStep,hk]
        rfl
      have hlt := queueStep_forall h.lt (fun _ _ he => by cases he) hspec
      refine ⟨c.set k q ln,Function.update a k l,some blk,?_,hspec,⟨hrep,hlt⟩,hkeep⟩
      rw [blkPoolStep,hblkPull]
      show some (c.set k q ln,_) = _
      rw [if_neg hne]

/-- Size and both walks show the queues. -/
def FifosShow (c : FifoArray κ) (a : κ → List Nat) : Prop :=
  ∀ k, (c.fifos k).size = (a k).length ∧ ∀ n, (a k).length ≤ n →
    Fifo.follow (fun i => (c.link i).prev) n (c.fifos k).head = a k ∧
      Fifo.follow (fun i => (c.link i).next) n (c.fifos k).tail = (a k).reverse

omit [DecidableEq κ] in
theorem fifosShow_of_represents (h : c.Represents a) : FifosShow c a := by
  intro k
  refine ⟨(h.linked k).size,?_⟩
  intro n hn
  exact ⟨(h.linked k).follow_prev hn,(h.linked k).follow_next hn⟩

/-- Lists over the LUN entities, and lists over the blocks of `bmitbl`, give the results of queues for
all pushes and pulls in which an entry is pushed only when it is in no list. Afterwards sizes and walks
show the queues, and one more operation leaves the other lists alone. -/
theorem fifos_refine_queues (ln : Nat → Link) (bmitbl : Nat → BmiItem) (ops : List (QueueOp κ))
    (hops : Admits queueStep queueFree (fun _ => []) ops) :
    ∃ a outs, runOps queueStep (fun _ => []) ops = some (a,outs) ∧
      (∃ c, runOps lunFifoStep ⟨fun _ => Fifo.init,ln⟩ ops = some (c,outs) ∧ FifosShow c a ∧
        ∀ op, queueFree a op → ∃ c' o, lunFifoStep c op = some (c',o) ∧ c.Keeps c' a op.queue) ∧
      ((∀ op ∈ ops, inBmitbl op) → ∃ c,
        runOps (blkPoolStep bmitbl) ⟨fun _ => Fifo.init,ln⟩ ops = some (c,outs) ∧ FifosShow c a ∧
        ∀ op, queueFree a op → inBmitbl op →
          ∃ c' o, blkPoolStep bmitbl c op = some (c',o) ∧ c.Keeps c' a op.queue) := by
  have hinit := FifoArray.represents_init (κ := κ) ln
  obtain ⟨c,a,outs,hc,ha,hrep⟩ := runOps_refines FifoArray.Represents
    (fun c a op hR hok => by
      obtain ⟨c',a',o,hc',ha',hR',-⟩ := lunFifoStep_refines hR hok
      exact ⟨c',a',o,hc',ha',hR'⟩) hinit hops
  refine ⟨a,outs,ha,⟨c,hc,fifosShow_of_represents hrep,?_⟩,?_⟩
  · intro op hop
    obtain ⟨c',a',o,hc',-,-,hkeep⟩ := lunFifoStep_refines hrep hop
    exact ⟨c',o,hc',hkeep⟩
  · intro hin
    have hops' : Admits queueStep (fun a op => queueFree a op ∧ inBmitbl op) (fun _ => []) ops :=
      hops.mono fun _ op hmem hfree => ⟨hfree,hin op hmem⟩
    obtain ⟨d,a',outs',hd,ha',hpools⟩ := runOps_refines Pools
      (fun c a op hR hok => by
        obtain ⟨c',a',o,hc',ha',hR',-⟩ := blkPoolStep_refines bmitbl hR hok.1 hok.2
        exact ⟨c',a',o,hc',ha',hR'⟩) ⟨hinit,fun _ _ hb => by cases hb⟩ hops'
    rw [ha,Option.some.injEq,Prod.mk.injEq] at ha'
    obtain ⟨rfl,rfl⟩ := ha'
    refine ⟨d,hd,fifosShow_of_represents hpools.rep,?_⟩
    intro op hop hblk
    obtain ⟨c',a',o,hc',-,-,hkeep⟩ := blkPoolStep_refines bmitbl hpools hop hblk
    exact ⟨c',o,hc',hkeep⟩

end

/-- Two lists: entry 3 leaves the first and enters the second behind entry 7. -/
theorem fifos_refine_queues_two : ∃ c : FifoArray Bool,
    runOps lunFifoStep ⟨fun _ => Fifo.init,fun _ => ⟨0,0⟩⟩
      [.push false 3,.push true 7,.push false 5,.pull false,.push true 3,.pull true,.pull true,
        .pull true] =
        some (c,[none,none,none,some 3,none,some 7,some 3,none]) ∧
      (c.fifos false).size = 1 ∧ (c.fifos true).size = 0 := by
  let ops : List (QueueOp Bool) := [.push false 3,.push true 7,.push false 5,.pull false,
    .push true 3,.pull true,.pull true,.pull true]
  have hops : Admits queueStep queueFree (fun _ => []) ops := by
    simp [Admits,ops,queueStep,queueFree,noIndex]
  obtain ⟨a,outs,ha,⟨c,hc,hshow,-⟩,-⟩ := fifos_refine_queues (fun _ => ⟨0,0⟩)
    (fun _ => ⟨fun _ => 0,.free⟩) ops hops
  have houts : some outs = some [none,none,none,some 3,none,some 7,some 3,none] :=
    congrArg (Option.map Prod.snd) ha.symm
  have hlists : some (a false,a true) = some ([5],[]) :=
    congrArg (Option.map fun r : (Bool → List Nat) × List (Option Nat) => (r.1 false,r.1 true)) ha.symm
  rw [Option.some.injEq,Prod.mk.injEq] at hlists
  refine ⟨c,Option.some.inj houts ▸ hc,?_,?_⟩
  · rw [(hshow false).1,hlists.1]
    rfl
  · rw [(hshow true).1,hlists.2]
    rfl

end Sdssd.Host
