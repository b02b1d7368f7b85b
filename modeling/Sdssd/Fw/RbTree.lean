import Mathlib.Data.Int.Order.Basic
import Sdssd.Framework.ListFamily
import Sdssd.Framework.PointerTree

/-!
# Red-black tree

`lib/rb-tree.c` over the macros of `include/rb-tree.h`. Nodes are linked to both children and to
their parent; an insert hangs a new red node under the end of its search path and then repairs the
colours. `rb_is_red` masks the colour with `RB_RED`, which is 0.
-/

namespace Sdssd.Fw

open Framework

def rbRed : Nat := 0
def rbBlack : Nat := 1

/-- `rb_node_t`; nodes are named by the order of their allocation. -/
structure RbNode where
  key : Int
  color : Nat
  parent : Option Nat
  left : Option Nat
  right : Option Nat
  deriving DecidableEq

def RbNode.links (n : RbNode) : TreeLinks Nat := ⟨n.parent,n.left,n.right⟩

/-- The heap of nodes with the `rb_node` of `rb_root_t`. -/
structure RbTree where
  node : Nat → RbNode
  root : Option Nat
  next : Nat

namespace RbTree

/-- No node; what an unallocated one holds is never read. -/
def empty : RbTree := ⟨fun _ => ⟨0,rbRed,none,none,none⟩,none,0⟩

def modify (s : RbTree) (a : Nat) (f : RbNode → RbNode) : RbTree :=
  { s with node := Function.update s.node a (f (s.node a)) }

/-- `rb_is_red`. -/
def isRed (s : RbTree) (a : Nat) : Bool := (s.node a).color &&& rbRed ≠ 0

/-- `rb_set_red` and `rb_set_black`. -/
def setColor (s : RbTree) (a color : Nat) : RbTree := s.modify a fun n => { n with color := color }

/-- `rb_set_parent`; there is no result when the node is `NULL`. -/
def setParent (s : RbTree) (node : Option Nat) (p : Nat) : Option RbTree :=
  node.map fun c => s.modify c fun n => { n with parent := some p }

/-- `rb_set_left`. -/
def setLeft (s : RbTree) (node : Nat) (child : Option Nat) : Option RbTree :=
  (s.modify node fun n => { n with left := child }).setParent child node

/-- `rb_set_right`. -/
def setRight (s : RbTree) (node : Nat) (child : Option Nat) : Option RbTree :=
  (s.modify node fun n => { n with right := child }).setParent child node

/-- `_left_rotate`. -/
def leftRotate (s : RbTree) (node : Nat) : Option RbTree := do
  let right ← (s.node node).right
  let parent := (s.node node).parent
  let s ← s.setRight node (s.node right).left
  let s ← s.setLeft right (some node)
  match parent with
  -- the source has the parent as the child here
  | some p => if (s.node p).left = some node then s.setLeft right (some p) else s.setRight right (some p)
  | none => some { s with root := some right }

/-- `_right_rotate`; a new root is not stored. -/
def rightRotate (s : RbTree) (node : Nat) : Option RbTree := do
  let left ← (s.node node).left
  let parent := (s.node node).parent
  let s ← s.setLeft node (s.node left).right
  let s ← s.setRight left (some node)
  match parent with
  | some p => if (s.node p).left = some node then s.setLeft p (some left) else s.setRight p (some left)
  | none => some s

/-- The two mirrored halves of `rb_rebalance`, by the side of the grandparent the parent is on. -/
inductive Side where
  | left
  | right
  deriving DecidableEq

def Side.other : Side → Side
  | .left => .right
  | .right => .left

def Side.child : Side → RbNode → Option Nat
  | .left, n => n.left
  | .right, n => n.right

def rotate (s : RbTree) : Side → Nat → Option RbTree
  | .left => s.leftRotate
  | .right => s.rightRotate

/-- One pass of the loop of `rb_rebalance`: the new tree and the next node to look at. -/
def rebalancePass (s : RbTree) (side : Side) (node parent gParent : Nat) : Option (RbTree × Nat) :=
  match (side.other.child (s.node gParent)).filter fun uncle => s.isRed uncle with
  | some uncle =>
      some (((s.setColor parent rbBlack).setColor uncle rbBlack).setColor gParent rbRed,gParent)
  | none => do
      -- an inner child is rotated to the outside first
      let (s,node,parent) ← if side.other.child (s.node parent) = some node
        then (s.rotate side parent).map fun s => (s,parent,node) else some (s,node,parent)
      let s ← ((s.setColor parent rbBlack).setColor gParent rbRed).rotate side.other gParent
      some (s,node)

/-- `rb_rebalance`; the loop climbs, so a pass for each node is enough. -/
def rbRebalance : Nat → RbTree → Nat → Option RbTree
  | 0, _, _ => none
  | fuel+1, s, node =>
    match (s.node node).parent with
    | none => some s
    | some parent =>
      if s.isRed parent then do
        let gParent ← (s.node parent).parent
        let side := if (s.node gParent).left = some parent then .left else .right
        let (s,node) ← s.rebalancePass side node parent gParent
        rbRebalance fuel s node
      else some s

/-- The loop of `rb_add_node`: `temp_parent` when `temp` has become `NULL`. -/
def descend (s : RbTree) (key : Int) : Nat → Option Nat → Option Nat → Option (Option Nat)
  | _, none, tempParent => some tempParent
  | 0, some _, _ => none
  | fuel+1, some temp, _ =>
    s.descend key fuel (if key < (s.node temp).key then (s.node temp).left else (s.node temp).right)
      (some temp)

/-- `rb_add_node`. -/
def rbAddNode (s : RbTree) (node : Nat) : Option RbTree := do
  match ← s.descend (s.node node).key s.next s.root none with
  | some tempParent =>
      if (s.node node).key < (s.node tempParent).key then s.setLeft tempParent (some node)
      else s.setRight tempParent (some node)
  | none => some { s with root := some node }

/-- `RBTree_NewNode`. -/
def newNode (s : RbTree) (key : Int) : RbTree :=
  { s with node := Function.update s.node s.next ⟨key,rbRed,none,none,none⟩, next := s.next+1 }

/-- `rb_insert_node` with `__rb_insert_node`. -/
def rbInsertNode (s : RbTree) (key : Int) : Option RbTree := do
  let s' ← (s.newNode key).rbAddNode s.next
  rbRebalance s'.next s' s.next

variable {s : RbTree} {t : BinaryTree Nat} {keys : List Int}

def key (s : RbTree) (a : Nat) : Int := (s.node a).key

def color (s : RbTree) (a : Nat) : Nat := (s.node a).color

def links (s : RbTree) (a : Nat) : TreeLinks Nat := (s.node a).links

/-- The test for red never succeeds. -/
theorem isRed_eq_false (s : RbTree) (a : Nat) : s.isRed a = false := by
  rw [isRed,rbRed,Nat.and_zero]
  rfl

/-- Hence nothing is ever repaired. -/
theorem rbRebalance_eq (fuel : Nat) (s : RbTree) (node : Nat) :
    rbRebalance (fuel+1) s node = some s := by
  rw [rbRebalance]
  cases (s.node node).parent with
  | none => rfl
  | some parent =>
    dsimp only
    rw [s.isRed_eq_false,if_neg (by decide)]

/-- The search ends at the last node of its path. -/
theorem descend_eq_spot {q p : Option Nat} {fuel : Nat} (k : Int) (h : TreeAt s.links q p t)
    (hfuel : (inorder t).length ≤ fuel) :
    s.descend k fuel p q = some (spot (fun a => k < s.key a) q t) := by
  induction t generalizing q p fuel with
  | nil =>
    cases h
    rw [descend,spot]
  | node a l r ihl ihr =>
    obtain ⟨rfl,-,hl,hr⟩ := h
    rw [inorder,List.length_append,List.length_cons] at hfuel
    cases fuel with
    | zero => omega
    | succ fuel =>
      rw [descend,spot,key]
      by_cases hk : k < (s.node a).key
      · rw [if_pos hk,if_pos (decide_eq_true hk)]
        exact ihl hl (by omega)
      · rw [if_neg hk,if_neg (by simpa using hk)]
        exact ihr hr (by omega)

/-- The end of `rb_add_node`, on either side. -/
def hang (s : RbTree) (goesLeft : Bool) (x b : Nat) : RbTree :=
  (s.modify b fun n => if goesLeft then { n with left := some x } else { n with right := some x }).modify
    x fun n => { n with parent := some b }

theorem node_modify (a b : Nat) (f : RbNode → RbNode) :
    (s.modify a f).node b = if b = a then f (s.node a) else s.node b := by
  exact Function.update_apply ..

theorem links_modify (a : Nat) (f : RbNode → RbNode) :
    (s.modify a f).links = Function.update s.links a (f (s.node a)).links := by
  funext b
  rw [links,node_modify,Function.update_apply]
  split <;> rfl

/-- What a change of one node does not touch, it touches in no node. -/
theorem modify_keeps {β : Type*} (g : RbNode → β) {f : RbNode → RbNode} (hf : ∀ n, g (f n) = g n)
    (a b : Nat) : g ((s.modify a f).node b) = g (s.node b) := by
  rw [node_modify]
  split
  · subst b
    exact hf _
  · rfl

theorem links_hang (goesLeft : Nat → Bool) (x b : Nat) :
    (s.hang (goesLeft b) x b).links = attach goesLeft s.links x b := by
  let f : RbNode → RbNode := fun n =>
    if goesLeft b then { n with left := some x } else { n with right := some x }
  have hb : (s.modify b f).links = Function.update s.links b
      (if goesLeft b then { s.links b with left := some x } else { s.links b with right := some x }) := by
    rw [links_modify]
    cases hg : goesLeft b with
    | true => simp only [f,hg,if_true]; rfl
    | false => simp only [f,hg]; rfl
  rw [hang,links_modify,attach,← hb]
  rfl

/-- Only links change. -/
theorem hang_keeps {β : Type*} (g : RbNode → β)
    (hg : ∀ n p l r, g { n with parent := p, left := l, right := r } = g n) (left : Bool) (x b a : Nat) :
    g ((s.hang left x b).node a) = g (s.node a) := by
  have hparent (n : RbNode) : g { n with parent := some b } = g n := hg n (some b) n.left n.right
  have hchild (n : RbNode) :
      g (if left then { n with left := some x } else { n with right := some x }) = g n := by
    cases left with
    | true => exact hg n n.parent (some x) n.right
    | false => exact hg n n.parent n.left (some x)
  rw [hang,modify_keeps g hparent,modify_keeps g hchild]

theorem key_hang (left : Bool) (x b : Nat) : (s.hang left x b).key = s.key :=
  funext fun a => hang_keeps RbNode.key (fun _ _ _ _ => rfl) left x b a

theorem color_hang (left : Bool) (x b : Nat) : (s.hang left x b).color = s.color :=
  funext fun a => hang_keeps RbNode.color (fun _ _ _ _ => rfl) left x b a

/-- A fresh node is hung where its search ends; keys and colours stay. -/
theorem rbAddNode_spec {x : Nat} (h : TreeAt s.links none s.root t) (hnodup : (inorder t).Nodup)
    (hx : x ∉ inorder t) (hfresh : s.links x = ⟨none,none,none⟩) (hlen : (inorder t).length ≤ s.next) :
    ∃ s', s.rbAddNode x = some s' ∧
      TreeAt s'.links none s'.root (graft (fun a => s.key x < s.key a) x t) ∧
      s'.key = s.key ∧ s'.color = s.color ∧ s'.next = s.next := by
  have hdesc := descend_eq_spot (s.node x).key h hlen
  rw [rbAddNode,hdesc]
  by_cases ht : t = .nil
  · subst t
    refine ⟨{ s with root := some x },rfl,?_,rfl,rfl,rfl⟩
    rw [graft,TreeAt]
    change _ ∧ (s.links x).parent = none ∧ (s.links x).left = none ∧ (s.links x).right = none
    rw [hfresh]
    exact ⟨rfl,rfl,rfl,rfl⟩
  · obtain ⟨b,hb⟩ : ∃ b, spot (fun a => s.key x < s.key a) none t = some b := exists_spot none t fun _ => ht
    have hleaf : (s.links x).left = none ∧ (s.links x).right = none := by
      rw [hfresh]
      exact ⟨rfl,rfl⟩
    refine ⟨s.hang (s.key x < s.key b) x b,?_,?_,key_hang _ x b,color_hang _ x b,rfl⟩
    · change spot (fun a => decide ((s.node x).key < s.key a)) none t = some b at hb
      rw [hb]
      by_cases hk : s.key x < s.key b
      · rw [decide_eq_true hk]
        exact if_pos hk
      · rw [decide_eq_false hk]
        exact if_neg hk
    · rw [links_hang (fun a => s.key x < s.key a)]
      exact h.graft ht hnodup hx hleaf hb

/-- The heap is a search tree for the keys: contents, order and links in both directions. -/
structure SearchTree (s : RbTree) (t : BinaryTree Nat) (keys : List Int) : Prop where
  linked : TreeAt s.links none s.root t
  nodup : (inorder t).Nodup
  ordered : Ordered s.key t
  contents : ((inorder t).map s.key).Perm keys

/-- What inserts keep besides: allocated nodes are never reused and all are red. -/
structure AllRed (s : RbTree) (t : BinaryTree Nat) : Prop where
  allocated : ∀ a ∈ inorder t, a < s.next
  red : ∀ a ∈ inorder t, s.color a = rbRed

theorem newNode_node {a : Nat} (k : Int) (ha : a < s.next) : (s.newNode k).node a = s.node a :=
  Function.update_of_ne (Nat.ne_of_lt ha) ..

theorem newNode_node_next (k : Int) : (s.newNode k).node s.next = ⟨k,rbRed,none,none,none⟩ :=
  Function.update_self ..

/-- An unlinked new node does not disturb the tree. -/
theorem SearchTree.newNode (h : SearchTree s t keys) (hred : AllRed s t) (k : Int) :
    SearchTree (s.newNode k) t keys ∧ ∀ a ∈ inorder t, (s.newNode k).color a = rbRed := by
  have hnode (a : Nat) (ha : a ∈ inorder t) : (s.newNode k).node a = s.node a :=
    newNode_node k (hred.allocated a ha)
  have hkey (a : Nat) (ha : a ∈ inorder t) : (s.newNode k).key a = s.key a := by
    rw [key,hnode a ha,key]
  constructor
  · refine ⟨h.linked.congr ?_,h.nodup,h.ordered.congr hkey,?_⟩
    · intro a ha
      rw [links,hnode a ha,links]
    · rw [List.map_congr_left hkey]
      exact h.contents
  · intro a ha
    rw [color,hnode a ha]
    exact hred.red a ha

/-- One insert. -/
theorem rbInsertNode_spec (h : SearchTree s t keys) (hred : AllRed s t) (k : Int) :
    ∃ s' t', s.rbInsertNode k = some s' ∧ SearchTree s' t' (keys ++ [k]) ∧ AllRed s' t' := by
  obtain ⟨hnew,hcolor⟩ := h.newNode hred k
  have hx : s.next ∉ inorder t := fun hmem => Nat.lt_irrefl _ (hred.allocated _ hmem)
  have hlen : (inorder t).length ≤ s.next + 1 :=
    Nat.le_succ_of_le (length_le_of_nodup h.nodup hred.allocated)
  have hfresh : (s.newNode k).links s.next = ⟨none,none,none⟩ := by
    rw [links,newNode_node_next]
    rfl
  have hk : (s.newNode k).key s.next = k := by rw [key,newNode_node_next]
  obtain ⟨s',hadd,htree,hkey',hcolor',hnext'⟩ := rbAddNode_spec hnew.linked hnew.nodup hx hfresh hlen
  have hperm : (inorder (graft (fun a => (s.newNode k).key s.next < (s.newNode k).key a) s.next t)).Perm
      (s.next :: inorder t) := inorder_graft t
  refine ⟨s',_,?_,⟨htree,?_,?_,?_⟩,?_,?_⟩
  · rw [rbInsertNode,hadd]
    change rbRebalance s'.next s' s.next = some s'
    rw [hnext']
    exact rbRebalance_eq ..
  · exact hperm.nodup_iff.mpr (List.nodup_cons.mpr ⟨hx,h.nodup⟩)
  · rw [hkey']
    exact hnew.ordered.graft
  · rw [hkey']
    apply (hperm.map _).trans
    rw [List.map_cons,hk]
    exact (hnew.contents.cons k).trans (List.perm_append_singleton k keys).symm
  · intro a ha
    rw [hnext']
    rcases List.mem_cons.mp (hperm.subset ha) with rfl | ha
    · exact Nat.lt_succ_self _
    · exact Nat.lt_succ_of_lt (hred.allocated a ha)
  · intro a ha
    rw [hcolor']
    rcases List.mem_cons.mp (hperm.subset ha) with rfl | ha
    · rw [color,newNode_node_next]
    · exact hcolor a ha

/-- Every sequence of `rb_insert_node` calls. -/
def insertAll (s : RbTree) (keys : List Int) : Option RbTree := keys.foldlM rbInsertNode s

theorem insertAll_spec {done : List Int} (h : SearchTree s t done) (hred : AllRed s t)
    (keys : List Int) :
    ∃ s' t', s.insertAll keys = some s' ∧ SearchTree s' t' (done ++ keys) ∧ AllRed s' t' := by
  induction keys generalizing s t done with
  | nil =>
    rw [List.append_nil]
    exact ⟨s,t,rfl,h,hred⟩
  | cons k keys ih =>
    obtain ⟨s₁,t₁,hins,h₁,hred₁⟩ := rbInsertNode_spec h hred k
    obtain ⟨s',t',hall,h',hred'⟩ := ih h₁ hred₁
    rw [List.append_assoc] at h'
    refine ⟨s',t',?_,h',hred'⟩
    rw [insertAll,List.foldlM_cons,hins]
    exact hall

theorem searchTree_empty : SearchTree empty .nil [] :=
  ⟨rfl,List.nodup_nil,trivial,List.Perm.refl _⟩

theorem allRed_empty : AllRed empty .nil :=
  ⟨fun _ ha => absurd ha List.not_mem_nil,fun _ ha => absurd ha List.not_mem_nil⟩

/-- The black nodes on each path from here down to `NULL`. -/
def blackCounts (s : RbTree) : BinaryTree Nat → List Nat
  | .nil => [0]
  | .node a l r =>
      (s.blackCounts l ++ s.blackCounts r).map (· + if s.color a = rbBlack then 1 else 0)

def EqualBlacks (s : RbTree) (t : BinaryTree Nat) : Prop := ∃ n, ∀ c ∈ s.blackCounts t, c = n

def RootBlack (s : RbTree) : Prop := ∀ a, s.root = some a → s.color a = rbBlack

def NoRedRed (s : RbTree) (t : BinaryTree Nat) : Prop :=
  ∀ a ∈ inorder t, ∀ b, (s.node a).parent = some b → s.color a = rbRed → s.color b ≠ rbRed

theorem AllRed.equalBlacks (h : AllRed s t) : EqualBlacks s t := by
  use 0
  have hred := h.red
  clear h
  induction t with
  | nil => exact fun c hc => List.mem_singleton.mp hc
  | node a l r ihl ihr =>
    have ha : s.color a = rbRed := hred a (List.mem_append_right _ List.mem_cons_self)
    have hl := ihl fun b hb => hred b (List.mem_append_left _ hb)
    have hr := ihr fun b hb => hred b (List.mem_append_right _ (List.mem_cons_of_mem a hb))
    rw [blackCounts,ha]
    intro c hc
    obtain ⟨c',hc',rfl⟩ := List.mem_map.mp hc
    rcases List.mem_append.mp hc' with hc' | hc'
    · exact hl c' hc'
    · exact hr c' hc'

/-- The child of a red root is red too. -/
theorem AllRed.noRedRed_iff (h : SearchTree s t keys) (hred : AllRed s t) :
    NoRedRed s t ↔ keys.length ≤ 1 := by
  have hlen := h.contents.length_eq
  rw [List.length_map] at hlen
  rw [← hlen]
  -- a child in the tree points back to its parent
  have hclash {a b : Nat} (ha : a ∈ inorder t) (hb : b ∈ inorder t)
      (hp : (s.node b).parent = some a) : ¬ NoRedRed s t :=
    fun hno => hno b hb a hp (hred.red b hb) (hred.red a ha)
  cases t with
  | nil => exact ⟨fun _ => Nat.zero_le _,fun _ a ha => absurd ha List.not_mem_nil⟩
  | node a l r =>
    obtain ⟨-,hparent,hl,hr⟩ := h.linked
    have ha : a ∈ inorder (.node a l r) := List.mem_append_right _ List.mem_cons_self
    cases l with
    | node b l' r' =>
      have hb : b ∈ inorder (.node a (.node b l' r') r) :=
        List.mem_append_left _ (List.mem_append_right _ List.mem_cons_self)
      apply iff_of_false (hclash ha hb hl.2.1)
      simp only [inorder,List.length_append,List.length_cons]
      omega
    | nil =>
      cases r with
      | node b l' r' =>
        have hb : b ∈ inorder (.node a .nil (.node b l' r')) :=
          List.mem_cons_of_mem a (List.mem_append_right _ List.mem_cons_self)
        apply iff_of_false (hclash ha hb hr.2.1)
        simp only [inorder,List.length_append,List.length_cons]
        omega
      | nil =>
        apply iff_of_true _ (Nat.le_refl 1)
        intro b hb c hc
        rw [List.mem_singleton.mp hb,show (s.node a).parent = none from hparent] at hc
        cases hc

theorem AllRed.rootBlack_iff (h : SearchTree s t keys) (hred : AllRed s t) :
    RootBlack s ↔ keys = [] := by
  have hlen := h.contents.length_eq
  have hlinked := h.linked
  cases t with
  | nil =>
    apply iff_of_true _ (List.eq_nil_of_length_eq_zero hlen.symm)
    intro a ha
    rw [show s.root = none from hlinked] at ha
    cases ha
  | node a l r =>
    have ha : s.color a = rbRed := hred.red a (List.mem_append_right _ List.mem_cons_self)
    apply iff_of_false
    · intro hblack
      have := hblack a hlinked.1
      rw [ha] at this
      cases this
    · rintro rfl
      simp [inorder] at hlen

/-- After every sequence of inserts the heap is a search tree for the keys, with as many black nodes,
none, on every path. The colours are those of a red-black tree only while nothing was inserted. -/
theorem rb_insert_spec (keys : List Int) : ∃ s t, empty.insertAll keys = some s ∧
    SearchTree s t keys ∧ EqualBlacks s t ∧ (NoRedRed s t ↔ keys.length ≤ 1) ∧
    (RootBlack s ↔ keys = []) := by
  obtain ⟨s,t,hall,h,hred⟩ := insertAll_spec searchTree_empty allRed_empty keys
  exact ⟨s,t,hall,h,hred.equalBlacks,hred.noRedRed_iff h,hred.rootBlack_iff h⟩

/-- Keys 1 and 2: a red root over a red child. -/
theorem rb_insert_red_root : ∃ s, empty.insertAll [1,2] = some s ∧ s.root = some 0 ∧
    s.color 0 = rbRed ∧ (s.node 1).parent = some 0 ∧ s.color 1 = rbRed ∧ ¬ RootBlack s ∧
    ¬ NoRedRed s (.node 0 .nil (.node 1 .nil .nil)) := by
  refine ⟨_,rfl,rfl,rfl,rfl,rfl,?_,?_⟩
  · intro h
    exact absurd (h 0 rfl) (by decide)
  · intro h
    exact h 1 (by decide) 0 rfl rfl rfl

end RbTree

end Sdssd.Fw
