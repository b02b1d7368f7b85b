import Sdssd.Framework.TreeRotation
import Sdssd.Fw.RbTree

/-!
# The rotations of the red-black tree

`_left_rotate` and `_right_rotate` of `lib/rb-tree.c`. Inserts never get as far as a rotation; here
the two are called on any linked tree. Each child that is linked gets its parent pointer written, so
an absent inner grandchild is a `NULL` dereference.
-/

namespace Sdssd.Fw

open Framework

namespace RbTree

variable {s s' : RbTree} {t : BinaryTree Nat} {node child a x y b c : Nat}

/-- Parent and child links agree, and `rb_node` is the one node without parent. -/
structure WellLinked (s : RbTree) (t : BinaryTree Nat) : Prop where
  linked : TreeAt s.links none s.root t
  nodup : (inorder t).Nodup

/-- What a rotation at `node` should return: a linked tree with the nodes in the same order, the
child above the node. -/
def RotatesTo (t : BinaryTree Nat) (node child : Nat) (result : Option RbTree) : Prop :=
  ∃ s' t', result = some s' ∧ s'.WellLinked t' ∧ inorder t' = inorder t ∧
    (s'.node node).parent = some child

theorem setLeft_some : s.setLeft node (some child) = some (s.hang true child node) := rfl

theorem setRight_some : s.setRight node (some child) = some (s.hang false child node) := rfl

theorem links_hang_left : (s.hang true child node).links = attach (fun _ => true) s.links child node :=
  links_hang (fun _ => true) child node

theorem links_hang_right :
    (s.hang false child node).links = attach (fun _ => false) s.links child node :=
  links_hang (fun _ => false) child node

/-- Only the new child gets a new parent. -/
theorem parent_hang (left : Bool) (ha : a ≠ child) :
    ((s.hang left child node).node a).parent = (s.node a).parent := by
  have hchild (n : RbNode) :
      (if left then { n with left := some child } else { n with right := some child }).parent
        = n.parent := by
    cases left <;> rfl
  rw [hang,node_modify,if_neg ha,modify_keeps RbNode.parent hchild]

theorem setLeft_parent {other : Option Nat} (h : s.setLeft node other = some s') (ha : other ≠ some a) :
    (s'.node a).parent = (s.node a).parent := by
  cases other with
  | none => cases h
  | some c =>
    rw [setLeft_some,Option.some.injEq] at h
    subst s'
    exact parent_hang true fun hac => ha (congrArg some hac.symm)

theorem setRight_parent {other : Option Nat} (h : s.setRight node other = some s')
    (ha : other ≠ some a) : (s'.node a).parent = (s.node a).parent := by
  cases other with
  | none => cases h
  | some c =>
    rw [setRight_some,Option.some.injEq] at h
    subst s'
    exact parent_hang false fun hac => ha (congrArg some hac.symm)

theorem WellLinked.linkedTree (h : s.WellLinked t) : LinkedTree s.links none s.root t :=
  ⟨h.linked,h.nodup,fun _ hb => by cases hb⟩

/-- A child that still has the node as its parent is not above it. -/
theorem not_rotatesTo {result : Option RbTree} (hx : x ∈ inorder t) (hy : y ∈ inorder t)
    (hstays : ∀ s', result = some s' → (s'.node y).parent = some x) : ¬ RotatesTo t x y result := by
  rintro ⟨s',t',hresult,hlinked,horder,hparent⟩
  rw [← horder] at hx hy
  exact hlinked.linkedTree.parent_ne hx hy hparent (hstays s' hresult)

/-- A node that has a parent is neither the parent of that one nor a child of itself. -/
theorem WellLinked.child_apart (h : s.WellLinked t) (hx : x ∈ inorder t) (hy : y ∈ inorder t)
    (hyx : (s.node y).parent = some x) :
    some x ≠ some y ∧ (s.node x).parent ≠ some y ∧ (s.node y).left ≠ some y ∧
      (s.node y).right ≠ some y := by
  have hself : (s.node y).parent ≠ some y := h.linkedTree.parent_ne_self hy
  refine ⟨?_,h.linkedTree.parent_ne hy hx hyx,?_,?_⟩
  · intro hxy
    exact hself (hyx.trans hxy)
  · intro hleft
    exact hself (h.linkedTree.left_child hy hleft).2
  · intro hright
    exact hself (h.linkedTree.right_child hy hright).2

/-- `_left_rotate` leaves the parent of the right child as it was. -/
theorem leftRotate_parent (hy : (s.node x).right = some y) (hxy : some x ≠ some y)
    (hp : (s.node x).parent ≠ some y) (hc : (s.node y).left ≠ some y)
    (h : s.leftRotate x = some s') : (s'.node y).parent = (s.node y).parent := by
  rw [leftRotate,hy] at h
  simp only [Option.bind_eq_bind,Option.bind_some,Option.bind_eq_some_iff] at h
  obtain ⟨s₁,h₁,s₂,h₂,h⟩ := h
  rw [← setRight_parent h₁ hc,← setLeft_parent h₂ hxy]
  cases hparent : (s.node x).parent with
  | none =>
    rw [hparent,Option.some.injEq] at h
    subst s'
    rfl
  | some p =>
    rw [hparent] at h hp
    dsimp only at h
    split at h
    · exact setLeft_parent h hp
    · exact setRight_parent h hp

/-- `_right_rotate` at the top does the same. -/
theorem rightRotate_parent (hy : (s.node x).left = some y) (hxy : some x ≠ some y)
    (hp : (s.node x).parent = none) (hc : (s.node y).right ≠ some y)
    (h : s.rightRotate x = some s') : (s'.node y).parent = (s.node y).parent := by
  rw [rightRotate,hy,hp] at h
  simp only [Option.bind_eq_bind,Option.bind_some,Option.bind_eq_some_iff] at h
  obtain ⟨s₁,h₁,s₂,h₂,h⟩ := h
  rw [← setLeft_parent h₁ hc,← setRight_parent h₂ hxy]
  rw [Option.some.injEq] at h
  subst s'
  rfl

/-- Without the inner grandchild `_right_rotate` writes through `NULL`. -/
theorem rightRotate_none (hy : (s.node x).left = some y) (hc : (s.node y).right = none) :
    s.rightRotate x = none := by
  rw [rightRotate,hy]
  simp only [Option.bind_eq_bind,Option.bind_some,hc]
  rfl

/-- With both neighbours `_right_rotate` links three times. -/
theorem rightRotate_eq (hy : (s.node x).left = some y) (hc : (s.node y).right = some c)
    (hb : (s.node x).parent = some b) :
    let s₂ := (s.hang true c x).hang false x y
    s.rightRotate x = some (s₂.hang ((s₂.node b).left = some x) y b) := by
  intro s₂
  rw [rightRotate,hy]
  simp only [Option.bind_eq_bind,Option.bind_some,hc,hb,setLeft_some,setRight_some]
  change (if (s₂.node b).left = some x then _ else _) = _
  split
  · next hleft => rw [decide_eq_true hleft]
  · next hleft => rw [decide_eq_false hleft]

/-- Then the tree stays linked. -/
theorem WellLinked.rightRotate (h : s.WellLinked t) (hx : x ∈ inorder t)
    (hy : (s.node x).left = some y) (hc : (s.node y).right = some c)
    (hb : (s.node x).parent = some b) : RotatesTo t x y (s.rightRotate x) := by
  have htree := h.linkedTree
  obtain ⟨hyt,hyx⟩ := htree.left_child hx hy
  obtain ⟨hct,hcy⟩ := htree.right_child hyt hc
  have hbt : b ∈ inorder t := by
    rcases htree.treeAt.top_or_parent hx with ⟨-,htop⟩ | ⟨b',hbt,hpb⟩
    · cases hb.symm.trans htop
    · obtain rfl : b = b' := Option.some.inj (hb.symm.trans hpb)
      exact hbt
  obtain ⟨hbx,hby,hbc⟩ := htree.parent_apart hx hy hc hb
  have hne_y : y ≠ x := by
    rintro rfl
    exact htree.parent_ne_self hyt hyx
  have hne_c : c ≠ y := by
    rintro rfl
    exact htree.parent_ne_self hct hcy
  have hne_x : c ≠ x := by
    rintro rfl
    exact htree.parent_ne hyt hct hyx hcy
  let s₂ := (s.hang true c x).hang false x y
  have hlinks₂ : s₂.links = attach (fun _ => false) (attach (fun _ => true) s.links c x) x y := by
    rw [links_hang_right,links_hang_left]
  -- the pointer tested for the side is still the one of the call
  have hside : (s₂.node b).left = (s.links b).left := by
    change (s₂.links b).left = _
    rw [hlinks₂,attach_of_ne hbx hby,attach_of_ne hbc hbx]
  let side : Nat → Bool := fun _ => (s₂.node b).left = some x
  have hrot : RotatesRight s.links (s₂.hang (side b) y b).links x y c b := by
    rw [links_hang side,hlinks₂]
    apply rotatesRight_attach hne_y hne_x hne_c hbx hby hbc
    simp only [side,hside]
  refine ⟨s₂.hang (side b) y b,rotateRightAt x t,rightRotate_eq hy hc hb,⟨?_,?_⟩,
    inorder_rotateRightAt x t,?_⟩
  · exact hrot.treeAt hy hc hb htree hx hbt
  · rw [inorder_rotateRightAt]
    exact h.nodup
  · exact congrArg TreeLinks.parent hrot.lower

end RbTree

/-- A left rotation never leaves the tree linked. A right rotation does exactly when the left child
has a right child and the node is not the root. -/
theorem rotations_keep_tree_iff (s : RbTree) (t : BinaryTree Nat) (h : s.WellLinked t) (x : Nat)
    (hx : x ∈ inorder t) :
    (∀ y, (s.node x).right = some y → ¬ RbTree.RotatesTo t x y (s.leftRotate x)) ∧
    ∀ y, (s.node x).left = some y → (RbTree.RotatesTo t x y (s.rightRotate x) ↔
      (s.node y).right ≠ none ∧ (s.node x).parent ≠ none) := by
  constructor
  · intro y hy
    obtain ⟨hyt,hyx⟩ := h.linkedTree.right_child hx hy
    obtain ⟨hxy,hp,hc,-⟩ := h.child_apart hx hyt hyx
    apply RbTree.not_rotatesTo hx hyt
    intro s' hrot
    rw [RbTree.leftRotate_parent hy hxy hp hc hrot]
    exact hyx
  · intro y hy
    obtain ⟨hyt,hyx⟩ := h.linkedTree.left_child hx hy
    obtain ⟨hxy,-,-,hc⟩ := h.child_apart hx hyt hyx
    constructor
    · intro hrot
      constructor
      · intro hnone
        obtain ⟨s',t',hsome,-⟩ := hrot
        cases (RbTree.rightRotate_none hy hnone).symm.trans hsome
      · intro hroot
        apply RbTree.not_rotatesTo hx hyt _ hrot
        intro s' hs'
        rw [RbTree.rightRotate_parent hy hxy hroot hc hs']
        exact hyx
    · rintro ⟨hright,hparent⟩
      obtain ⟨c,hc⟩ := Option.ne_none_iff_exists'.mp hright
      obtain ⟨b,hb⟩ := Option.ne_none_iff_exists'.mp hparent
      exact h.rightRotate hx hy hc hb

/-- Below the root 0 node 1 has a left child 2, and that a right child 3. -/
def bentTree : RbTree where
  node
    | 0 => ⟨40,rbRed,none,some 1,none⟩
    | 1 => ⟨30,rbRed,some 0,some 2,none⟩
    | 2 => ⟨10,rbRed,some 1,none,some 3⟩
    | _ => ⟨20,rbRed,some 2,none,none⟩
  root := some 0
  next := 4

theorem bentTree_wellLinked : bentTree.WellLinked
    (.node 0 (.node 1 (.node 2 .nil (.node 3 .nil .nil)) .nil) .nil) :=
  ⟨⟨rfl,rfl,⟨rfl,rfl,⟨rfl,rfl,rfl,rfl,rfl,rfl,rfl⟩,rfl⟩,rfl⟩,by decide⟩

/-- Node 1 can be rotated to the right, the root cannot. -/
theorem rotations_keep_tree_bent :
    RbTree.RotatesTo (.node 0 (.node 1 (.node 2 .nil (.node 3 .nil .nil)) .nil) .nil) 1 2
      (bentTree.rightRotate 1) ∧
    ¬ RbTree.RotatesTo (.node 0 (.node 1 (.node 2 .nil (.node 3 .nil .nil)) .nil) .nil) 0 1
      (bentTree.rightRotate 0) :=
  ⟨((rotations_keep_tree_iff bentTree _ bentTree_wellLinked 1 (by decide)).2 2 rfl).mpr (by decide),
    fun h => absurd ((rotations_keep_tree_iff bentTree _ bentTree_wellLinked 0 (by decide)).2 1 rfl
      |>.mp h) (by decide)⟩

/-- The root 0 has a right child 1, and that a left child 2. -/
def rightBentTree : RbTree where
  node
    | 0 => ⟨10,rbRed,none,none,some 1⟩
    | 1 => ⟨30,rbRed,some 0,some 2,none⟩
    | _ => ⟨20,rbRed,some 1,none,none⟩
  root := some 0
  next := 3

/-- After a left rotation at the root, the root and its right child are parents of each other. -/
theorem left_rotate_mutual_parents :
    rightBentTree.WellLinked (.node 0 .nil (.node 1 (.node 2 .nil .nil) .nil)) ∧
    (rightBentTree.leftRotate 0).map (fun s => (s.root,(s.node 0).parent,(s.node 1).parent)) =
      some (some 1,some 1,some 0) ∧
    ¬ RbTree.RotatesTo (.node 0 .nil (.node 1 (.node 2 .nil .nil) .nil)) 0 1
      (rightBentTree.leftRotate 0) := by
  refine ⟨⟨⟨rfl,rfl,rfl,rfl,rfl,⟨rfl,rfl,rfl,rfl⟩,rfl⟩,by decide⟩,by decide,?_⟩
  apply RbTree.not_rotatesTo (by decide) (by decide)
  intro s' hrot
  exact RbTree.leftRotate_parent rfl (by decide) (by decide) (by decide) hrot

end Sdssd.Fw
