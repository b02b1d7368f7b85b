import Sdssd.Framework.PointerTree

/-!
# Rotations of linked trees

A rotation to the right lifts the left child of a node above it. On the pointers these are three
links: the inner grandchild goes under the node, the node under its child, and the child under the
former parent.
-/

namespace Sdssd.Framework

variable {α : Type*} {cell cell' : α → TreeLinks α} {q q' p : Option α} {t : BinaryTree α} {x y b c : α}
  {goesLeft : α → Bool}

/-- A pointer to a node leads to a tree with this node on top. -/
theorem TreeAt.exists_node (h : TreeAt cell q (some x) t) : ∃ l r, t = .node x l r := by
  cases t with
  | nil => cases h
  | node a l r =>
    obtain rfl : x = a := Option.some.inj h.1
    exact ⟨l,r,rfl⟩

/-- A node is on top of the tree or has its parent in it. -/
theorem TreeAt.top_or_parent (h : TreeAt cell q p t) (hx : x ∈ inorder t) :
    p = some x ∧ (cell x).parent = q ∨ ∃ b ∈ inorder t, (cell x).parent = some b := by
  induction t generalizing q p with
  | nil => cases hx
  | node a l r ihl ihr =>
    obtain ⟨hp,hparent,hl,hr⟩ := h
    have ha : a ∈ inorder (.node a l r) := List.mem_append_right _ List.mem_cons_self
    rcases List.mem_append.mp hx with hx | hx
    · rcases ihl hl hx with ⟨-,htop⟩ | ⟨b,hb,hpb⟩
      · exact Or.inr ⟨a,ha,htop⟩
      · exact Or.inr ⟨b,List.mem_append_left _ hb,hpb⟩
    · rcases List.mem_cons.mp hx with rfl | hx
      · exact Or.inl ⟨hp,hparent⟩
      · rcases ihr hr hx with ⟨-,htop⟩ | ⟨b,hb,hpb⟩
        · exact Or.inr ⟨a,ha,htop⟩
        · exact Or.inr ⟨b,List.mem_append_right _ (List.mem_cons_of_mem a hb),hpb⟩

/-- A linked tree whose nodes are apart from each other and from the node it hangs under. -/
structure LinkedTree (cell : α → TreeLinks α) (q p : Option α) (t : BinaryTree α) : Prop where
  treeAt : TreeAt cell q p t
  nodup : (inorder t).Nodup
  above : ∀ b, q = some b → b ∉ inorder t

theorem LinkedTree.leftPart {a : α} {l r : BinaryTree α} (h : LinkedTree cell q p (.node a l r)) :
    LinkedTree cell (some a) (cell a).left l where
  treeAt := h.treeAt.2.2.1
  nodup := (nodup_node h.nodup).1
  above _ hb := Option.some.inj hb ▸ (nodup_node h.nodup).2.2.1

theorem LinkedTree.rightPart {a : α} {l r : BinaryTree α} (h : LinkedTree cell q p (.node a l r)) :
    LinkedTree cell (some a) (cell a).right r where
  treeAt := h.treeAt.2.2.2
  nodup := (nodup_node h.nodup).2.1
  above _ hb := Option.some.inj hb ▸ (nodup_node h.nodup).2.2.2.1

/-- The parent of the top node is not in the tree. -/
theorem LinkedTree.top_ne {a : α} {l r : BinaryTree α} (h : LinkedTree cell q p (.node a l r))
    (hxb : (cell x).parent = some b) (hb : b ∈ inorder (.node a l r)) : x ≠ a := by
  rintro rfl
  exact h.above b (h.treeAt.2.1.symm.trans hxb) hb

/-- No two nodes are parents of each other. -/
theorem LinkedTree.parent_ne (h : LinkedTree cell q p t) (hx : x ∈ inorder t) (hy : y ∈ inorder t)
    (hxy : (cell x).parent = some y) : (cell y).parent ≠ some x := by
  induction t generalizing q p with
  | nil => cases hx
  | node a l r ihl ihr =>
    intro hyx
    have hxa : x ≠ a := h.top_ne hxy hy
    have hya : y ≠ a := h.top_ne hyx hx
    rw [inorder,List.mem_append,List.mem_cons] at hx
    rcases hx with hxl | rfl | hxr
    · rcases h.leftPart.treeAt.top_or_parent hxl with ⟨-,htop⟩ | ⟨b,hb,hpb⟩
      · exact hya (Option.some.inj (hxy.symm.trans htop))
      · obtain rfl : y = b := Option.some.inj (hxy.symm.trans hpb)
        exact ihl h.leftPart hxl hb hyx
    · exact hxa rfl
    · rcases h.rightPart.treeAt.top_or_parent hxr with ⟨-,htop⟩ | ⟨b,hb,hpb⟩
      · exact hya (Option.some.inj (hxy.symm.trans htop))
      · obtain rfl : y = b := Option.some.inj (hxy.symm.trans hpb)
        exact ihr h.rightPart hxr hb hyx

theorem LinkedTree.parent_ne_self (h : LinkedTree cell q p t) (hx : x ∈ inorder t) :
    (cell x).parent ≠ some x :=
  fun hself => h.parent_ne hx hx hself hself

/-- The tree under a node. -/
theorem LinkedTree.subtree (h : LinkedTree cell q p t) (hx : x ∈ inorder t) :
    ∃ l r, LinkedTree cell (cell x).parent (some x) (.node x l r) ∧
      (inorder (.node x l r)).Sublist (inorder t) := by
  induction t generalizing q p with
  | nil => cases hx
  | node a l r ihl ihr =>
    rcases List.mem_append.mp hx with hx | hx
    · obtain ⟨l',r',htree,hsub⟩ := ihl h.leftPart hx
      exact ⟨l',r',htree,hsub.trans (List.sublist_append_left _ _)⟩
    · rcases List.mem_cons.mp hx with rfl | hx
      · obtain ⟨⟨rfl,rfl,hl,hr⟩,hnodup,habove⟩ := h
        exact ⟨l,r,⟨⟨rfl,rfl,hl,hr⟩,hnodup,habove⟩,List.Sublist.refl _⟩
      · obtain ⟨l',r',htree,hsub⟩ := ihr h.rightPart hx
        exact ⟨l',r',htree,hsub.trans ((List.sublist_cons_self a _).trans (List.sublist_append_right _ _))⟩

/-- A left child is in the tree and points back. -/
theorem LinkedTree.left_child (h : LinkedTree cell q p t) (hx : x ∈ inorder t)
    (hy : (cell x).left = some y) : y ∈ inorder t ∧ (cell y).parent = some x := by
  obtain ⟨l,r,htree,hsub⟩ := h.subtree hx
  have hl := htree.leftPart.treeAt
  rw [hy] at hl
  obtain ⟨l',r',rfl⟩ := hl.exists_node
  refine ⟨hsub.subset ?_,hl.2.1⟩
  simp [inorder]

theorem LinkedTree.right_child (h : LinkedTree cell q p t) (hx : x ∈ inorder t)
    (hy : (cell x).right = some y) : y ∈ inorder t ∧ (cell y).parent = some x := by
  obtain ⟨l,r,htree,hsub⟩ := h.subtree hx
  have hr := htree.rightPart.treeAt
  rw [hy] at hr
  obtain ⟨l',r',rfl⟩ := hr.exists_node
  refine ⟨hsub.subset ?_,hr.2.1⟩
  simp [inorder]

/-- The parent of a node is neither its left child nor the right child of that one. -/
theorem LinkedTree.parent_apart (h : LinkedTree cell q p t) (hx : x ∈ inorder t)
    (hy : (cell x).left = some y) (hc : (cell y).right = some c) (hb : (cell x).parent = some b) :
    b ≠ x ∧ b ≠ y ∧ b ≠ c := by
  obtain ⟨l,r,hsub,-⟩ := h.subtree hx
  have hbsub : b ∉ inorder (.node x l r) := hsub.above b hb
  have hxsub : x ∈ inorder (.node x l r) := List.mem_append_right _ List.mem_cons_self
  have hysub := (hsub.left_child hxsub hy).1
  have hcsub := (hsub.right_child hysub hc).1
  exact ⟨(ne_of_mem_of_not_mem hxsub hbsub).symm,(ne_of_mem_of_not_mem hysub hbsub).symm,
    (ne_of_mem_of_not_mem hcsub hbsub).symm⟩

section Rotate

variable [DecidableEq α]

/-- Lift the left child of the top node above it. -/
def rotateRight : BinaryTree α → BinaryTree α
  | .node x (.node y l m) r => .node y l (.node x m r)
  | t => t

/-- Rotate the tree under the node `x` to the right. -/
def rotateRightAt (x : α) : BinaryTree α → BinaryTree α
  | .nil => .nil
  | .node a l r => if a = x then rotateRight (.node a l r)
      else .node a (rotateRightAt x l) (rotateRightAt x r)

omit [DecidableEq α] in
theorem inorder_rotateRight (t : BinaryTree α) : inorder (rotateRight t) = inorder t := by
  cases t with
  | nil => rfl
  | node x l r =>
    cases l with
    | nil => rfl
    | node y l m => simp [rotateRight,inorder]

theorem inorder_rotateRightAt (x : α) (t : BinaryTree α) :
    inorder (rotateRightAt x t) = inorder t := by
  induction t with
  | nil => rfl
  | node a l r ihl ihr =>
    rw [rotateRightAt]
    split
    · exact inorder_rotateRight _
    · rw [inorder,ihl,ihr,inorder]

theorem rotateRightAt_of_notMem (hx : x ∉ inorder t) : rotateRightAt x t = t := by
  induction t with
  | nil => rfl
  | node a l r ihl ihr =>
    rw [inorder,List.mem_append,List.mem_cons,not_or,not_or] at hx
    rw [rotateRightAt,if_neg (Ne.symm hx.2.1),ihl hx.1,ihr hx.2.2]

theorem TreeAt.rotateRightAt_top (h : TreeAt cell q (some x) t) :
    rotateRightAt x t = rotateRight t := by
  obtain ⟨l,r,rfl⟩ := h.exists_node
  rw [rotateRightAt,if_pos rfl]

/-- What a rotation to the right does to the pointers: `y` is the left child of `x`, `c` the right
child of `y`, and `b` the parent of `x`. -/
structure RotatesRight (cell cell' : α → TreeLinks α) (x y c b : α) : Prop where
  lower : cell' x = ⟨some y,some c,(cell x).right⟩
  upper : cell' y = ⟨some b,(cell y).left,some x⟩
  inner : cell' c = { cell c with parent := some x }
  above : cell' b = if (cell b).left = some x then { cell b with left := some y }
    else { cell b with right := some y }
  frame : ∀ a, a ≠ x → a ≠ y → a ≠ c → a ≠ b → cell' a = cell a

/-- The three links, from the bottom to the top. -/
theorem rotatesRight_attach (hyx : y ≠ x) (hcx : c ≠ x) (hcy : c ≠ y) (hbx : b ≠ x) (hby : b ≠ y)
    (hbc : b ≠ c) (hgoes : goesLeft b = decide ((cell b).left = some x)) :
    RotatesRight cell (attach goesLeft (attach (fun _ => false)
      (attach (fun _ => true) cell c x) x y) y b) x y c b where
  lower := by
    rw [attach_of_ne hyx.symm hbx.symm,attach_self hyx.symm,attach_under hcx]
    rfl
  upper := by
    rw [attach_self hby.symm,attach_under hyx.symm,attach_of_ne hcy.symm hyx]
    rfl
  inner := by
    rw [attach_of_ne hcy hbc.symm,attach_of_ne hcx hcy,attach_self hcx]
  above := by
    rw [attach_under hby.symm,attach_of_ne hbx hby,attach_of_ne hbc hbx,hgoes]
    simp only [decide_eq_true_eq]
  frame := by
    intro a hax hay hac hab
    rw [attach_of_ne hay hab,attach_of_ne hax hay,attach_of_ne hac hax]

/-- A tree without the four nodes does not notice. -/
theorem RotatesRight.treeAt_frame (hrot : RotatesRight cell cell' x y c b) (h : TreeAt cell q p t)
    (hx : x ∉ inorder t) (hy : y ∉ inorder t) (hc : c ∉ inorder t) (hb : b ∉ inorder t) :
    TreeAt cell' q p t := by
  apply h.congr
  intro a ha
  exact hrot.frame a (ne_of_mem_of_not_mem ha hx) (ne_of_mem_of_not_mem ha hy)
    (ne_of_mem_of_not_mem ha hc) (ne_of_mem_of_not_mem ha hb)

/-- The inner grandchild hangs under `x` afterwards. -/
theorem RotatesRight.treeAt_inner (hrot : RotatesRight cell cell' x y c b)
    (h : LinkedTree cell (some y) (some c) t) (hx : x ∉ inorder t) (hb : b ∉ inorder t) :
    TreeAt cell' (some x) (some c) t := by
  have hy : y ∉ inorder t := h.above y rfl
  obtain ⟨l,r,rfl⟩ := h.treeAt.exists_node
  rw [inorder,List.mem_append,List.mem_cons,not_or,not_or] at hx hy hb
  rw [TreeAt,hrot.inner]
  exact ⟨rfl,rfl,hrot.treeAt_frame h.leftPart.treeAt hx.1 hy.1 (h.leftPart.above c rfl) hb.1,
    hrot.treeAt_frame h.rightPart.treeAt hx.2.2 hy.2.2 (h.rightPart.above c rfl) hb.2.2⟩

/-- The rotation at the top. -/
theorem RotatesRight.treeAt_top (hrot : RotatesRight cell cell' x y c b)
    (hy : (cell x).left = some y) (hc : (cell y).right = some c)
    (h : LinkedTree cell (some b) (some x) t) : TreeAt cell' (some b) (some y) (rotateRight t) := by
  have hb : b ∉ inorder t := h.above b rfl
  obtain ⟨l,r,rfl⟩ := h.treeAt.exists_node
  have hl := h.leftPart
  have hr := h.rightPart
  obtain ⟨-,-,-,-,hdisj⟩ := nodup_node h.nodup
  rw [hy] at hl
  obtain ⟨l,m,rfl⟩ := hl.treeAt.exists_node
  have hm := hl.rightPart
  obtain ⟨-,-,-,-,hlm⟩ := nodup_node hl.nodup
  rw [hc] at hm
  have hcm : c ∈ inorder m := by
    obtain ⟨l',r',rfl⟩ := hm.treeAt.exists_node
    simp [inorder]
  have hyr : y ∉ inorder r := hdisj y (by simp [inorder])
  have hcr : c ∉ inorder r := hdisj c (by simp [inorder,hcm])
  have hcl : c ∉ inorder l := fun hmem => hlm c hmem hcm
  have hxleft : x ∉ inorder (.node y l m) := hl.above x rfl
  simp only [inorder,List.mem_append,List.mem_cons,not_or] at hb hxleft
  rw [rotateRight,TreeAt,hrot.upper,TreeAt,hrot.lower]
  exact ⟨rfl,rfl,hrot.treeAt_frame hl.leftPart.treeAt hxleft.1 (hl.leftPart.above y rfl) hcl hb.1.1,
    rfl,rfl,hrot.treeAt_inner hm hxleft.2.2 hb.1.2.2,
    hrot.treeAt_frame hr.treeAt (hr.above x rfl) hyr hcr hb.2.2⟩

/-- A tree apart from the one that is rotated keeps its pointers, if the parent of `x` is not in it. -/
theorem RotatesRight.treeAt_apart {q' p' : Option α} {u : BinaryTree α}
    (hrot : RotatesRight cell cell' x y c b) (hy : (cell x).left = some y) (hc : (cell y).right = some c)
    (h : LinkedTree cell q p t) (hx : x ∈ inorder t) (hu : TreeAt cell q' p' u)
    (hdisj : ∀ a ∈ inorder t, a ∉ inorder u) (hb : b ∉ inorder u) : TreeAt cell' q' p' u := by
  have hyt := (h.left_child hx hy).1
  have hct := (h.right_child hyt hc).1
  exact hrot.treeAt_frame hu (hdisj x hx) (hdisj y hyt) (hdisj c hct) hb

/-- So does a node outside. -/
theorem RotatesRight.frame_notMem {a : α} (hrot : RotatesRight cell cell' x y c b)
    (hy : (cell x).left = some y) (hc : (cell y).right = some c) (h : LinkedTree cell q p t)
    (hx : x ∈ inorder t) (hb : b ∈ inorder t) (ha : a ∉ inorder t) : cell' a = cell a := by
  have hyt := (h.left_child hx hy).1
  have hct := (h.right_child hyt hc).1
  exact hrot.frame a (ne_of_mem_of_not_mem hx ha).symm (ne_of_mem_of_not_mem hyt ha).symm
    (ne_of_mem_of_not_mem hct ha).symm (ne_of_mem_of_not_mem hb ha).symm

/-- The rotation below the top: the tree stays linked and only the part under `x` turns. -/
theorem RotatesRight.treeAt (hrot : RotatesRight cell cell' x y c b)
    (hy : (cell x).left = some y) (hc : (cell y).right = some c) (hparent : (cell x).parent = some b)
    (h : LinkedTree cell q p t) (hx : x ∈ inorder t) (hb : b ∈ inorder t) :
    TreeAt cell' q p (rotateRightAt x t) := by
  induction t generalizing q p with
  | nil => cases hx
  | node a l r ihl ihr =>
    obtain ⟨hp,htop,-,-⟩ := h.treeAt
    obtain ⟨-,-,hal,har,hdisj⟩ := nodup_node h.nodup
    have hdisj' : ∀ d ∈ inorder r, d ∉ inorder l := fun d hdr hdl => hdisj d hdl hdr
    have hax : a ≠ x := (h.top_ne hparent hb).symm
    have hl := h.leftPart
    have hr := h.rightPart
    rw [rotateRightAt,if_neg hax,TreeAt]
    rw [inorder,List.mem_append,List.mem_cons] at hx
    rcases hx with hxl | rfl | hxr
    · rw [rotateRightAt_of_notMem (hdisj x hxl)]
      rcases hl.treeAt.top_or_parent hxl with ⟨hleft,hpa⟩ | ⟨b',hbl,hpb⟩
      · -- `x` hangs directly under `a`, on the left
        obtain rfl : b = a := Option.some.inj (hparent.symm.trans hpa)
        have hright := hrot.treeAt_apart hy hc hl hxl hr.treeAt hdisj har
        rw [hleft] at hl
        rw [hl.treeAt.rotateRightAt_top,hrot.above,if_pos hleft]
        exact ⟨hp,htop,hrot.treeAt_top hy hc hl,hright⟩
      · obtain rfl : b = b' := Option.some.inj (hparent.symm.trans hpb)
        rw [hrot.frame_notMem hy hc hl hxl hbl hal]
        exact ⟨hp,htop,ihl hl hxl hbl,
          hrot.treeAt_apart hy hc hl hxl hr.treeAt hdisj (hdisj b hbl)⟩
    · exact absurd rfl hax
    · rw [rotateRightAt_of_notMem (hdisj' x hxr)]
      rcases hr.treeAt.top_or_parent hxr with ⟨hright,hpa⟩ | ⟨b',hbr,hpb⟩
      · obtain rfl : b = a := Option.some.inj (hparent.symm.trans hpa)
        have hleft : (cell b).left ≠ some x := by
          intro hleft
          have hroot := hl.treeAt
          rw [hleft] at hroot
          obtain ⟨l',r',rfl⟩ := hroot.exists_node
          exact hdisj' x hxr (by simp [inorder])
        have hlpart := hrot.treeAt_apart hy hc hr hxr hl.treeAt hdisj' hal
        rw [hright] at hr
        rw [hr.treeAt.rotateRightAt_top,hrot.above,if_neg hleft]
        exact ⟨hp,htop,hlpart,hrot.treeAt_top hy hc hr⟩
      · obtain rfl : b = b' := Option.some.inj (hparent.symm.trans hpb)
        rw [hrot.frame_notMem hy hc hr hxr hbr har]
        exact ⟨hp,htop,hrot.treeAt_apart hy hc hr hxr hl.treeAt hdisj' (hdisj' b hbr),
          ihr hr hxr hbr⟩

end Rotate

end Sdssd.Framework
