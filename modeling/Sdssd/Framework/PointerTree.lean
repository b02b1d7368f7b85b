import Mathlib.Data.List.Nodup
import Mathlib.Data.Tree.Basic
import Mathlib.Logic.Function.Basic
import Mathlib.Order.Lattice

/-!
# Binary trees of linked nodes

Nodes carry pointers to their children and to their parent. A pointer leads to a tree when following
the child pointers unfolds it and every node points back to the one it hangs under. A new node is
hung under the last node of a search path.
-/

namespace Sdssd.Framework

variable {α : Type*}

/-- The pointers of one node. -/
structure TreeLinks (α : Type*) where
  parent : Option α
  left : Option α
  right : Option α

/-- The nodes from left to right. -/
def inorder : BinaryTree α → List α
  | .nil => []
  | .node a l r => inorder l ++ a :: inorder r

/-- From `p` the child pointers unfold the tree, under a node `q` or at the top. -/
def TreeAt (cell : α → TreeLinks α) : Option α → Option α → BinaryTree α → Prop
  | _, p, .nil => p = none
  | q, p, .node a l r => p = some a ∧ (cell a).parent = q ∧ TreeAt cell (some a) (cell a).left l ∧
      TreeAt cell (some a) (cell a).right r

/-- Hang a new leaf where a search ends that turns left as it is told. -/
def graft (goesLeft : α → Bool) (x : α) : BinaryTree α → BinaryTree α
  | .nil => .node x .nil .nil
  | .node a l r => if goesLeft a then .node a (graft goesLeft x l) r else .node a l (graft goesLeft x r)

/-- The last node of the search path; `q` when there is none. -/
def spot (goesLeft : α → Bool) : Option α → BinaryTree α → Option α
  | q, .nil => q
  | _, .node a l r => if goesLeft a then spot goesLeft (some a) l else spot goesLeft (some a) r

variable {cell : α → TreeLinks α} {q p : Option α} {t : BinaryTree α} {x b : α} {goesLeft : α → Bool}

/-- Only the pointers of the tree's own nodes matter. -/
theorem TreeAt.congr {cell' : α → TreeLinks α} (h : TreeAt cell q p t)
    (heq : ∀ a ∈ inorder t, cell' a = cell a) : TreeAt cell' q p t := by
  induction t generalizing q p with
  | nil => exact h
  | node a l r ihl ihr =>
    have ha : cell' a = cell a := heq a (List.mem_append_right _ List.mem_cons_self)
    rw [TreeAt,ha]
    refine ⟨h.1,h.2.1,ihl h.2.2.1 ?_,ihr h.2.2.2 ?_⟩
    · intro b hb
      exact heq b (List.mem_append_left _ hb)
    · intro b hb
      exact heq b (List.mem_append_right _ (List.mem_cons_of_mem a hb))

theorem inorder_graft (t : BinaryTree α) : (inorder (graft goesLeft x t)).Perm (x :: inorder t) := by
  induction t with
  | nil => exact List.Perm.refl _
  | node a l r ihl ihr =>
    rw [graft]
    cases goesLeft a with
    | true => exact ihl.append_right _
    | false =>
      have hr : (inorder l ++ a :: inorder (graft goesLeft x r)).Perm
          (inorder l ++ a :: x :: inorder r) := (ihr.cons a).append_left _
      apply hr.trans
      apply (List.Perm.append_left _ (List.Perm.swap x a _)).trans
      exact List.perm_middle

/-- A tree with a node has the last node of every path. -/
theorem spot_mem (ht : t ≠ .nil) (hb : spot goesLeft q t = some b) : b ∈ inorder t := by
  induction t generalizing q with
  | nil => exact absurd rfl ht
  | node a l r ihl ihr =>
    rw [spot] at hb
    cases hg : goesLeft a with
    | true =>
      rw [hg,if_pos rfl] at hb
      cases l with
      | nil =>
        cases hb
        exact List.mem_append_right _ List.mem_cons_self
      | node c l' r' => exact List.mem_append_left _ (ihl (by simp) hb)
    | false =>
      rw [hg,if_neg (by decide)] at hb
      cases r with
      | nil =>
        cases hb
        exact List.mem_append_right _ List.mem_cons_self
      | node c l' r' => exact List.mem_append_right _ (List.mem_cons_of_mem a (ihr (by simp) hb))

theorem exists_spot (q : Option α) (t : BinaryTree α) (h : q = none → t ≠ .nil) :
    ∃ b, spot goesLeft q t = some b := by
  induction t generalizing q with
  | nil =>
    cases q with
    | none => exact absurd rfl (h rfl)
    | some b => exact ⟨b,rfl⟩
  | node a l r ihl ihr =>
    rw [spot]
    cases goesLeft a with
    | true => exact ihl (some a) (fun hn => by cases hn)
    | false => exact ihr (some a) (fun hn => by cases hn)

section Attach

variable [DecidableEq α]

/-- Write the child pointer of `b` and the parent pointer of `x`. -/
def attach (goesLeft : α → Bool) (cell : α → TreeLinks α) (x b : α) : α → TreeLinks α :=
  let cell := Function.update cell b
    (if goesLeft b then { cell b with left := some x } else { cell b with right := some x })
  Function.update cell x { cell x with parent := some b }

theorem attach_of_ne {a : α} (hx : a ≠ x) (hb : a ≠ b) : attach goesLeft cell x b a = cell a := by
  rw [attach,Function.update_of_ne hx,Function.update_of_ne hb]

theorem attach_self (hxb : x ≠ b) : attach goesLeft cell x b x = { cell x with parent := some b } := by
  rw [attach,Function.update_self,Function.update_of_ne hxb]

theorem attach_under (hxb : x ≠ b) : attach goesLeft cell x b b =
    if goesLeft b then { cell b with left := some x } else { cell b with right := some x } := by
  rw [attach,Function.update_of_ne (Ne.symm hxb),Function.update_self]

/-- A tree without the two nodes does not notice. -/
theorem TreeAt.attach_frame (h : TreeAt cell q p t) (hx : x ∉ inorder t) (hb : b ∉ inorder t) :
    TreeAt (attach goesLeft cell x b) q p t := by
  apply h.congr
  intro a ha
  exact attach_of_ne (ne_of_mem_of_not_mem ha hx) (ne_of_mem_of_not_mem ha hb)

/-- A leaf that has just been hung under `b`. -/
theorem treeAt_leaf (hleaf : (cell x).left = none ∧ (cell x).right = none) (hxb : x ≠ b) :
    TreeAt (attach goesLeft cell x b) (some b) (some x) (.node x .nil .nil) := by
  rw [TreeAt,attach_self hxb]
  exact ⟨rfl,rfl,hleaf.1,hleaf.2⟩

omit [DecidableEq α] in
theorem nodup_node {a : α} {l r : BinaryTree α} (h : (inorder (.node a l r)).Nodup) :
    (inorder l).Nodup ∧ (inorder r).Nodup ∧ a ∉ inorder l ∧ a ∉ inorder r ∧
      ∀ b ∈ inorder l, b ∉ inorder r := by
  rw [inorder,List.nodup_append] at h
  obtain ⟨hl,har,hdisj⟩ := h
  rw [List.nodup_cons] at har
  refine ⟨hl,har.2,?_,har.1,?_⟩
  · intro ha
    exact hdisj a ha a List.mem_cons_self rfl
  · intro b hbl hbr
    exact hdisj b hbl b (List.mem_cons_of_mem a hbr) rfl

/-- Hanging a fresh leaf under the last node of its search path makes the grafted tree. -/
theorem TreeAt.graft (h : TreeAt cell q p t) (ht : t ≠ .nil) (hnodup : (inorder t).Nodup)
    (hx : x ∉ inorder t) (hleaf : (cell x).left = none ∧ (cell x).right = none)
    (hb : spot goesLeft q t = some b) :
    TreeAt (attach goesLeft cell x b) q p (graft goesLeft x t) := by
  induction t generalizing q p with
  | nil => exact absurd rfl ht
  | node a l r ihl ihr =>
    obtain ⟨hp,hparent,hl,hr⟩ := h
    obtain ⟨hnl,hnr,hal,har,hdisj⟩ := nodup_node hnodup
    rw [inorder,List.mem_append,List.mem_cons,not_or,not_or] at hx
    obtain ⟨hxl,hxa,hxr⟩ := hx
    rw [spot] at hb
    rw [Framework.graft]
    cases hg : goesLeft a with
    | true =>
      rw [hg,if_pos rfl] at hb
      rw [if_pos rfl,TreeAt]
      cases l with
      | nil =>
        -- the search ends at `a` itself
        cases hb
        rw [attach_under hxa,hg,if_pos rfl]
        exact ⟨hp,hparent,treeAt_leaf hleaf hxa,hr.attach_frame hxr har⟩
      | node c l' r' =>
        have hbl := spot_mem (by simp) hb
        rw [attach_of_ne (Ne.symm hxa) (ne_of_mem_of_not_mem hbl hal).symm]
        exact ⟨hp,hparent,ihl hl (by simp) hnl hxl hb,hr.attach_frame hxr (hdisj b hbl)⟩
    | false =>
      rw [hg,if_neg (by decide)] at hb
      rw [if_neg (by decide),TreeAt]
      cases r with
      | nil =>
        cases hb
        rw [attach_under hxa,hg,if_neg (by decide)]
        exact ⟨hp,hparent,hl.attach_frame hxl hal,treeAt_leaf hleaf hxa⟩
      | node c l' r' =>
        have hbr := spot_mem (by simp) hb
        have hbl : b ∉ inorder l := fun hmem => hdisj b hmem hbr
        rw [attach_of_ne (Ne.symm hxa) (ne_of_mem_of_not_mem hbr har).symm]
        exact ⟨hp,hparent,hl.attach_frame hxl hbl,ihr hr (by simp) hnr hxr hb⟩

end Attach

section Order

variable {κ : Type*} [LinearOrder κ] {key : α → κ}

/-- Search order; equal keys are to the right. -/
def Ordered (key : α → κ) : BinaryTree α → Prop
  | .nil => True
  | .node a l r => (∀ b ∈ inorder l, key b < key a) ∧ (∀ b ∈ inorder r, key a ≤ key b) ∧
      Ordered key l ∧ Ordered key r

theorem Ordered.graft (h : Ordered key t) : Ordered key (graft (fun a => key x < key a) x t) := by
  induction t with
  | nil => simp [Framework.graft,Ordered,inorder]
  | node a l r ihl ihr =>
    obtain ⟨hl,hr,hol,hor⟩ := h
    rw [Framework.graft]
    by_cases hxa : key x < key a
    · rw [if_pos (by simpa using hxa)]
      refine ⟨?_,hr,ihl hol,hor⟩
      intro b hb
      rcases List.mem_cons.mp ((inorder_graft l).subset hb) with rfl | hb
      · exact hxa
      · exact hl b hb
    · rw [if_neg (by simpa using hxa)]
      refine ⟨hl,?_,hol,ihr hor⟩
      intro b hb
      rcases List.mem_cons.mp ((inorder_graft r).subset hb) with rfl | hb
      · exact not_lt.mp hxa
      · exact hr b hb

theorem Ordered.congr {key' : α → κ} (h : Ordered key t) (heq : ∀ a ∈ inorder t, key' a = key a) :
    Ordered key' t := by
  induction t with
  | nil => trivial
  | node a l r ihl ihr =>
    have hl (b : α) (hb : b ∈ inorder l) : key' b = key b := heq b (List.mem_append_left _ hb)
    have hr (b : α) (hb : b ∈ inorder r) : key' b = key b :=
      heq b (List.mem_append_right _ (List.mem_cons_of_mem a hb))
    have ha : key' a = key a := heq a (List.mem_append_right _ List.mem_cons_self)
    refine ⟨?_,?_,ihl h.2.2.1 hl,ihr h.2.2.2 hr⟩
    · intro b hb
      rw [hl b hb,ha]
      exact h.1 b hb
    · intro b hb
      rw [hr b hb,ha]
      exact h.2.1 b hb

end Order

end Sdssd.Framework
