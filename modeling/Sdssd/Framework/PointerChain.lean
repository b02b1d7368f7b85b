import Mathlib.Logic.Function.Basic
import Mathlib.Data.List.Nodup

/-!
# Chains of next pointers

Nodes carry one pointer to a next node or to none. A pointer leads through a list of nodes when
following the pointers meets these nodes in order and then ends.
-/

namespace Sdssd.Framework

variable {α : Type*} {next : α → Option α} {p : Option α} {l : List α} {x z : α}

/-- From `p` the pointers meet the nodes of the list, and no others. -/
def Leads (next : α → Option α) : Option α → List α → Prop
  | p, [] => p = none
  | p, a :: l => p = some a ∧ Leads next (next a) l

@[simp] theorem leads_nil : Leads next p [] ↔ p = none := Iff.rfl

@[simp] theorem leads_cons : Leads next p (x :: l) ↔ p = some x ∧ Leads next (next x) l := Iff.rfl

theorem Leads.head? (h : Leads next p l) : p = l.head? := by
  cases l with
  | nil => exact h
  | cons a l => exact h.1

/-- Only the pointers of the nodes met matter. -/
theorem Leads.congr {next' : α → Option α} (h : Leads next p l) (heq : ∀ a ∈ l, next' a = next a) :
    Leads next' p l := by
  induction l generalizing p with
  | nil => exact h
  | cons a l ih =>
    apply And.intro h.1
    rw [heq a List.mem_cons_self]
    exact ih h.2 fun b hb => heq b (List.mem_cons_of_mem a hb)

section Update

variable [DecidableEq α]

theorem Leads.update (h : Leads next p l) (hx : x ∉ l) (v : Option α) :
    Leads (Function.update next x v) p l := by
  apply h.congr
  intro a ha
  exact Function.update_of_ne (ne_of_mem_of_not_mem ha hx) v next

/-- A chain is hung behind the last node of another one. -/
theorem Leads.append {p' : Option α} {m : List α} (h : Leads next p (l ++ [z])) (hnodup : (l ++ [z]).Nodup)
    (hm : Leads next p' m) (hz : z ∉ m) : Leads (Function.update next z p') p (l ++ [z] ++ m) := by
  induction l generalizing p with
  | nil =>
    show p = some z ∧ Leads (Function.update next z p') (Function.update next z p' z) m
    rw [Function.update_self]
    exact ⟨h.1,hm.update hz p'⟩
  | cons a l ih =>
    rw [List.cons_append,List.nodup_cons] at hnodup
    have haz : a ≠ z := by
      rintro rfl
      exact hnodup.1 (List.mem_append_right l (List.mem_singleton_self a))
    apply And.intro h.1
    rw [Function.update_of_ne haz]
    exact ih h.2 hnodup.2

/-- A node that ends a chain of its own is hung behind the last node of another one. -/
theorem Leads.concat (h : Leads next p (l ++ [z])) (hnodup : (l ++ [z]).Nodup) (hend : next x = none)
    (hx : x ∉ l ++ [z]) : Leads (Function.update next z (some x)) p (l ++ [z] ++ [x]) := by
  have hm : Leads next (some x) [x] := ⟨rfl,hend⟩
  apply h.append hnodup hm
  intro hz
  exact hx (List.mem_singleton.mp hz ▸ List.mem_append_right l (List.mem_singleton_self z))

end Update

end Sdssd.Framework
