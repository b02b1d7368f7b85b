import Mathlib.Data.List.Perm.Subperm
import Mathlib.Logic.Function.Basic

/-!
# Families of disjoint lists

The abstract side of containers that share their nodes: every node is in at most one of the lists.
A deque takes elements at both ends and gives them back at the front.
-/

namespace Sdssd.Framework

/-- There are at most as many different numbers as lie below a bound. -/
theorem length_le_of_nodup {l : List Nat} {n : Nat} (hnodup : l.Nodup) (hlt : ∀ i ∈ l, i < n) :
    l.length ≤ n := by
  have hsub : l.Subperm (List.range n) :=
    List.subperm_of_subset hnodup fun i hi => List.mem_range.mpr (hlt i hi)
  rw [← List.length_range (n := n)]
  exact hsub.length_le

variable {κ α : Type*} [DecidableEq κ]

/-- No element is in two of the lists. -/
def Disjointed (a : κ → List α) : Prop := ∀ k k' i, i ∈ a k → i ∈ a k' → k = k'

omit [DecidableEq κ] in
theorem disjointed_nil : Disjointed fun _ : κ => ([] : List α) := by
  intro k k' i hi
  cases hi

/-- A list is replaced by one whose elements were in it before, or in no list. -/
theorem Disjointed.update {a : κ → List α} {k : κ} {l : List α} (h : Disjointed a)
    (hsub : ∀ i ∈ l, i ∈ a k ∨ ∀ k', i ∉ a k') : Disjointed (Function.update a k l) := by
  have hother {k' : κ} {i : α} (hk : k' ≠ k) (hi : i ∈ l) (hi' : i ∈ a k') : False := by
    rcases hsub i hi with hold | hnew
    · exact hk (h k' k i hi' hold)
    · exact hnew k' hi'
  intro k₁ k₂ i h₁ h₂
  by_cases hk₁ : k₁ = k <;> by_cases hk₂ : k₂ = k
  · exact hk₁.trans hk₂.symm
  · rw [hk₁,Function.update_self] at h₁
    rw [Function.update_of_ne hk₂] at h₂
    exact (hother hk₂ h₁ h₂).elim
  · rw [Function.update_of_ne hk₁] at h₁
    rw [hk₂,Function.update_self] at h₂
    exact (hother hk₁ h₂ h₁).elim
  · rw [Function.update_of_ne hk₁] at h₁
    rw [Function.update_of_ne hk₂] at h₂
    exact h k₁ k₂ i h₁ h₂

/-- An operation on one of the deques `κ`. -/
inductive DequeOp (κ α : Type*)
  | enqueue (k : κ) (i : α)
  | enqueueFront (k : κ) (i : α)
  | dequeue (k : κ)

/-- Lists with the operations of deques; only a dequeue gives a result, if there is an element. -/
def dequeStep (a : κ → List α) : DequeOp κ α → Option ((κ → List α) × Option α)
  | .enqueue k i => some (Function.update a k (a k ++ [i]),none)
  | .enqueueFront k i => some (Function.update a k (i :: a k),none)
  | .dequeue k => some (Function.update a k (a k).tail,(a k).head?)

/-- What is enqueued is in none of the deques. -/
def dequeFree (a : κ → List α) : DequeOp κ α → Prop
  | .enqueue _ i | .enqueueFront _ i => ∀ k, i ∉ a k
  | .dequeue _ => True

end Sdssd.Framework
