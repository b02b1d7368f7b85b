import Mathlib.Data.Nat.Nth

/-!
# Walking along an order of items

Items are visited one after another, `next` giving the following one. Those with a property are
numbered by `Nat.nth` from where the walk starts, and a walk that starts again where another one
stopped goes on with the numbers of the first.
-/

namespace Sdssd.Framework

variable {α : Type*} {next : α → α} {p : α → Prop} {x : α}

/-- Item number `i` of the walk from `x`. -/
def itemAt (next : α → α) (x : α) (i : Nat) : α := next^[i] x

@[simp] theorem itemAt_zero : itemAt next x 0 = x := rfl

theorem itemAt_succ (i : Nat) : itemAt next x (i + 1) = next (itemAt next x i) :=
  Function.iterate_succ_apply' next i x

theorem itemAt_itemAt (i j : Nat) : itemAt next (itemAt next x i) j = itemAt next x (i + j) := by
  rw [itemAt,itemAt,itemAt,Nat.add_comm,Function.iterate_add_apply]

/-- The property comes up again and again. -/
def Recurs (next : α → α) (p : α → Prop) (x : α) : Prop := ∀ i, ∃ j, i ≤ j ∧ p (itemAt next x j)

theorem Recurs.infinite (h : Recurs next p x) : (Set.ofPred fun i => p (itemAt next x i)).Infinite := by
  apply Set.infinite_of_forall_exists_gt
  intro i
  obtain ⟨j,hle,hp⟩ := h (i + 1)
  exact ⟨j,hp,hle⟩

theorem Recurs.later (h : Recurs next p x) (k : Nat) : Recurs next p (itemAt next x k) := by
  intro i
  obtain ⟨j,hle,hp⟩ := h (k + i)
  refine ⟨j - k,by omega,?_⟩
  rw [itemAt_itemAt,Nat.add_sub_cancel' (by omega)]
  exact hp

/-- Item number `n` with the property. -/
noncomputable def nthItem (next : α → α) (p : α → Prop) (x : α) (n : Nat) : α :=
  itemAt next x (Nat.nth (fun i => p (itemAt next x i)) n)

/-- From item number `n` with the property on, the numbers go on. -/
theorem nthItem_nthItem (h : Recurs next p x) (n j : Nat) :
    nthItem next p (nthItem next p x n) j = nthItem next p x (n + j) := by
  classical
  let q i := p (itemAt next x i)
  have hq : (Set.ofPred q).Infinite := h.infinite
  have hlater : (Set.ofPred fun i => p (itemAt next (nthItem next p x n) i)).Infinite :=
    (h.later (Nat.nth q n)).infinite
  have hshift : (fun i => p (itemAt next (nthItem next p x n) i)) = fun i => q (Nat.nth q n + i) := by
    funext i
    rw [nthItem,itemAt_itemAt]
  rw [hshift] at hlater
  have hmem : q (Nat.nth q n + Nat.nth (fun i => q (Nat.nth q n + i)) j) :=
    Nat.nth_mem_of_infinite hlater j
  have hcount : Nat.count q (Nat.nth q n + Nat.nth (fun i => q (Nat.nth q n + i)) j) = n + j := by
    rw [Nat.count_add,Nat.count_nth_of_infinite hq,Nat.count_nth_of_infinite hlater]
  have hnth := Nat.nth_count hmem
  rw [hcount] at hnth
  rw [nthItem,hshift,nthItem,itemAt_itemAt,nthItem,← hnth]

/-- An order without repetitions numbers different items. -/
theorem nthItem_injective (h : Recurs next p x) (hinj : Function.Injective (itemAt next x)) :
    Function.Injective (nthItem next p x) :=
  hinj.comp (Nat.nth_injective h.infinite)

end Sdssd.Framework
