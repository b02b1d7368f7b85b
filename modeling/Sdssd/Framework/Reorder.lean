import Mathlib.Data.List.Nodup

/-!
# Retiring in order what finishes in any order

Numbered items finish in any order and are retired in the order of their numbers. An item that finishes
before an earlier one waits. `next` is the first item that has not been retired, `done` are the
items that have finished.
-/

namespace Sdssd.Framework

/-- Everything below `next` has finished and `next` has not; what finished beyond it waits. -/
structure InOrder (next : Nat) (waiting done : List Nat) : Prop where
  below : ∀ k, k < next → k ∈ done
  next_notMem : next ∉ done
  waiting_iff : ∀ k, k ∈ waiting ↔ next < k ∧ k ∈ done
  nodup : waiting.Nodup

/-- While waiting items are being retired, `next` itself may be one of them. -/
structure Retiring (next : Nat) (waiting done : List Nat) : Prop where
  below : ∀ k, k < next → k ∈ done
  waiting_iff : ∀ k, k ∈ waiting ↔ next ≤ k ∧ k ∈ done
  nodup : waiting.Nodup

variable {next k : Nat} {waiting done : List Nat}

theorem InOrder.nil : InOrder 0 [] [] where
  below k hk := absurd hk (Nat.not_lt_zero k)
  next_notMem := by simp
  waiting_iff := by simp
  nodup := List.nodup_nil

/-- The item all others wait for finishes. -/
theorem InOrder.finish_next (h : InOrder next waiting done) : Retiring (next + 1) waiting (done ++ [next]) where
  below k hk := by
    rcases Nat.lt_succ_iff_lt_or_eq.mp hk with hlt | rfl
    · exact List.mem_append_left _ (h.below k hlt)
    · exact List.mem_append_right _ List.mem_cons_self
  waiting_iff k := by
    rw [h.waiting_iff,List.mem_append,List.mem_singleton]
    constructor
    · intro hk
      exact ⟨hk.1,Or.inl hk.2⟩
    · intro hk
      refine ⟨hk.1,hk.2.resolve_right ?_⟩
      omega
  nodup := h.nodup

/-- A later item finishes and waits. -/
theorem InOrder.finish_later (h : InOrder next waiting done) (hk : next < k) (hnew : k ∉ done) :
    InOrder next (waiting ++ [k]) (done ++ [k]) where
  below j hj := List.mem_append_left _ (h.below j hj)
  next_notMem := by
    rw [List.mem_append,List.mem_singleton]
    intro hmem
    rcases hmem with hmem | rfl
    · exact h.next_notMem hmem
    · exact Nat.lt_irrefl _ hk
  waiting_iff j := by
    rw [List.mem_append,List.mem_append,List.mem_singleton,h.waiting_iff]
    constructor
    · rintro (hj | rfl)
      · exact ⟨hj.1,Or.inl hj.2⟩
      · exact ⟨hk,Or.inr rfl⟩
    · rintro ⟨hj,hmem | rfl⟩
      · exact Or.inl ⟨hj,hmem⟩
      · exact Or.inr rfl
  nodup := by
    rw [List.nodup_append]
    refine ⟨h.nodup,List.nodup_singleton k,?_⟩
    intro a ha b hb
    rw [List.mem_singleton] at hb
    rintro rfl
    exact hnew (hb ▸ ((h.waiting_iff a).mp ha).2)

theorem Retiring.pop (h : Retiring next waiting done) (hnext : next ∈ waiting) :
    Retiring (next + 1) (waiting.erase next) done where
  below k hk := by
    rcases Nat.lt_succ_iff_lt_or_eq.mp hk with hlt | rfl
    · exact h.below k hlt
    · exact ((h.waiting_iff k).mp hnext).2
  waiting_iff k := by
    rw [h.nodup.mem_erase_iff,h.waiting_iff]
    constructor
    · rintro ⟨hne,hle,hmem⟩
      exact ⟨by omega,hmem⟩
    · rintro ⟨hle,hmem⟩
      exact ⟨by omega,by omega,hmem⟩
  nodup := h.nodup.erase next

theorem Retiring.settle (h : Retiring next waiting done) (hnext : next ∉ waiting) : InOrder next waiting done where
  below := h.below
  next_notMem hmem := hnext ((h.waiting_iff next).mpr ⟨Nat.le_refl next,hmem⟩)
  waiting_iff k := by
    rw [h.waiting_iff]
    constructor
    · rintro ⟨hle,hmem⟩
      rcases Nat.lt_or_eq_of_le hle with hlt | rfl
      · exact ⟨hlt,hmem⟩
      · exact absurd ((h.waiting_iff next).mpr ⟨hle,hmem⟩) hnext
    · rintro ⟨hlt,hmem⟩
      exact ⟨Nat.le_of_lt hlt,hmem⟩
  nodup := h.nodup

/-- What is due by `a + n` is what is due by `a` and what becomes due one step after another. -/
theorem filter_due_perm {α : Type*} (l : List α) (due : α → Nat) (a n : Nat) :
    (l.filter fun x => decide (due x ≤ a + n)).Perm
      ((l.filter fun x => decide (due x ≤ a)) ++
        (List.range n).flatMap fun j => l.filter fun x => decide (due x = a + j + 1)) := by
  induction n with
  | zero => simp
  | succ n ih =>
    have hsplit := List.filter_append_perm (fun x => decide (due x ≤ a + n))
      (l.filter fun x => decide (due x ≤ a + (n + 1)))
    rw [List.filter_filter,List.filter_filter] at hsplit
    have hbefore : (l.filter fun x => decide (due x ≤ a + n) && decide (due x ≤ a + (n + 1))) =
        l.filter fun x => decide (due x ≤ a + n) := by
      apply List.filter_congr
      intro x _
      by_cases hx : due x ≤ a + n
      · have hx' : due x ≤ a + (n + 1) := by omega
        simp [hx,hx']
      · simp [hx]
    have hlast : (l.filter fun x => !decide (due x ≤ a + n) && decide (due x ≤ a + (n + 1))) =
        l.filter fun x => decide (due x = a + n + 1) := by
      apply List.filter_congr
      intro x _
      rw [Bool.eq_iff_iff]
      simp only [Bool.and_eq_true,Bool.not_eq_true',decide_eq_false_iff_not,decide_eq_true_eq]
      omega
    rw [hbefore,hlast] at hsplit
    rw [List.range_succ,List.flatMap_append,List.flatMap_singleton,← List.append_assoc]
    exact hsplit.symm.trans (ih.append_right _)

end Sdssd.Framework
