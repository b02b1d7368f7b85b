import Mathlib.Logic.Function.Basic
import Mathlib.Data.List.Nodup

/-!
# Tables under a list of overwrites

The last write to a key wins.
-/

namespace Sdssd.Framework

variable {κ β : Type*} [DecidableEq κ]

/-- Apply the writes from first to last. -/
def overwrite (t : κ → β) (ws : List (κ × β)) : κ → β :=
  ws.foldl (fun t w => Function.update t w.1 w.2) t

variable {t : κ → β} {ws us : List (κ × β)} {k : κ} {v : β}

@[simp] theorem overwrite_nil : overwrite t [] = t := rfl

theorem overwrite_cons : overwrite t ((k,v) :: ws) = overwrite (Function.update t k v) ws := rfl

theorem overwrite_append : overwrite t (ws ++ us) = overwrite (overwrite t ws) us :=
  List.foldl_append

theorem overwrite_of_notMem (h : k ∉ ws.map Prod.fst) : overwrite t ws k = t k := by
  induction ws generalizing t with
  | nil => rfl
  | cons w ws ih =>
    rw [List.map_cons,List.mem_cons,not_or] at h
    rw [overwrite_cons,ih h.2,Function.update_of_ne h.1]

/-- A key that is written holds one of the values written to it. -/
theorem overwrite_mem (h : k ∈ ws.map Prod.fst) : (k,overwrite t ws k) ∈ ws := by
  induction ws generalizing t with
  | nil => simp at h
  | cons w ws ih =>
    obtain ⟨a,b⟩ := w
    rw [overwrite_cons]
    by_cases hk : k ∈ ws.map Prod.fst
    · exact List.mem_cons_of_mem _ (ih hk)
    · obtain rfl : k = a := by simpa [hk] using h
      rw [overwrite_of_notMem hk,Function.update_self]
      exact List.mem_cons_self

theorem overwrite_cases (t : κ → β) (ws : List (κ × β)) (k : κ) :
    k ∉ ws.map Prod.fst ∧ overwrite t ws k = t k ∨ (k,overwrite t ws k) ∈ ws := by
  by_cases h : k ∈ ws.map Prod.fst
  · exact Or.inr (overwrite_mem h)
  · exact Or.inl ⟨h,overwrite_of_notMem h⟩

/-- With distinct keys every write survives. -/
theorem overwrite_of_mem (hn : (ws.map Prod.fst).Nodup) (h : (k,v) ∈ ws) : overwrite t ws k = v := by
  have hm := overwrite_mem (t := t) (List.mem_map_of_mem (f := Prod.fst) h)
  exact (Prod.mk.inj (List.inj_on_of_nodup_map hn hm h rfl)).2

/-- Overwriting commutes with a map of the values. -/
theorem overwrite_map {γ : Type*} (g : β → γ) (t : κ → β) (ws : List (κ × β)) (k : κ) :
    overwrite (fun k => g (t k)) (ws.map fun w => (w.1,g w.2)) k = g (overwrite t ws k) := by
  induction ws generalizing t with
  | nil => rfl
  | cons w ws ih =>
    obtain ⟨a,b⟩ := w
    rw [List.map_cons,overwrite_cons,overwrite_cons,← ih (Function.update t a b)]
    congr 1
    funext x
    rcases eq_or_ne x a with rfl | hx
    · simp
    · simp [hx]

/-- A loop that rewrites the entries below `m` one after another. -/
theorem foldl_update_range (f : β → β) (t : Nat → β) (m j : Nat) :
    (List.range m).foldl (fun t i => Function.update t i (f (t i))) t j =
      if j < m then f (t j) else t j := by
  induction m generalizing j with
  | zero => rfl
  | succ m ih =>
    rw [List.range_succ,List.foldl_append,List.foldl_cons,List.foldl_nil]
    by_cases hj : j = m
    · rw [hj,Function.update_self,ih,if_neg (Nat.lt_irrefl m),if_pos (Nat.lt_succ_self m)]
    · have hiff : j < m + 1 ↔ j < m := by omega
      rw [Function.update_of_ne hj,ih]
      simp only [hiff]

end Sdssd.Framework
