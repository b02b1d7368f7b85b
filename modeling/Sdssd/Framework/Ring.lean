import Mathlib.Data.Nat.ModEq
import Mathlib.Logic.Function.Basic

/-!
# Cursors into a ring

A ring of a power of two of cells is addressed by cursors that are masked to the number of cells. The
cursors are the residues of counters that never wrap; the differences the masked cursors give are
those of the counters as long as the counters stay within one revolution of each other.
-/

namespace Sdssd.Framework

/-- The number of cells of a ring is a power of two that an unsigned int can hold. -/
structure RingSize where
  order : Nat
  order_lt : order < 32
  deriving DecidableEq, Repr

namespace RingSize

variable (r : RingSize)

def cells : Nat := 2 ^ r.order

/-- A position masked into the ring. -/
def wrap (pos : Nat) : Nat := pos &&& (r.cells - 1)

/-- Cells from `tail` up to `head`, in unsigned arithmetic. -/
def count (head tail : Nat) : Nat := (head + 2 ^ 32 - tail) % 2 ^ 32 &&& (r.cells - 1)

/-- Cells that can be filled from `head` before it meets `tail`; one cell stays free. -/
def space (head tail : Nat) : Nat := r.count tail (head + 1)

theorem cells_pos : 0 < r.cells := Nat.two_pow_pos r.order

theorem cells_dvd : r.cells ∣ 2 ^ 32 := Nat.pow_dvd_pow 2 (Nat.le_of_lt r.order_lt)

theorem wrap_eq (pos : Nat) : r.wrap pos = pos % r.cells := Nat.and_two_pow_sub_one_eq_mod pos r.order

theorem wrap_lt (pos : Nat) : r.wrap pos < r.cells := by
  rw [wrap_eq]
  exact Nat.mod_lt _ r.cells_pos

theorem wrap_add (pos n : Nat) : r.wrap (r.wrap pos + n) = r.wrap (pos + n) := by
  simp only [wrap_eq,Nat.mod_add_mod]

theorem wrap_wrap (pos : Nat) : r.wrap (r.wrap pos) = r.wrap pos := r.wrap_add pos 0

theorem wrap_add_cells (pos : Nat) : r.wrap (pos + r.cells) = r.wrap pos := by
  rw [wrap_eq,wrap_eq,Nat.add_mod_right]

/-- Stepping one cell at a time. -/
theorem iterate_wrap (pos n : Nat) : (fun p => r.wrap (p + 1))^[n] (r.wrap pos) = r.wrap (pos + n) := by
  induction n generalizing pos with
  | zero => rfl
  | succ n ih =>
    rw [Function.iterate_succ_apply,wrap_add,ih]
    congr 1
    omega

theorem count_eq (head tail : Nat) : r.count head tail = (head + 2 ^ 32 - tail) % r.cells := by
  rw [count,cells,Nat.and_two_pow_sub_one_eq_mod]
  exact Nat.mod_mod_of_dvd _ r.cells_dvd

variable {r} {t h i j l : Nat}

/-- The residues of two counters within one revolution: the later one is past the end or not. -/
theorem residue_cases (hth : t ≤ h) (hlt : h - t < r.cells) :
    h % r.cells = t % r.cells + (h - t) ∧ t % r.cells + (h - t) < r.cells ∨
      h % r.cells + r.cells = t % r.cells + (h - t) := by
  have htN := Nat.mod_lt t r.cells_pos
  have hsum : h % r.cells = (t % r.cells + (h - t)) % r.cells := by
    rw [Nat.mod_add_mod,Nat.add_sub_cancel' hth]
  by_cases hwrap : t % r.cells + (h - t) < r.cells
  · exact Or.inl ⟨hsum.trans (Nat.mod_eq_of_lt hwrap),hwrap⟩
  · right
    rw [hsum,Nat.mod_eq_sub_mod (Nat.le_of_not_lt hwrap),Nat.mod_eq_of_lt (by omega)]
    omega

theorem count_wrap (hth : t ≤ h) (hlt : h - t < r.cells) : r.count (r.wrap h) (r.wrap t) = h - t := by
  rw [count_eq,wrap_eq,wrap_eq]
  have htN := Nat.mod_lt t r.cells_pos
  obtain ⟨q,hq⟩ := r.cells_dvd
  have hq1 : 1 ≤ q := by
    rcases q with _ | q
    · simp at hq
    · omega
  obtain ⟨p,rfl⟩ : ∃ p, q = p + 1 := ⟨q - 1,by omega⟩
  rw [hq]
  rcases residue_cases hth hlt with ⟨hres,_⟩ | hres
  · have heq : h % r.cells + r.cells * (p + 1) - t % r.cells = (h - t) + r.cells * (p + 1) := by omega
    rw [heq,Nat.add_mul_mod_self_left,Nat.mod_eq_of_lt hlt]
  · have heq : h % r.cells + r.cells * (p + 1) - t % r.cells = (h - t) + r.cells * p := by
      rw [Nat.mul_succ]
      omega
    rw [heq,Nat.add_mul_mod_self_left,Nat.mod_eq_of_lt hlt]

theorem space_wrap (hth : t ≤ h) (hlt : h - t < r.cells) :
    r.space (r.wrap h) (r.wrap t) = r.cells - 1 - (h - t) := by
  rw [space,count_eq,wrap_eq,wrap_eq]
  have htN := Nat.mod_lt t r.cells_pos
  have hhN := Nat.mod_lt h r.cells_pos
  have hrest : r.cells - 1 - (h - t) < r.cells := by omega
  obtain ⟨q,hq⟩ := r.cells_dvd
  have hq1 : 1 ≤ q := by
    rcases q with _ | q
    · simp at hq
    · omega
  obtain ⟨p,rfl⟩ : ∃ p, q = p + 1 := ⟨q - 1,by omega⟩
  rw [hq,Nat.mul_succ]
  rcases residue_cases hth hlt with ⟨hres,_⟩ | hres
  · have heq : t % r.cells + (r.cells * p + r.cells) - (h % r.cells + 1) =
        (r.cells - 1 - (h - t)) + r.cells * p := by omega
    rw [heq,Nat.add_mul_mod_self_left,Nat.mod_eq_of_lt hrest]
  · have heq : t % r.cells + (r.cells * p + r.cells) - (h % r.cells + 1) =
        (r.cells - 1 - (h - t)) + r.cells * (p + 1) := by
      rw [Nat.mul_succ]
      omega
    rw [heq,Nat.add_mul_mod_self_left,Nat.mod_eq_of_lt hrest]

/-- Within one revolution every cell is met once. -/
theorem wrap_inj (hi : l ≤ i) (hi' : i < l + r.cells) (hj : l ≤ j) (hj' : j < l + r.cells)
    (h : r.wrap i = r.wrap j) : i = j := by
  rw [wrap_eq,wrap_eq] at h
  rcases Nat.le_total i j with hij | hij
  · rcases residue_cases (r := r) hij (by omega) with ⟨hres,_⟩ | hres <;> omega
  · rcases residue_cases (r := r) hij (by omega) with ⟨hres,_⟩ | hres <;> omega

theorem wrap_ne (hi : l ≤ i) (hi' : i < l + r.cells) (hj : l ≤ j) (hj' : j < l + r.cells) (hne : i ≠ j) :
    r.wrap i ≠ r.wrap j := by
  intro heq
  exact hne (wrap_inj hi hi' hj hj' heq)

/-- The cell before a masked position. -/
theorem wrap_pred (hi : 0 < i) : (if r.wrap i = 0 then r.cells - 1 else r.wrap i - 1) = r.wrap (i - 1) := by
  have hcells := r.cells_pos
  have hlt := r.wrap_lt i
  have hlt' := r.wrap_lt (i - 1)
  have hstep : r.wrap i = r.wrap (r.wrap (i - 1) + 1) := by
    rw [wrap_add,Nat.sub_add_cancel hi]
  rcases Nat.lt_or_ge (r.wrap (i - 1) + 1) r.cells with hin | hlast
  · rw [r.wrap_eq (r.wrap (i - 1) + 1),Nat.mod_eq_of_lt hin] at hstep
    rw [if_neg (by omega)]
    omega
  · have hend : r.wrap (i - 1) + 1 = r.cells := by omega
    rw [hend,r.wrap_eq r.cells,Nat.mod_self] at hstep
    rw [if_pos hstep]
    omega

/-- Every cell is met within one revolution. -/
theorem exists_wrap (l : Nat) {c : Nat} (hc : c < r.cells) : ∃ i, l ≤ i ∧ i < l + r.cells ∧ r.wrap i = c := by
  have hl := Nat.mod_lt l r.cells_pos
  have hsplit := Nat.mod_add_div l r.cells
  by_cases hle : l % r.cells ≤ c
  · refine ⟨l + (c - l % r.cells),by omega,by omega,?_⟩
    have heq : l + (c - l % r.cells) = c + r.cells * (l / r.cells) := by omega
    rw [wrap_eq,heq,Nat.add_mul_mod_self_left,Nat.mod_eq_of_lt hc]
  · refine ⟨l + (r.cells + c - l % r.cells),by omega,by omega,?_⟩
    have heq : l + (r.cells + c - l % r.cells) = c + r.cells * (l / r.cells + 1) := by
      rw [Nat.mul_succ]
      omega
    rw [wrap_eq,heq,Nat.add_mul_mod_self_left,Nat.mod_eq_of_lt hc]

section Sweep

variable {β : Type*} {g : Nat → β → β} {n v : Nat} {t u : Nat → β}

/-- The `n` cells from counter `v` on have been rewritten by `g`, the others are as before. -/
structure Swept (r : RingSize) (g : Nat → β → β) (n v : Nat) (t u : Nat → β) : Prop where
  inside : ∀ i, v ≤ i → i < v + n → u (r.wrap i) = g i (t (r.wrap i))
  outside : ∀ p, (∀ i, v ≤ i → i < v + n → p ≠ r.wrap i) → u p = t p

theorem Swept.zero : r.Swept g 0 v t t where
  inside i hi hi' := absurd hi' (by omega)
  outside _ _ := rfl

/-- A loop that rewrites the cell at `v` and goes on from `v + 1` sweeps, if it stays within one
revolution. -/
theorem Swept.cons (hn : n < r.cells)
    (h : r.Swept g n (v + 1) (Function.update t (r.wrap v) (g v (t (r.wrap v)))) u) :
    r.Swept g (n + 1) v t u where
  inside i hi hi' := by
    rcases Nat.eq_or_lt_of_le hi with rfl | hlt
    · have hout : ∀ j, v + 1 ≤ j → j < v + 1 + n → r.wrap v ≠ r.wrap j := by
        intro j hj hj' heq
        have hvj : v = j := wrap_inj (l := v) (Nat.le_refl v) (by omega) (by omega) (by omega) heq
        omega
      rw [h.outside _ hout,Function.update_self]
    · have hne : r.wrap i ≠ r.wrap v := by
        intro heq
        have hiv : i = v := wrap_inj (l := v) (by omega) (by omega) (Nat.le_refl v) (by omega) heq
        omega
      rw [h.inside i hlt (by omega),Function.update_of_ne hne]
  outside p hp := by
    rw [h.outside p fun i hi hi' => hp i (by omega) (by omega),
      Function.update_of_ne (hp v (Nat.le_refl v) (by omega))]

end Sweep

end RingSize

end Sdssd.Framework
