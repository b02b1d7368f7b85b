import Mathlib.Algebra.BigOperators.Group.List.Basic
import Mathlib.Algebra.GroupWithZero.Nat
import Mathlib.Algebra.Order.Group.Nat

/-!
# Consecutive segments

A list of lengths cuts the numbers from zero into consecutive segments.
-/

namespace Sdssd.Framework

/-- Where segment `k` starts. -/
def offset (lens : List Nat) (k : Nat) : Nat := (lens.take k).sum

variable {lens more : List Nat} {i j k n : Nat}

@[simp] theorem offset_zero : offset lens 0 = 0 := rfl

theorem offset_succ (h : lens[k]? = some n) : offset lens (k + 1) = offset lens k + n := by
  rw [offset,offset,List.take_add_one,h,Option.toList_some,List.sum_append,List.sum_singleton]

theorem offset_length : offset lens lens.length = lens.sum := by
  rw [offset,List.take_length]

theorem offset_of_length_le (h : lens.length ≤ k) : offset lens k = lens.sum := by
  rw [offset,List.take_of_length_le h]

theorem offset_append (h : k ≤ lens.length) : offset (lens ++ more) k = offset lens k := by
  rw [offset,offset,List.take_append_of_le_length h]

theorem offset_mono (h : j ≤ k) : offset lens j ≤ offset lens k := by
  obtain ⟨d,rfl⟩ := Nat.exists_eq_add_of_le h
  rw [offset,offset,List.take_add,List.sum_append]
  exact Nat.le_add_right _ _

theorem offset_le_sum (k : Nat) : offset lens k ≤ lens.sum := by
  rcases Nat.le_total k lens.length with h | h
  · rw [← offset_length]
    exact offset_mono h
  · exact Nat.le_of_eq (offset_of_length_le h)

/-- A segment that is not empty ends after it starts. -/
theorem offset_lt (hpos : ∀ n ∈ lens, 0 < n) (hj : j < k) (hk : j < lens.length) : offset lens j < offset lens k := by
  have hget : lens[j]? = some lens[j] := List.getElem?_eq_getElem hk
  have hstep := offset_succ hget
  have hlen := hpos _ (List.getElem_mem hk)
  have hmono : offset lens (j + 1) ≤ offset lens k := offset_mono hj
  omega

/-- Every number below the sum lies in a segment. -/
theorem exists_segment (hi : i < lens.sum) :
    ∃ k n, lens[k]? = some n ∧ offset lens k ≤ i ∧ i < offset lens k + n := by
  induction lens generalizing i with
  | nil => simp at hi
  | cons a lens ih =>
    rw [List.sum_cons] at hi
    by_cases ha : i < a
    · exact ⟨0,a,rfl,Nat.zero_le i,by simpa using ha⟩
    · obtain ⟨k,n,hk,hle,hlt⟩ := @ih (i - a) (by omega)
      have hcons : offset (a :: lens) (k + 1) = a + offset lens k := by
        rw [offset,List.take_succ_cons,List.sum_cons,offset]
      exact ⟨k + 1,n,hk,by omega,by omega⟩

/-- Two segments that meet are one. -/
theorem segment_unique {m : Nat} (hj : lens[j]? = some m) (hk : lens[k]? = some n)
    (hji : offset lens j ≤ i) (hij : i < offset lens j + m) (hki : offset lens k ≤ i)
    (hik : i < offset lens k + n) : j = k := by
  have hj' := offset_succ hj
  have hk' := offset_succ hk
  rcases Nat.lt_trichotomy j k with h | h | h
  · have hmono : offset lens (j + 1) ≤ offset lens k := offset_mono h
    omega
  · exact h
  · have hmono : offset lens (k + 1) ≤ offset lens j := offset_mono h
    omega

/-- Pieces of `l` laid one after another from its start make up its beginning. -/
theorem flatten_eq_take {α : Type*} {xss : List (List α)} {l : List α} (hlens : lens = xss.map List.length)
    (h : ∀ (k : Nat) xs, xss[k]? = some xs → xs = (l.drop (offset lens k)).take xs.length) :
    xss.flatten = l.take lens.sum := by
  subst hlens
  induction xss generalizing l with
  | nil => simp
  | cons xs xss ih =>
    have hhead : xs = l.take xs.length := h 0 xs rfl
    have htail : xss.flatten = (l.drop xs.length).take (xss.map List.length).sum := by
      apply ih
      intro k ys hk
      have hys := h (k + 1) ys hk
      rw [List.drop_drop]
      exact hys
    rw [List.flatten_cons,htail,List.map_cons,List.sum_cons,List.take_add,← hhead]

/-- Counting over pieces of `l`, some of which may be missing. -/
theorem sum_countP_le {α : Type*} (p : α → Bool) (xss : List (List α)) {l : List α} (hlen : lens.length = xss.length)
    (h : ∀ (k : Nat) xs n, xss[k]? = some xs → lens[k]? = some n → xs = [] ∨ xs = (l.drop (offset lens k)).take n) :
    (xss.map (List.countP p)).sum ≤ (l.take lens.sum).countP p := by
  induction xss generalizing l lens with
  | nil => simp
  | cons xs xss ih =>
    cases lens with
    | nil => simp at hlen
    | cons n lens =>
      have htail : (xss.map (List.countP p)).sum ≤ ((l.drop n).take lens.sum).countP p := by
        apply ih (Nat.succ.inj hlen)
        intro k ys m hk hm
        rw [List.drop_drop]
        exact h (k + 1) ys m hk hm
      have hhead : xs.countP p ≤ (l.take n).countP p := by
        rcases h 0 xs n rfl rfl with rfl | hxs
        · exact Nat.zero_le _
        · rw [hxs]
          exact Nat.le_refl _
      rw [List.map_cons,List.sum_cons,List.sum_cons,List.take_add,List.countP_append]
      exact Nat.add_le_add hhead htail

end Sdssd.Framework
