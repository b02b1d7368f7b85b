import Mathlib.Data.Finset.Card
import Mathlib.Algebra.Order.Group.Nat
import Mathlib.Data.List.Basic

/-! # Counting the entries of a table, and sorting a list of pairs by owner -/

namespace Sdssd.Framework

variable {ι β : Type*}

/-- Number of indices in `S` whose entry satisfies `p`. -/
def countWhere (S : Finset ι) (f : ι → β) (p : β → Prop) [DecidablePred p] : Nat :=
  (S.filter fun i => p (f i)).card

variable {S : Finset ι} {f : ι → β} {p : β → Prop} [DecidablePred p] {x : ι} {v : β}

private theorem countWhere_erase [DecidableEq ι] (hx : x ∈ S) :
    countWhere S f p = countWhere (S.erase x) f p + if p (f x) then 1 else 0 := by
  unfold countWhere
  conv_lhs => rw [← Finset.insert_erase hx]
  rw [Finset.filter_insert]
  split
  · rw [Finset.card_insert_of_notMem (by simp)]
  · rw [Nat.add_zero]

theorem countWhere_congr {g : ι → β} (h : ∀ i ∈ S, f i = g i) :
    countWhere S f p = countWhere S g p := by
  unfold countWhere
  congr 1
  apply Finset.filter_congr
  intro i hi
  rw [h i hi]

/-- Overwriting one entry takes its old value out of the count and puts the new one in. -/
theorem countWhere_update [DecidableEq ι] (hx : x ∈ S) :
    countWhere S (Function.update f x v) p + (if p (f x) then 1 else 0) =
      countWhere S f p + if p v then 1 else 0 := by
  have hsame : countWhere (S.erase x) (Function.update f x v) p = countWhere (S.erase x) f p := by
    apply countWhere_congr
    intro i hi
    exact Function.update_of_ne (Finset.ne_of_mem_erase hi) _ _
  rw [countWhere_erase hx,countWhere_erase (f := f) hx,hsame,Function.update_self]
  omega

theorem countWhere_le (S : Finset ι) (f : ι → β) (p : β → Prop) [DecidablePred p] :
    countWhere S f p ≤ S.card :=
  Finset.card_filter_le _ _

theorem countWhere_pos (hx : x ∈ S) (hp : p (f x)) : 0 < countWhere S f p :=
  Finset.card_pos.mpr ⟨x,Finset.mem_filter.mpr ⟨hx,hp⟩⟩

section HeldBy

variable {κ : Type*} [DecidableEq ι] {l m : List (ι × κ)} {e x : ι} {k : κ}

/-- The second components of the pairs that belong to `e`. -/
def heldBy (l : List (ι × κ)) (e : ι) : List κ := (l.filter fun s => s.1 = e).map Prod.snd

@[simp] theorem heldBy_nil : heldBy ([] : List (ι × κ)) e = [] := rfl

@[simp] theorem heldBy_cons_self : heldBy ((e,k) :: l) e = k :: heldBy l e := by
  simp [heldBy]

@[simp] theorem heldBy_cons_of_ne (h : e ≠ x) : heldBy ((e,k) :: l) x = heldBy l x := by
  simp [heldBy,h]

@[simp] theorem mem_heldBy : k ∈ heldBy l e ↔ (e,k) ∈ l := by
  simp [heldBy]

theorem heldBy_append : heldBy (l ++ m) e = heldBy l e ++ heldBy m e := by
  simp [heldBy]

@[simp] theorem heldBy_map_mk (ks : List κ) : heldBy (ks.map fun k => (e,k)) e = ks := by
  induction ks with
  | nil => rfl
  | cons k ks ih => simp [ih]

@[simp] theorem heldBy_map_mk_of_ne (h : e ≠ x) (ks : List κ) :
    heldBy (ks.map fun k => (e,k)) x = [] := by
  induction ks with
  | nil => rfl
  | cons k ks ih => simp [ih,h]

theorem heldBy_perm (h : l.Perm m) (e : ι) : (heldBy l e).Perm (heldBy m e) :=
  (h.filter _).map _

end HeldBy

/-- What the members of a list hold together, seen from one member that is replaced. -/
theorem flatMap_set_perm {γ : Type*} {l : List β} {i : Nat} {c : β} (h : l[i]? = some c)
    (g : β → List γ) :
    ∃ rest, (l.flatMap g).Perm (g c ++ rest) ∧ ∀ c', ((l.set i c').flatMap g).Perm (g c' ++ rest) := by
  induction l generalizing i with
  | nil => simp at h
  | cons a l ih =>
    cases i with
    | zero =>
      obtain rfl : a = c := by simpa using h
      exact ⟨l.flatMap g,by simp,fun c' => by simp⟩
    | succ i =>
      obtain ⟨rest,hold,hnew⟩ := ih (by simpa using h)
      refine ⟨g a ++ rest,?_,fun c' => ?_⟩
      · rw [List.flatMap_cons]
        exact (hold.append_left _).trans (List.perm_append_comm_assoc _ _ _)
      · rw [List.set_cons_succ,List.flatMap_cons]
        exact ((hnew c').append_left _).trans (List.perm_append_comm_assoc _ _ _)

theorem getElem?_set_cases {l : List β} {i k : Nat} {a b : β} (h : (l.set i a)[k]? = some b) :
    k = i ∧ b = a ∨ k ≠ i ∧ l[k]? = some b := by
  rcases eq_or_ne k i with rfl | hk
  · rw [List.getElem?_set_self'] at h
    obtain ⟨x,-,hx⟩ := Option.map_eq_some_iff.mp h
    exact Or.inl ⟨rfl,hx.symm⟩
  · rw [List.getElem?_set_ne (Ne.symm hk)] at h
    exact Or.inr ⟨hk,h⟩

theorem getElem?_set_of_some {l : List β} {i : Nat} {c : β} (h : l[i]? = some c) (a : β) :
    (l.set i a)[i]? = some a := by
  rw [List.getElem?_set_self',h]
  rfl

end Sdssd.Framework
