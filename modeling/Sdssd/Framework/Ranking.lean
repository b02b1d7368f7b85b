import Sdssd.Framework.Overwrite

/-!
# Roles by rank

The first few members of a list of candidates get roles, in order. When candidates drop out the
others move up, so handing out the roles again leaves none with a member that has lost it.
-/

namespace Sdssd.Framework

section Scan

variable {α : Type*} {n : Nat} {l m k : List α}

/-- The first `n` entries agree; a list that differs elsewhere has that many. -/
def AgreeUpTo (n : Nat) (l m : List α) : Prop := l = m ∨ n ≤ l.length ∧ l.take n = m.take n

theorem AgreeUpTo.refl (n : Nat) (l : List α) : AgreeUpTo n l l := Or.inl rfl

theorem AgreeUpTo.take_eq (h : AgreeUpTo n l m) : l.take n = m.take n := by
  rcases h with rfl | h
  · rfl
  · exact h.2

theorem AgreeUpTo.trans (h : AgreeUpTo n l m) (h' : AgreeUpTo n m k) : AgreeUpTo n l k := by
  rcases h with rfl | h
  · exact h'
  · exact Or.inr ⟨h.1,h.2.trans h'.take_eq⟩

theorem AgreeUpTo.append (h : AgreeUpTo n l m) (k : List α) : AgreeUpTo n (l ++ k) (m ++ k) := by
  rcases h with rfl | ⟨hlen,htake⟩
  · exact Or.inl rfl
  · have hm : n ≤ m.length := by
      have hlength := congrArg List.length htake
      rw [List.length_take_of_le hlen,List.length_take] at hlength
      omega
    right
    constructor
    · rw [List.length_append]
      omega
    · rw [List.take_append_of_le_length hlen,List.take_append_of_le_length hm,htake]

end Scan

section Roles

variable {κ β : Type*} [DecidableEq κ] {t : κ → β} {g : List κ} {ρ : List β} {x : κ}

/-- Roles handed out to the first candidates: each finds its own at its position. -/
theorem overwrite_zip (hnodup : g.Nodup) (hx : x ∈ g) :
    overwrite t (g.zip ρ) x = (ρ[g.idxOf x]?).getD (t x) := by
  induction g generalizing t ρ with
  | nil => cases hx
  | cons a g ih =>
    rw [List.nodup_cons] at hnodup
    cases ρ with
    | nil => rfl
    | cons v ρ =>
      rw [List.zip_cons_cons,overwrite_cons]
      by_cases hxa : x = a
      · subst hxa
        have hlater : x ∉ (g.zip ρ).map Prod.fst := by
          intro hmem
          obtain ⟨w,hw,rfl⟩ := List.mem_map.mp hmem
          exact hnodup.1 (List.of_mem_zip hw).1
        rw [overwrite_of_notMem hlater,Function.update_self,List.idxOf_cons_self]
        rfl
      · have hxg := List.mem_of_ne_of_mem hxa hx
        rw [ih hnodup.2 hxg,Function.update_of_ne hxa,List.idxOf_cons_ne g (Ne.symm hxa),
          List.getElem?_cons_succ]

omit [DecidableEq κ] in
/-- One more role goes to the next candidate. -/
theorem zip_concat {a : κ} {v : β} (h : g[ρ.length]? = some a) : g.zip (ρ ++ [v]) = g.zip ρ ++ [(a,v)] := by
  induction ρ generalizing g with
  | nil =>
    cases g with
    | nil => cases h
    | cons b g =>
      cases h
      simp
  | cons w ρ ih =>
    cases g with
    | nil => cases h
    | cons b g =>
      rw [List.cons_append,List.zip_cons_cons,List.zip_cons_cons,ih h,List.cons_append]

theorem overwrite_zip_of_notMem (hx : x ∉ g) : overwrite t (g.zip ρ) x = t x := by
  apply overwrite_of_notMem
  intro hmem
  obtain ⟨w,hw,rfl⟩ := List.mem_map.mp hmem
  exact hx (List.of_mem_zip hw).1

/-- Candidates that stay move up when others drop out. -/
theorem idxOf_filter_le {p : κ → Bool} (hp : p x = true) : (g.filter p).idxOf x ≤ g.idxOf x := by
  induction g with
  | nil => exact Nat.le_refl _
  | cons a g ih =>
    by_cases hxa : x = a
    · subst hxa
      rw [List.filter_cons_of_pos hp,List.idxOf_cons_self]
      exact Nat.zero_le _
    · rw [List.idxOf_cons_ne g (Ne.symm hxa)]
      by_cases ha : p a = true
      · rw [List.filter_cons_of_pos ha,List.idxOf_cons_ne _ (Ne.symm hxa)]
        exact Nat.succ_le_succ ih
      · rw [List.filter_cons_of_neg ha]
        exact Nat.le_trans ih (Nat.le_succ _)

/-- A table that has the roles of the old candidates has those of the remaining ones after they are
handed out again: what is left without a role was without one before. -/
theorem getD_role_filter {p : κ → Bool} {v : β} (hp : p x = true) :
    (ρ[(g.filter p).idxOf x]?).getD ((ρ[g.idxOf x]?).getD v) = (ρ[(g.filter p).idxOf x]?).getD v := by
  by_cases hlt : (g.filter p).idxOf x < ρ.length
  · rw [List.getElem?_eq_getElem hlt]
    rfl
  · have hold : ρ.length ≤ g.idxOf x := Nat.le_trans (Nat.le_of_not_lt hlt) (idxOf_filter_le hp)
    rw [List.getElem?_eq_none (Nat.le_of_not_lt hlt),List.getElem?_eq_none hold]
    rfl

/-- A role is held by the candidate at its place. -/
theorem getD_role_iff {i : Nat} {v w : β} (hnodup : g.Nodup) (hroles : ρ.Nodup) (hx : x ∈ g)
    (hrole : ρ[i]? = some v) (hne : v ≠ w) : (ρ[g.idxOf x]?).getD w = v ↔ g[i]? = some x := by
  have hidx := List.getElem?_idxOf hx
  constructor
  · intro hheld
    cases hget : ρ[g.idxOf x]? with
    | none =>
      rw [hget] at hheld
      exact absurd hheld.symm hne
    | some u =>
      rw [hget,Option.getD_some] at hheld
      obtain ⟨hlt,-⟩ := List.getElem?_eq_some_iff.mp hrole
      have heq : i = g.idxOf x := (List.getElem?_inj hlt hroles).mp (by rw [hrole,hget,hheld])
      rw [heq,hidx]
  · intro hget
    obtain ⟨hlt,-⟩ := List.getElem?_eq_some_iff.mp hget
    have heq : i = g.idxOf x := (List.getElem?_inj hlt hnodup).mp (by rw [hget,hidx])
    rw [← heq,hrole,Option.getD_some]

theorem overwrite_congr {t' : κ → β} {ws : List (κ × β)} (h : t x = t' x) :
    overwrite t ws x = overwrite t' ws x := by
  induction ws generalizing t t' with
  | nil => exact h
  | cons w ws ih =>
    rw [overwrite,overwrite,List.foldl_cons,List.foldl_cons]
    apply ih
    by_cases hx : x = w.1
    · rw [hx,Function.update_self,Function.update_self]
    · rw [Function.update_of_ne hx,Function.update_of_ne hx,h]

/-- Of several groups of writes only the group that has the key matters. -/
theorem overwrite_flatMap {ι : Type*} {f : ι → List (κ × β)} {l : List ι} {i : ι} (hi : i ∈ l)
    (hnodup : l.Nodup) (hothers : ∀ j ∈ l, j ≠ i → x ∉ (f j).map Prod.fst) :
    overwrite t (l.flatMap f) x = overwrite t (f i) x := by
  induction l generalizing t with
  | nil => cases hi
  | cons j l ih =>
    rw [List.nodup_cons] at hnodup
    have hl : ∀ m ∈ l, m ≠ i → x ∉ (f m).map Prod.fst := fun m hm => hothers m (List.mem_cons_of_mem j hm)
    rw [List.flatMap_cons,overwrite_append]
    by_cases hj : j = i
    · subst hj
      apply overwrite_of_notMem
      rw [List.map_flatMap,List.mem_flatMap]
      rintro ⟨m,hm,hx⟩
      exact hl m hm (ne_of_mem_of_not_mem hm hnodup.1) hx
    · rw [ih (List.mem_of_ne_of_mem (Ne.symm hj) hi) hnodup.2 hl]
      exact overwrite_congr (overwrite_of_notMem (hothers j List.mem_cons_self hj))

end Roles

end Sdssd.Framework
