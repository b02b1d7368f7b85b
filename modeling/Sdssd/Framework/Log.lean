import Mathlib.Data.List.Basic

/-!
# Logs with a rule for each entry

A run records what it does in a list, newest entry last. A rule says which entries may follow which
logs; a log is allowed when every entry of it is allowed by the entries before it.
-/

namespace Sdssd.Framework

variable {ε : Type*}

/-- Every entry of the log obeys the rule, given the entries before it. -/
def Allowed (rule : List ε → ε → Prop) (log : List ε) : Prop :=
  ∀ before e after, log = before ++ e :: after → rule before e

namespace Allowed

variable {rule : List ε → ε → Prop} {log : List ε} {e : ε}

theorem nil : Allowed rule [] := by
  intro before e after h
  simp at h

theorem snoc (h : Allowed rule log) (he : rule log e) : Allowed rule (log ++ [e]) := by
  intro before x after hsplit
  -- the split is either at the new entry or inside the old log
  rcases List.eq_nil_or_concat after with rfl | ⟨after,y,rfl⟩
  · have hinj := List.append_inj' hsplit rfl
    rw [← hinj.1,← (List.cons.inj hinj.2).1]
    exact he
  · rw [List.concat_eq_append,← List.cons_append,← List.append_assoc] at hsplit
    exact h before x after (List.append_inj' hsplit rfl).1

end Allowed

end Sdssd.Framework
