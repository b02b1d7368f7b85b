import Mathlib.Logic.Relation

/-!
# Guarded runs of a partial step function

A system is a state type with a partial step function; the label says which party moves.
Runs are Mathlib's reflexive transitive closure of one guarded step, so a safety statement is
an initial fact and one step lemma.
-/

namespace Sdssd.Framework

variable {σ Λ : Type*}

/-- One step whose label meets the guard in the state it starts from. -/
def Move (step : σ → Λ → Option σ) (ok : σ → Λ → Prop) (s t : σ) : Prop :=
  ∃ l, ok s l ∧ step s l = some t

/-- A finite run, every step of which meets the guard. -/
def Reaches (step : σ → Λ → Option σ) (ok : σ → Λ → Prop) : σ → σ → Prop :=
  Relation.ReflTransGen (Move step ok)

/-- The guard of unrestricted runs. -/
def always (_ : σ) (_ : Λ) : Prop := True

namespace Reaches

variable {step : σ → Λ → Option σ} {ok ok' : σ → Λ → Prop} {s t u : σ}

theorem refl (s : σ) : Reaches step ok s s := Relation.ReflTransGen.refl

theorem trans (h : Reaches step ok s t) (k : Reaches step ok t u) : Reaches step ok s u :=
  Relation.ReflTransGen.trans h k

theorem tail (h : Reaches step ok s t) {l : Λ} (hok : ok t l) (hl : step t l = some u) :
    Reaches step ok s u :=
  Relation.ReflTransGen.tail h ⟨l,hok,hl⟩

theorem single {l : Λ} (hok : ok s l) (hl : step s l = some t) : Reaches step ok s t :=
  (refl s).tail hok hl

theorem mono (hle : ∀ s l, ok s l → ok' s l) (h : Reaches step ok s t) : Reaches step ok' s t :=
  Relation.ReflTransGen.mono (fun _ _ ⟨l,hok,hl⟩ => ⟨l,hle _ _ hok,hl⟩) s t h

/-- What holds initially and survives every guarded step holds along the whole run. -/
theorem invariant (P : σ → Prop) (h0 : P s)
    (hstep : ∀ t l u, P t → ok t l → step t l = some u → P u)
    (h : Reaches step ok s t) : P t := by
  induction h with
  | refl => exact h0
  | tail _ hmove ih =>
    obtain ⟨l,hok,hl⟩ := hmove
    exact hstep _ l _ ih hok hl

/-- A run meets a second guard when an invariant of the run implies it. -/
theorem strengthen (P : σ → Prop) (h0 : P s)
    (hstep : ∀ t l u, P t → ok t l → step t l = some u → P u)
    (hok : ∀ t l, P t → ok t l → ok' t l) (h : Reaches step ok s t) : Reaches step ok' s t := by
  suffices hboth : P t ∧ Reaches step ok' s t from hboth.2
  induction h with
  | refl => exact ⟨h0,refl s⟩
  | tail _ hmove ih =>
    obtain ⟨l,hl,hs⟩ := hmove
    exact ⟨hstep _ l _ ih.1 hl hs,ih.2.tail (hok _ l ih.1 hl) hs⟩

/-- A run projects along a map of states when every step projects to a run. -/
theorem project {τ M : Type*} {step' : τ → M → Option τ} {okp : τ → M → Prop} (f : σ → τ)
    (hstep : ∀ t l u, ok t l → step t l = some u → Reaches step' okp (f t) (f u))
    (h : Reaches step ok s t) : Reaches step' okp (f s) (f t) := by
  induction h with
  | refl => exact refl _
  | tail _ hmove ih =>
    obtain ⟨l,hok,hl⟩ := hmove
    exact ih.trans (hstep _ l _ hok hl)

/-- A list of labels that can all be executed is a run. -/
theorem of_foldlM {ls : List Λ} (h : ls.foldlM step s = some t) : Reaches step always s t := by
  induction ls generalizing s with
  | nil =>
    rw [List.foldlM_nil] at h
    exact Option.some.inj h ▸ refl s
  | cons l ls ih =>
    rw [List.foldlM_cons] at h
    cases hl : step s l with
    | none => simp [hl] at h
    | some u =>
      rw [hl] at h
      exact (single trivial hl).trans (ih h)

/-- The same for a run whose guard is checked on the way. -/
theorem of_foldlM_checked {check : σ → Λ → Bool} (hcheck : ∀ s l, check s l = true → ok s l) {ls : List Λ}
    (h : ls.foldlM (fun s l => if check s l then step s l else none) s = some t) : Reaches step ok s t := by
  induction ls generalizing s with
  | nil =>
    rw [List.foldlM_nil] at h
    exact Option.some.inj h ▸ refl s
  | cons l ls ih =>
    rw [List.foldlM_cons] at h
    obtain ⟨u,hl,hrest⟩ := Option.bind_eq_some_iff.mp h
    split at hl
    · exact (single (hcheck s l ‹_›) hl).trans (ih hrest)
    · cases hl

end Reaches

end Sdssd.Framework
