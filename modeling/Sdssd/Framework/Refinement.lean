import Mathlib.Logic.Basic

/-!
# Sequences of operations with results

Two systems offer the same operations. When one step of the first is matched by one step of the
second with the same result, so is every sequence that the second admits.
-/

namespace Sdssd.Framework

variable {σ τ Op Out : Type*}

/-- The results of a sequence of operations and the state it ends in. -/
def runOps (step : σ → Op → Option (σ × Out)) : σ → List Op → Option (σ × List Out)
  | s, [] => some (s,[])
  | s, op :: ops => (step s op).bind fun r => (runOps step r.1 ops).map fun t => (t.1,r.2 :: t.2)

/-- All operations of the sequence meet the guard where they are called. -/
def Admits (step : σ → Op → Option (σ × Out)) (ok : σ → Op → Prop) : σ → List Op → Prop
  | _, [] => True
  | s, op :: ops => ok s op ∧ ∀ s' o, step s op = some (s',o) → Admits step ok s' ops

theorem Admits.cons {step : σ → Op → Option (σ × Out)} {ok : σ → Op → Prop} {s s' : σ} {o : Out} {op : Op}
    {ops : List Op} (hok : ok s op) (hs : step s op = some (s',o)) (hrest : Admits step ok s' ops) :
    Admits step ok s (op :: ops) := by
  apply And.intro hok
  intro t u ht
  rw [hs] at ht
  cases ht
  exact hrest

theorem Admits.mono {step : σ → Op → Option (σ × Out)} {ok ok' : σ → Op → Prop} {s : σ} {ops : List Op}
    (h : Admits step ok s ops) (hle : ∀ s, ∀ op ∈ ops, ok s op → ok' s op) : Admits step ok' s ops := by
  induction ops generalizing s with
  | nil => trivial
  | cons op ops ih =>
    refine ⟨hle s op List.mem_cons_self h.1,?_⟩
    intro s' o hs'
    exact ih (h.2 s' o hs') fun t op' hop' => hle t op' (List.mem_cons_of_mem op hop')

theorem runOps_refines {impl : σ → Op → Option (σ × Out)} {spec : τ → Op → Option (τ × Out)}
    {ok : τ → Op → Prop} (R : σ → τ → Prop)
    (hstep : ∀ c a op, R c a → ok a op →
      ∃ c' a' o, impl c op = some (c',o) ∧ spec a op = some (a',o) ∧ R c' a')
    {c : σ} {a : τ} {ops : List Op} (hR : R c a) (hops : Admits spec ok a ops) :
    ∃ c' a' os, runOps impl c ops = some (c',os) ∧ runOps spec a ops = some (a',os) ∧ R c' a' := by
  induction ops generalizing c a with
  | nil => exact ⟨c,a,[],rfl,rfl,hR⟩
  | cons op ops ih =>
    obtain ⟨c₁,a₁,o,himpl,hspec,hR₁⟩ := hstep c a op hR hops.1
    obtain ⟨c',a',os,hc',ha',hR'⟩ := ih hR₁ (hops.2 a₁ o hspec)
    refine ⟨c',a',o :: os,?_,?_,hR'⟩
    · rw [runOps,himpl,Option.bind_some,hc']
      rfl
    · rw [runOps,hspec,Option.bind_some,ha']
      rfl

section Rel

variable {α β γ δ : Type*} {r : α → β → Prop} {q : γ → δ → Prop} {x : Option α} {y : Option β}

theorem relBind {f : α → Option γ} {g : β → Option δ} (h : Option.Rel r x y)
    (hfg : ∀ a b, x = some a → r a b → Option.Rel q (f a) (g b)) :
    Option.Rel q (x.bind f) (y.bind g) := by
  cases h with
  | none => exact Option.Rel.none
  | some h => exact hfg _ _ rfl h

theorem relMap {f : α → γ} {g : β → δ} (h : Option.Rel r x y) (hfg : ∀ a b, r a b → q (f a) (g b)) :
    Option.Rel q (x.map f) (y.map g) := by
  cases h with
  | none => exact Option.Rel.none
  | some h => exact Option.Rel.some (hfg _ _ h)

end Rel

/-- Both systems stop, or both give the same result and stay related. -/
abbrev SameResult (R : σ → τ → Prop) : Option (σ × Out) → Option (τ × Out) → Prop :=
  Option.Rel fun x y => R x.1 y.1 ∧ x.2 = y.2

/-- A guard on the states of the first system: it does what the second one does, stops included. -/
theorem runOps_sameResult {impl : σ → Op → Option (σ × Out)} {spec : τ → Op → Option (τ × Out)}
    {ok : σ → Op → Prop} (R : σ → τ → Prop)
    (hstep : ∀ c a op, R c a → ok c op → SameResult R (impl c op) (spec a op))
    {c : σ} {a : τ} {ops : List Op} (hR : R c a) (hops : Admits impl ok c ops) :
    SameResult R (runOps impl c ops) (runOps spec a ops) := by
  induction ops generalizing c a with
  | nil => exact Option.Rel.some ⟨hR,rfl⟩
  | cons op ops ih =>
    have hop := hstep c a op hR hops.1
    rw [runOps,runOps]
    apply relBind hop
    intro x y hx hxy
    rw [hxy.2]
    apply relMap (ih hxy.1 (hops.2 x.1 x.2 hx))
    intro u v huv
    exact ⟨huv.1,congrArg _ huv.2⟩

theorem SameResult.results {R : σ → τ → Prop} {x : Option (σ × Out)} {y : Option (τ × Out)}
    (h : SameResult R x y) : x.map Prod.snd = y.map Prod.snd := by
  cases h with
  | none => rfl
  | some h => exact congrArg some h.2

end Sdssd.Framework
