import Mathlib.Logic.Relation
import Mathlib.Data.Option.Defs

/-! # Runs of a partial labelled machine

A machine is a partial step function: `none` means that the label is not
enabled or that the step has no defined outcome. `Reaches` collects the states
of all runs whose every step meets a condition on the state before it.
-/
namespace VfuKvssd.Foundations

variable {σ ε : Type*}

/-- States reached from `s` by steps that each satisfy `C` in the state before them. -/
inductive Reaches (step : σ → ε → Option σ) (C : σ → ε → Prop) (s : σ) : σ → Prop
  | refl : Reaches step C s s
  | tail {t u : σ} (e : ε) : Reaches step C s t → C t e → step t e = some u → Reaches step C s u

namespace Reaches
variable {step : σ → ε → Option σ} {C D : σ → ε → Prop} {s t u : σ}

theorem single (e : ε) (hc : C s e) (h : step s e = some t) : Reaches step C s t :=
  .tail e .refl hc h

theorem trans (h₁ : Reaches step C s t) (h₂ : Reaches step C t u) : Reaches step C s u := by
  induction h₂ with
  | refl => exact h₁
  | tail e _ hc hs ih => exact .tail e ih hc hs

theorem mono (hCD : ∀ s e, C s e → D s e) (h : Reaches step C s t) : Reaches step D s t := by
  induction h with
  | refl => exact .refl
  | tail e _ hc hs ih => exact .tail e ih (hCD _ _ hc) hs

/-- An invariant of every conditioned step holds in every state reached. -/
theorem invariant {I : σ → Prop}
    (hstep : ∀ s e t, I s → C s e → step s e = some t → I t)
    (h : Reaches step C s t) (hs : I s) : I t := by
  induction h with
  | refl => exact hs
  | tail e _ hc he ih => exact hstep _ e _ ih hc he

/-- A transitive relation that contains every conditioned step relates the ends of every run. -/
theorem relates {R : σ → σ → Prop} (hrefl : R s s)
    (hstep : ∀ t e u, Reaches step C s t → R s t → C t e → step t e = some u → R s u)
    (h : Reaches step C s t) : R s t := by
  induction h with
  | refl => exact hrefl
  | tail e hr hc he ih => exact hstep _ e _ hr ih hc he

end Reaches

def run (step : σ → ε → Option σ) : σ → List ε → Option σ
  | s, [] => some s
  | s, e :: es => (step s e).bind fun t => run step t es

theorem run_cons {step : σ → ε → Option σ} {s t : σ} {e : ε} (h : step s e = some t)
    (es : List ε) : run step s (e :: es) = run step t es := by
  rw [run, h, Option.bind_some]

theorem run_append {step : σ → ε → Option σ} {s t : σ} {es : List ε} (h : run step s es = some t)
    (fs : List ε) : run step s (es ++ fs) = run step t fs := by
  induction es generalizing s with
  | nil => rw [Option.some.inj h, List.nil_append]
  | cons e es ih =>
    obtain ⟨u, hu, ht⟩ := Option.bind_eq_some_iff.mp h
    rw [List.cons_append, run_cons hu]
    exact ih ht

theorem reaches_of_run {step : σ → ε → Option σ} {s t : σ} {es : List ε}
    (h : run step s es = some t) : Reaches step (fun _ _ => True) s t := by
  induction es generalizing s with
  | nil =>
    obtain rfl := Option.some.inj h
    exact .refl
  | cons e es ih =>
    obtain ⟨u, hu, ht⟩ := Option.bind_eq_some_iff.mp h
    exact (Reaches.single e trivial hu).trans (ih ht)

/-- A branch taken alike on both sides. -/
theorem related_ite {α β : Type*} {R : α → β → Prop} {c : Prop} [Decidable c] {a₁ b₁ : α}
    {a₂ b₂ : β} (ht : R a₁ a₂) (he : R b₁ b₂) :
    R (if c then a₁ else b₁) (if c then a₂ else b₂) := by
  split
  · exact ht
  · exact he

/-- A relation that every label respects on both sides is respected by every run. -/
theorem run_related {step : σ → ε → Option σ} {R : σ → σ → Prop}
    (hstep : ∀ s t e, R s t → Option.Rel R (step s e) (step t e)) {s t : σ} (h : R s t)
    (es : List ε) : Option.Rel R (run step s es) (run step t es) := by
  induction es generalizing s t with
  | nil => exact .some h
  | cons e es ih =>
    have he := hstep s t e h
    rw [run, run]
    generalize step s e = r₁ at he ⊢
    generalize step t e = r₂ at he ⊢
    cases he with
    | none => exact .none
    | some he => exact ih he

/-- Execute a list of labels from a state as long as each passes a check. -/
def execute (step : σ → ε → Option σ) (ok : σ → ε → Bool) : σ → List ε → Option σ
  | s, [] => some s
  | s, e :: es => if ok s e then (step s e).bind fun t => execute step ok t es else none

theorem reaches_of_execute {step : σ → ε → Option σ} {ok : σ → ε → Bool} {C : σ → ε → Prop}
    {es : List ε} (hok : ∀ s, ∀ e ∈ es, ok s e = true → C s e) {s t : σ}
    (h : execute step ok s es = some t) : Reaches step C s t := by
  induction es generalizing s with
  | nil =>
    have he : s = t := by simpa [execute] using h
    exact he ▸ .refl
  | cons e es ih =>
    rw [execute] at h
    split at h
    · rename_i hc
      obtain ⟨u, hu, ht⟩ := Option.bind_eq_some_iff.mp h
      exact (Reaches.single e (hok s e (by simp) hc) hu).trans
        (ih (fun s e he => hok s e (by simp [he])) ht)
    · cases h

end VfuKvssd.Foundations
