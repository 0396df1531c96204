import Mathlib.Data.List.Forall2
import Mathlib.Tactic

/-! # Logs of operations on named registers

Every operation of a log concerns at most one register. A register is then the
outcome of its own part of the log, and two logs that make the same requests on
a register answer them alike, whatever they do elsewhere.
-/
namespace VfuKvssd.Foundations.KeyedLog

variable {κ ρ ε : Type*} [DecidableEq κ]

/-- The operations of a log that concern one register, in order. -/
def onKey (key : ε → Option κ) (k : κ) (es : List ε) : List ε := es.filter fun e => key e = some k

/-- A register after a log, started at `v`. -/
def register (key : ε → Option κ) (put : ρ → ε → ρ) (v : ρ) (es : List ε) (k : κ) : ρ :=
  (onKey key k es).foldl put v

section Register
variable {key : ε → Option κ} {put : ρ → ε → ρ} {v : ρ} {es : List ε} {e : ε} {k : κ}

theorem register_snoc_self (h : key e = some k) :
    register key put v (es ++ [e]) k = put (register key put v es k) e := by
  simp [register, onKey, h]

theorem register_snoc_other (h : key e ≠ some k) :
    register key put v (es ++ [e]) k = register key put v es k := by
  simp [register, onKey, h]

end Register

/-- Each operation is answered from the value that the operations before it leave. -/
def Answered (answers : ρ → ε → Prop) (put : ρ → ε → ρ) : ρ → List ε → Prop
  | _, [] => True
  | v, e :: es => answers v e ∧ Answered answers put (put v e) es

section Answered
variable {answers : ρ → ε → Prop} {put : ρ → ε → ρ} {v : ρ}

theorem answered_snoc {es : List ε} {e : ε} :
    Answered answers put v (es ++ [e]) ↔
      Answered answers put v es ∧ answers (es.foldl put v) e := by
  induction es generalizing v with
  | nil => simp [Answered]
  | cons x es ih => simp only [List.cons_append, Answered, List.foldl_cons, ih, and_assoc]

/-- Answers given one by one along a log are the answers along each register. -/
theorem answered_onKey {key : ε → Option κ} {k : κ} {es : List ε}
    (h : ∀ pre e post, es = pre ++ e :: post → key e = some k →
      answers (register key put v pre k) e) :
    Answered answers put v (onKey key k es) := by
  induction es using List.reverseRecOn with
  | nil => exact trivial
  | append_singleton es e ih =>
    have hes : Answered answers put v (onKey key k es) := by
      refine ih fun pre x post hx hk => h pre x (post ++ [e]) ?_ hk
      rw [hx, List.append_assoc, List.cons_append]
    by_cases hk : key e = some k
    · have hsnoc : onKey key k (es ++ [e]) = onKey key k es ++ [e] := by simp [onKey, hk]
      rw [hsnoc, answered_snoc]
      exact ⟨hes, h es e [] rfl hk⟩
    · have hsame : onKey key k (es ++ [e]) = onKey key k es := by simp [onKey, hk]
      rwa [hsame]

/-- Two logs that make the same requests on a register, one by one, answer them alike and leave it
with the same value. -/
theorem Answered.agree {same equal : ε → ε → Prop}
    (hdet : ∀ v e e', same e e' → answers v e → answers v e' → equal e e' ∧ put v e = put v e')
    {es es' : List ε} (hs : List.Forall₂ same es es') (h : Answered answers put v es)
    (h' : Answered answers put v es') :
    List.Forall₂ equal es es' ∧ es.foldl put v = es'.foldl put v := by
  induction hs generalizing v with
  | nil => exact ⟨.nil, rfl⟩
  | @cons e e' es es' he _ ih =>
    obtain ⟨ha, hrest⟩ := h
    obtain ⟨ha', hrest'⟩ := h'
    obtain ⟨heq, hput⟩ := hdet v e e' he ha ha'
    rw [← hput] at hrest'
    obtain ⟨hall, hend⟩ := ih hrest hrest'
    exact ⟨.cons heq hall, by rw [List.foldl_cons, List.foldl_cons, ← hput, hend]⟩

end Answered

end VfuKvssd.Foundations.KeyedLog
