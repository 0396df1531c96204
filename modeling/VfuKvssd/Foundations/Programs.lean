import Mathlib.Tactic

/-! # Programs that may fail, and their total correctness

A program transforms a state and returns a value, or fails with an error.
`Runs P c Q` says that from every state with `P` the program ends without an
error, with a value and a state that satisfy `Q`. There is one rule for each way
to build a program.
-/
namespace VfuKvssd.Foundations

/-- Programs over states `σ` with errors `ε`. -/
abbrev Prog (σ ε α : Type) := StateT σ (Except ε) α

section Loops
variable {σ ε α : Type}

/-- Fail with the error unless the test holds. -/
def ensure (ok : Bool) (e : ε) : Prog σ ε Unit := if ok then pure () else throw e

/-- Rounds `i` to `i + n - 1` of a counted loop, with its local variables. -/
def loopFrom (body : ℕ → α → Prog σ ε α) : ℕ → ℕ → α → Prog σ ε α
  | _, 0, a => pure a
  | i, n + 1, a => body i a >>= loopFrom body (i + 1) n

/-- `n` rounds of a counted loop. -/
def forLoop (n : ℕ) (body : ℕ → α → Prog σ ε α) (a : α) : Prog σ ε α := loopFrom body 0 n a

/-- A loop with a test before each round. It fails with `e` if it has not come to its end after
`fuel` rounds. -/
def whileLoop (test : α → Bool) (body : α → Prog σ ε α) (e : ε) : ℕ → α → Prog σ ε α
  | 0, a => if test a then throw e else pure a
  | fuel + 1, a => if test a then body a >>= whileLoop test body e fuel else pure a

end Loops

/-- From every state with `P`, the program ends without an error and leaves `Q`. -/
def Runs {σ ε α : Type} (P : σ → Prop) (c : Prog σ ε α) (Q : α → σ → Prop) : Prop :=
  ∀ s, P s → ∃ a t, c.run s = .ok (a, t) ∧ Q a t

namespace Runs
variable {σ ε α β : Type} {P P' : σ → Prop} {c : Prog σ ε α} {Q Q' : α → σ → Prop}

theorem pure {a : α} (h : ∀ s, P s → Q a s) : Runs P (pure a : Prog σ ε α) Q :=
  fun s hs => ⟨a, s, rfl, h s hs⟩

theorem bind {f : α → Prog σ ε β} {R : β → σ → Prop} (hc : Runs P c Q)
    (hf : ∀ a, Runs (Q a) (f a) R) : Runs P (c >>= f) R := by
  intro s hs
  obtain ⟨a, t, hrun, hq⟩ := hc s hs
  obtain ⟨b, u, hrun', hr⟩ := hf a t hq
  exact ⟨b, u, by rw [StateT.run_bind, hrun]; exact hrun', hr⟩

/-- A first program whose value is not used. -/
theorem seq {c : Prog σ ε Unit} {R : σ → Prop} {c' : Prog σ ε β} {Q : β → σ → Prop}
    (hc : Runs P c fun _ => R) (hf : Runs R c' Q) : Runs P (c >>= fun _ => c') Q :=
  hc.bind fun _ => hf

theorem mono (h : Runs P c Q) (hp : ∀ s, P' s → P s) (hq : ∀ a s, Q a s → Q' a s) :
    Runs P' c Q' := by
  intro s hs
  obtain ⟨a, t, hrun, hqt⟩ := h s (hp s hs)
  exact ⟨a, t, hrun, hq a t hqt⟩

theorem post (h : Runs P c Q) (hq : ∀ a s, Q a s → Q' a s) : Runs P c Q' :=
  h.mono (fun _ => id) hq

theorem pre (h : Runs P c Q) (hp : ∀ s, P' s → P s) : Runs P' c Q := h.mono hp fun _ _ => id

/-- A precondition that only holds of some values may be assumed of all. -/
theorem assume {p : Prop} (h : p → Runs P c Q) : Runs (fun s => p ∧ P s) c Q :=
  fun s hs => h hs.1 s hs.2

theorem get : Runs P (get : Prog σ ε σ) fun a s => a = s ∧ P s := fun s hs => ⟨s, s, rfl, rfl, hs⟩

theorem modify {f : σ → σ} {R : σ → Prop} (h : ∀ s, P s → R (f s)) :
    Runs P (modify f : Prog σ ε PUnit) fun _ => R := fun s hs => ⟨⟨⟩, f s, rfl, h s hs⟩

theorem ensure {ok : Bool} {e : ε} {R : σ → Prop} (h : ∀ s, P s → ok = true ∧ R s) :
    Runs P (ensure ok e) fun _ => R := by
  intro s hs
  obtain ⟨rfl, hr⟩ := h s hs
  exact ⟨(), s, rfl, hr⟩

/-- A counted loop keeps what each round keeps. -/
theorem loopFrom {body : ℕ → α → Prog σ ε α} {I : ℕ → α → σ → Prop} {n i : ℕ} {a : α}
    (h : ∀ j a, i ≤ j → j < i + n → Runs (I j a) (body j a) (I (j + 1))) :
    Runs (I i a) (loopFrom body i n a) (I (i + n)) := by
  induction n generalizing i a with
  | zero => exact pure fun s hs => hs
  | succ n ih =>
    have hrest (b : α) : Runs (I (i + 1) b) (Foundations.loopFrom body (i + 1) n b)
        (I (i + 1 + n)) := ih fun j a hj hn => h j a (by omega) (by omega)
    rw [show i + (n + 1) = i + 1 + n by omega]
    exact (h i a le_rfl (by omega)).bind hrest

theorem forLoop {body : ℕ → α → Prog σ ε α} {I : ℕ → α → σ → Prop} {n : ℕ} {a : α}
    (h : ∀ j a, j < n → Runs (I j a) (body j a) (I (j + 1))) :
    Runs (I 0 a) (forLoop n body a) (I n) := by
  have hloop : Runs (I 0 a) (Foundations.loopFrom body 0 n a) (I (0 + n)) :=
    loopFrom fun j a _ hj => h j a (by omega)
  rwa [Nat.zero_add] at hloop

/-- A loop that makes `n` rounds, `n` within its fuel. -/
theorem whileLoop {test : α → Bool} {body : α → Prog σ ε α} {e : ε} {I : ℕ → α → σ → Prop}
    {n fuel : ℕ} {a : α} (hfuel : n ≤ fuel) (hgo : ∀ j a s, j < n → I j a s → test a = true)
    (hstop : ∀ a s, I n a s → test a = false)
    (h : ∀ j a, j < n → Runs (I j a) (body a) (I (j + 1))) :
    Runs (I 0 a) (whileLoop test body e fuel a) (I n) := by
  induction n generalizing I fuel a with
  | zero =>
    intro s hs
    cases fuel <;>
      exact ⟨a, s, by simp [Foundations.whileLoop, hstop a s hs]; rfl, hs⟩
  | succ n ih =>
    obtain ⟨fuel, rfl⟩ : ∃ f, fuel = f + 1 := ⟨fuel - 1, by omega⟩
    intro s hs
    rw [Foundations.whileLoop, if_pos (hgo 0 a s (by omega) hs)]
    refine ((h 0 a (by omega)).bind fun b => ?_) s hs
    exact ih (I := fun j => I (j + 1)) (by omega) (fun j a s hj => hgo (j + 1) a s (by omega))
      hstop fun j a hj => h (j + 1) a (by omega)

end Runs

end VfuKvssd.Foundations
