import Mathlib.Data.List.Basic

/-! # Logs in which one kind of event is always answered by another

A log is paired when it is built from events of neither kind and from an event of
the first kind directly followed by one of the second, the two related to each
other and to the log before them.
-/
namespace VfuKvssd.Foundations

variable {ε : Type*}

inductive Paired (A B : ε → Prop) (R : List ε → ε → ε → Prop) : List ε → Prop
  | nil : Paired A B R []
  | quiet {es : List ε} {e : ε} (h : Paired A B R es) (ha : ¬ A e) (hb : ¬ B e) :
      Paired A B R (es ++ [e])
  | pair {es : List ε} {a b : ε} (h : Paired A B R es) (ha : A a) (hb : B b) (hr : R es a b) :
      Paired A B R (es ++ [a, b])

namespace Paired
variable {A B : ε → Prop} {R : List ε → ε → ε → Prop} {es : List ε}

theorem append_quiet (h : Paired A B R es) {fs : List ε} (hfs : ∀ f ∈ fs, ¬ A f ∧ ¬ B f) :
    Paired A B R (es ++ fs) := by
  induction fs generalizing es with
  | nil => simpa using h
  | cons f fs ih =>
    obtain ⟨ha, hb⟩ := hfs f (by simp)
    have hrest := ih (h.quiet ha hb) fun x hx => hfs x (by simp [hx])
    simpa using hrest

/-- The last event of a log that continues past one of its events. -/
theorem split_concat {pre post : List ε} {a e : ε} (h : es ++ [e] = pre ++ a :: post) :
    (post = [] ∧ es = pre ∧ e = a) ∨ ∃ rest, post = rest ++ [e] ∧ es = pre ++ a :: rest := by
  rcases List.append_eq_append_iff.mp h with ⟨as, rfl, hpost⟩ | ⟨cs, rfl, hpost⟩
  · cases as with
    | nil => simp_all
    | cons x as => simp at hpost
  · cases cs with
    | nil => simp_all
    | cons x cs =>
      obtain ⟨rfl, rfl⟩ := List.cons_eq_cons.mp hpost
      exact .inr ⟨cs, rfl, rfl⟩

/-- An event of the first kind is followed by the one it is paired with. -/
theorem next (h : Paired A B R es) (hAB : ∀ e, A e → ¬ B e) {pre post : List ε} {a : ε}
    (hes : es = pre ++ a :: post) (ha : A a) : ∃ b rest, post = b :: rest ∧ B b ∧ R pre a b := by
  induction h generalizing post with
  | nil => simp at hes
  | @quiet es e _ hne _ ih =>
    rcases split_concat hes with ⟨-, -, rfl⟩ | ⟨rest, rfl, hrest⟩
    · exact absurd ha hne
    · obtain ⟨b, tl, rfl, hb, hr⟩ := ih hrest
      exact ⟨b, tl ++ [e], rfl, hb, hr⟩
  | @pair es x y _ _ hy hr ih =>
    rw [← List.singleton_append, ← List.append_assoc] at hes
    rcases split_concat hes with ⟨-, -, rfl⟩ | ⟨rest, rfl, hrest⟩
    · exact absurd hy (hAB y ha)
    rcases split_concat hrest with ⟨rfl, rfl, rfl⟩ | ⟨rest', rfl, hrest'⟩
    · exact ⟨y, [], rfl, hy, hr⟩
    · obtain ⟨b, tl, rfl, hb, hr⟩ := ih hrest'
      exact ⟨b, tl ++ [x] ++ [y], rfl, hb, hr⟩

/-- An event of the second kind follows the one it is paired with. -/
theorem prev (h : Paired A B R es) (hAB : ∀ e, A e → ¬ B e) {pre post : List ε} {b : ε}
    (hes : es = pre ++ b :: post) (hb : B b) : ∃ rest a, pre = rest ++ [a] ∧ A a ∧ R rest a b := by
  induction h generalizing post with
  | nil => simp at hes
  | quiet _ _ hne ih =>
    rcases split_concat hes with ⟨-, -, rfl⟩ | ⟨rest, -, hrest⟩
    · exact absurd hb hne
    · exact ih hrest
  | @pair es x y _ hx _ hr ih =>
    rw [← List.singleton_append, ← List.append_assoc] at hes
    rcases split_concat hes with ⟨-, rfl, rfl⟩ | ⟨rest, -, hrest⟩
    · exact ⟨es, x, rfl, hx, hr⟩
    rcases split_concat hrest with ⟨-, -, rfl⟩ | ⟨rest', -, hrest'⟩
    · exact absurd hb (hAB x hx)
    · exact ih hrest'

end Paired

end VfuKvssd.Foundations
