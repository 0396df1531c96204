import Mathlib

/-! # Ordered containers with a cursor

A container that iterates over its elements in the order of their keys. A cursor
is placed at the first element whose key is not below a bound; the element at a
cursor can be removed, which leaves the cursor on the next one.
-/
namespace VfuKvssd.Foundations

/-! ## Cutting a list where a property is lost -/

section Cut
variable {α : Type*} {p : α → Bool} {l : List α}

theorem takeWhile_eq_filter (h : l.Pairwise fun a b => p b = true → p a = true) :
    l.takeWhile p = l.filter p := by
  induction l with
  | nil => rfl
  | cons a l ih =>
    obtain ⟨ha, hl⟩ := List.pairwise_cons.mp h
    by_cases hp : p a = true
    · rw [List.takeWhile_cons_of_pos hp, List.filter_cons_of_pos hp, ih hl]
    · rw [List.takeWhile_cons_of_neg hp, List.filter_cons_of_neg hp, eq_comm, List.filter_eq_nil_iff]
      exact fun b hb hpb => hp (ha b hb hpb)

theorem dropWhile_eq_filter (h : l.Pairwise fun a b => p b = true → p a = true) :
    l.dropWhile p = l.filter fun a => !p a := by
  induction l with
  | nil => rfl
  | cons a l ih =>
    obtain ⟨ha, hl⟩ := List.pairwise_cons.mp h
    by_cases hp : p a = true
    · rw [List.dropWhile_cons_of_pos hp, List.filter_cons_of_neg (by simp [hp]), ih hl]
    · rw [List.dropWhile_cons_of_neg hp, eq_comm, List.filter_eq_self]
      intro b hb
      rw [Bool.not_eq_true']
      rcases List.mem_cons.mp hb with rfl | hb
      · exact Bool.eq_false_iff.mpr hp
      · exact Bool.eq_false_iff.mpr fun hpb => hp (ha b hb hpb)

/-- A list in the order of its keys is determined by its members. -/
theorem eq_of_increasing {κ : Type*} [LinearOrder κ] {key : α → κ} {m : List α}
    (hl : l.Pairwise fun a b => key a < key b) (hm : m.Pairwise fun a b => key a < key b)
    (h : ∀ a, a ∈ l ↔ a ∈ m) : l = m := by
  have hirrefl : Std.Irrefl fun a b : α => key a < key b := ⟨fun a => lt_irrefl (key a)⟩
  have hasymm : Std.Asymm fun a b : α => key a < key b := ⟨fun a b => lt_asymm⟩
  exact hl.eq_of_mem_iff hm h

end Cut

/-! ## Containers -/

/-- An ordered container, with what its operations do to the elements behind a cursor and to those
from it on. -/
structure CursorTree (α : Type) (κ : Type) [LinearOrder κ] (key : α → κ) where
  Tree : Type
  Iter : Type
  iterInit : Tree → κ → Iter
  iterGet : Iter → Option α
  iterRemove : Iter → Iter
  /-- the container that a cursor is on -/
  tree : Iter → Tree
  /-- the elements in the order of iteration -/
  items : Tree → List α
  behind : Iter → List α
  ahead : Iter → List α
  increasing : ∀ t, (items t).Pairwise fun a b => key a < key b
  items_tree : ∀ i, items (tree i) = behind i ++ ahead i
  tree_init : ∀ t k, tree (iterInit t k) = t
  ahead_init : ∀ t k, ahead (iterInit t k) = (items t).dropWhile fun a => decide (key a < k)
  get_eq : ∀ i, iterGet i = (ahead i).head?
  behind_remove : ∀ {i a as}, ahead i = a :: as → behind (iterRemove i) = behind i
  ahead_remove : ∀ {i a as}, ahead i = a :: as → ahead (iterRemove i) = as

namespace CursorTree
variable {α κ : Type} [LinearOrder κ] {key : α → κ} (B : CursorTree α κ key)

theorem get_some {i : B.Iter} {a : α} (h : B.iterGet i = some a) :
    ∃ as, B.ahead i = a :: as := by
  rw [B.get_eq] at h
  exact List.head?_eq_some_iff.mp h

theorem get_none {i : B.Iter} (h : B.iterGet i = none) : B.ahead i = [] := by
  rw [B.get_eq] at h
  exact List.head?_eq_none_iff.mp h

theorem ahead_remove_lt {i : B.Iter} {a : α} (h : B.iterGet i = some a) :
    (B.ahead (B.iterRemove i)).length < (B.ahead i).length := by
  obtain ⟨as, has⟩ := B.get_some h
  rw [B.ahead_remove has, has]
  exact Nat.lt_succ_self _

theorem nodup_items (t : B.Tree) : (B.items t).Nodup := by
  refine (B.increasing t).imp fun {a b} hlt he => ?_
  rw [he] at hlt
  exact lt_irrefl _ hlt

theorem items_ext {t u : B.Tree} (h : ∀ a, a ∈ B.items t ↔ a ∈ B.items u) :
    B.items t = B.items u :=
  eq_of_increasing (B.increasing t) (B.increasing u) h

theorem mem_ahead_init {t : B.Tree} {k : κ} {a : α} :
    a ∈ B.ahead (B.iterInit t k) ↔ a ∈ B.items t ∧ k ≤ key a := by
  rw [B.ahead_init, dropWhile_eq_filter, List.mem_filter]
  · simp
  · refine (B.increasing t).imp fun {a b} hlt hb => ?_
    exact decide_eq_true (lt_trans hlt (of_decide_eq_true hb))

end CursorTree

/-! ## Sorted lists -/

/-- A sorted list, and a cursor that splits it in two. -/
def CursorTree.sortedList {α κ : Type} [LinearOrder κ] (key : α → κ) : CursorTree α κ key where
  Tree := { l : List α // l.Pairwise fun a b => key a < key b }
  Iter := { z : List α × List α // (z.1 ++ z.2).Pairwise fun a b => key a < key b }
  iterInit t k := ⟨(t.1.takeWhile fun a => decide (key a < k),
    t.1.dropWhile fun a => decide (key a < k)), by
      rw [List.takeWhile_append_dropWhile]
      exact t.2⟩
  iterGet i := i.1.2.head?
  iterRemove i := ⟨(i.1.1, i.1.2.tail),
    i.2.sublist (List.Sublist.append_left (List.tail_sublist _) _)⟩
  tree i := ⟨i.1.1 ++ i.1.2, i.2⟩
  items t := t.1
  behind i := i.1.1
  ahead i := i.1.2
  increasing t := t.2
  items_tree _ := rfl
  tree_init _ _ := Subtype.ext List.takeWhile_append_dropWhile
  ahead_init _ _ := rfl
  get_eq _ := rfl
  behind_remove _ := rfl
  ahead_remove h := congrArg List.tail h

end VfuKvssd.Foundations
