import Mathlib.Data.List.Nodup
import Mathlib.Data.Set.Card
import Mathlib.Tactic

/-! # Slot tables with holes as partial maps

A table is a list of slots, each empty or holding one key and its value. While
no key occurs twice, a table denotes a partial map, and filling, replacing or
clearing one slot is an update of that map at one key.
-/
namespace VfuKvssd.Foundations.SlotTable

variable {K V : Type*}

abbrev Table (K V : Type*) := List (Option (K × V))

def keys (t : Table K V) : List K := t.filterMap (Option.map Prod.fst)

def Unique (t : Table K V) : Prop := (keys t).Nodup

@[simp] theorem keys_append (t u : Table K V) : keys (t ++ u) = keys t ++ keys u := by
  simp [keys]

@[simp] theorem keys_cons_none (t : Table K V) : keys (none :: t) = keys t := rfl

@[simp] theorem keys_cons_some (e : K × V) (t : Table K V) : keys (some e :: t) = e.1 :: keys t := rfl

@[simp] theorem keys_replicate_none (n : ℕ) : keys (List.replicate n (none : Option (K × V))) = [] := by
  simp [keys]

theorem mem_keys {t : Table K V} {k : K} : k ∈ keys t ↔ ∃ v, some (k, v) ∈ t := by
  simp [keys]

theorem keys_length (t : Table K V) : (keys t).length = t.countP Option.isSome := by
  induction t with
  | nil => rfl
  | cons s t ih => cases s <;> simp [ih]

variable [DecidableEq K]

def lookup (t : Table K V) (k : K) : Option V :=
  t.findSome? fun s => s.bind fun e => if e.1 = k then some e.2 else none

@[simp] theorem lookup_nil (k : K) : lookup ([] : Table K V) k = none := rfl

@[simp] theorem lookup_cons_none (t : Table K V) (k : K) : lookup (none :: t) k = lookup t k := rfl

theorem lookup_cons_some (e : K × V) (t : Table K V) (k : K) :
    lookup (some e :: t) k = if e.1 = k then some e.2 else lookup t k := by
  by_cases h : e.1 = k <;> simp [lookup, h]

theorem lookup_eq_none_iff {t : Table K V} {k : K} : lookup t k = none ↔ k ∉ keys t := by
  induction t with
  | nil => simp [keys]
  | cons s t ih =>
    cases s with
    | none => simpa using ih
    | some e =>
      rw [lookup_cons_some, keys_cons_some, List.mem_cons, not_or]
      by_cases h : e.1 = k
      · simp [h]
      · simp [h, ih, Ne.symm h]

/-- Over unique keys, the map is exactly the set of occupied slots. -/
theorem lookup_eq_some_iff {t : Table K V} (hu : Unique t) {k : K} {v : V} :
    lookup t k = some v ↔ some (k, v) ∈ t := by
  induction t with
  | nil => simp
  | cons s t ih =>
    cases s with
    | none => simpa using ih hu
    | some e =>
      obtain ⟨hn, hu⟩ := List.nodup_cons.mp hu
      rw [lookup_cons_some, List.mem_cons]
      by_cases h : e.1 = k
      · subst h
        have hnot : some (e.1, v) ∉ t := fun hm => hn (mem_keys.mpr ⟨v, hm⟩)
        simp only [if_true, Option.some.injEq, hnot, or_false]
        exact ⟨fun h => by rw [← h], fun h => by rw [← h]⟩
      · have hne : some (k, v) ≠ some e := fun he => h (by simp [← Option.some.inj he])
        simp [h, hne, ih hu]

theorem ncard_keys {t : Table K V} (hu : Unique t) :
    Set.ncard {k | lookup t k ≠ none} = t.countP Option.isSome := by
  have hs : {k | lookup t k ≠ none} = ((keys t).toFinset : Set K) := by
    ext k
    simp [lookup_eq_none_iff]
  rw [hs, Set.ncard_coe_finset, List.toFinset_card_of_nodup hu, keys_length]

/-- A slot of a list cuts it into the slots before and after it. -/
theorem exists_split {α : Type*} {t : List α} {i : ℕ} {x : α} (h : t[i]? = some x) :
    ∃ l r, t = l ++ x :: r ∧ ∀ y, t.set i y = l ++ y :: r := by
  obtain ⟨hi, hx⟩ := List.getElem?_eq_some_iff.mp h
  refine ⟨t.take i, t.drop (i + 1), ?_, fun y => List.set_eq_take_append_cons_drop.trans (if_pos hi)⟩
  rw [← hx, List.getElem_cons_drop, List.take_append_drop]

variable {t : Table K V} {i : ℕ} {k : K} {v w : V}

omit [DecidableEq K] in
theorem fill_unique (h : t[i]? = some none) (hk : k ∉ keys t) (hu : Unique t) :
    Unique (t.set i (some (k, v))) := by
  obtain ⟨l, r, rfl, hset⟩ := exists_split h
  rw [hset]
  simp only [Unique, keys_append, keys_cons_none, keys_cons_some, List.mem_append, not_or] at hu hk ⊢
  exact (List.nodup_middle.mpr (List.nodup_cons.mpr ⟨by simpa using hk, hu⟩))

/-- Filling a hole with a new key extends the map by that key. -/
theorem lookup_fill (h : t[i]? = some none) (hk : k ∉ keys t) :
    lookup (t.set i (some (k, v))) = Function.update (lookup t) k (some v) := by
  obtain ⟨l, r, rfl, hset⟩ := exists_split h
  rw [hset]
  funext j
  simp only [keys_append, keys_cons_none, List.mem_append, not_or] at hk
  by_cases hj : j = k
  · subst hj
    have hl : l.findSome? (fun s => s.bind fun e => if e.1 = j then some e.2 else none) = none :=
      lookup_eq_none_iff.mpr hk.1
    simp [lookup, List.findSome?_append, hl]
  · simp [lookup, List.findSome?_append, hj, Ne.symm hj]

omit [DecidableEq K] in
theorem countP_fill (h : t[i]? = some none) :
    (t.set i (some (k, v))).countP Option.isSome = t.countP Option.isSome + 1 := by
  obtain ⟨l, r, rfl, hset⟩ := exists_split h
  rw [hset]
  simp
  omega

omit [DecidableEq K] in
theorem keys_replace (h : t[i]? = some (some (k, v))) : keys (t.set i (some (k, w))) = keys t := by
  obtain ⟨l, r, rfl, hset⟩ := exists_split h
  simp [hset]

omit [DecidableEq K] in
theorem replace_unique (h : t[i]? = some (some (k, v))) (hu : Unique t) :
    Unique (t.set i (some (k, w))) := by
  rwa [Unique, keys_replace h]

theorem lookup_replace (h : t[i]? = some (some (k, v))) (hu : Unique t) :
    lookup (t.set i (some (k, w))) = Function.update (lookup t) k (some w) := by
  obtain ⟨l, r, rfl, hset⟩ := exists_split h
  rw [hset]
  have hl : k ∉ keys l := by
    simp only [Unique, keys_append, keys_cons_some] at hu
    exact fun hm => (List.disjoint_of_nodup_append hu) hm (by simp)
  funext j
  by_cases hj : j = k
  · subst hj
    have hl : l.findSome? (fun s => s.bind fun e => if e.1 = j then some e.2 else none) = none :=
      lookup_eq_none_iff.mpr hl
    simp [lookup, List.findSome?_append, hl]
  · simp [lookup, List.findSome?_append, hj, Ne.symm hj]

omit [DecidableEq K] in
theorem countP_replace (h : t[i]? = some (some (k, v))) :
    (t.set i (some (k, w))).countP Option.isSome = t.countP Option.isSome := by
  rw [← keys_length, ← keys_length, keys_replace h]

omit [DecidableEq K] in
theorem clear_unique (h : t[i]? = some (some (k, v))) (hu : Unique t) : Unique (t.set i none) := by
  obtain ⟨l, r, rfl, hset⟩ := exists_split h
  rw [hset]
  simp only [Unique, keys_append, keys_cons_none, keys_cons_some] at hu ⊢
  exact (List.nodup_cons.mp (List.nodup_middle.mp hu)).2

theorem lookup_clear (h : t[i]? = some (some (k, v))) (hu : Unique t) :
    lookup (t.set i none) = Function.update (lookup t) k none := by
  obtain ⟨l, r, rfl, hset⟩ := exists_split h
  rw [hset]
  simp only [Unique, keys_append, keys_cons_some] at hu
  have hn := (List.nodup_cons.mp (List.nodup_middle.mp hu)).1
  funext j
  by_cases hj : j = k
  · subst hj
    rw [Function.update_self, lookup_eq_none_iff]
    simpa using hn
  · simp [lookup, List.findSome?_append, hj, Ne.symm hj]

omit [DecidableEq K] in
theorem countP_clear (h : t[i]? = some (some (k, v))) :
    (t.set i none).countP Option.isSome + 1 = t.countP Option.isSome := by
  obtain ⟨l, r, rfl, hset⟩ := exists_split h
  rw [hset]
  simp
  omega

/-- Empty slots appended to a table do not change its map. -/
theorem lookup_append_none (t : Table K V) (n : ℕ) :
    lookup (t ++ List.replicate n none) = lookup t := by
  funext k
  have hr : (List.replicate n (none : Option (K × V))).findSome?
      (fun s => s.bind fun e => if e.1 = k then some e.2 else none) = none := by
    simp
  simp [lookup, List.findSome?_append, hr]

end VfuKvssd.Foundations.SlotTable
