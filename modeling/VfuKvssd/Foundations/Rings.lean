import Mathlib.Tactic

/-! # Circular positions

Slots of a ring of `n` entries are numbers below `n`. `ringSlots n t m` lists the
`m` slots behind position `t`, oldest first.
-/
namespace VfuKvssd.Foundations

def ringDist (n a b : ℕ) : ℕ := (b + n - a) % n

def ringSlots (n t : ℕ) : ℕ → List ℕ
  | 0 => []
  | m + 1 => (t + n - (m + 1)) % n :: ringSlots n t m

variable {n t m : ℕ}

@[simp] theorem ringSlots_length (n t m : ℕ) : (ringSlots n t m).length = m := by
  induction m with
  | zero => rfl
  | succ m ih => simp [ringSlots, ih]

theorem add_mod_ring {a n : ℕ} (h : a < 2 * n) : a % n = if a < n then a else a - n := by
  rcases lt_or_ge a n with hn | hn
  · rw [if_pos hn, Nat.mod_eq_of_lt hn]
  · rw [if_neg (not_lt.mpr hn), Nat.mod_eq_sub_mod hn]
    exact Nat.mod_eq_of_lt (by omega)

theorem ringDist_lt (hn : 0 < n) (a b : ℕ) : ringDist n a b < n := Nat.mod_lt _ hn

@[simp] theorem ringDist_self (n a : ℕ) : ringDist n a a = 0 := by
  rw [ringDist, Nat.add_sub_cancel_left, Nat.mod_self]

theorem ringDist_pred {a b : ℕ} (ha : a < n) (hb : b < n) (hab : a ≠ b) :
    ringDist n a b = ringDist n ((a + 1) % n) b + 1 := by
  rw [ringDist, ringDist, add_mod_ring (a := a + 1) (by omega), add_mod_ring (a := b + n - a) (by omega),
    add_mod_ring (by split_ifs <;> omega)]
  split_ifs <;> omega

theorem ringSlots_snoc (ht : t < n) (hm : m < n) :
    ringSlots n t m ++ [t] = ringSlots n ((t + 1) % n) (m + 1) := by
  have hstep {k : ℕ} (hk : k < n) :
      (t + n - k) % n = ((t + 1) % n + n - (k + 1)) % n := by
    rw [add_mod_ring (a := t + 1) (by omega), add_mod_ring (a := t + n - k) (by omega),
      add_mod_ring (by split_ifs <;> omega)]
    split_ifs <;> omega
  induction m with
  | zero =>
    have h := hstep hm
    rw [Nat.sub_zero, Nat.add_mod_right, Nat.mod_eq_of_lt ht] at h
    rw [ringSlots, ringSlots, ringSlots, List.nil_append, ← h]
  | succ m ih =>
    rw [ringSlots, List.cons_append, ih (by omega), hstep hm]
    rfl

/-- The current position is not among fewer than `n` slots behind it. -/
theorem not_mem_ringSlots (ht : t < n) (hm : m < n) : t ∉ ringSlots n t m := by
  induction m with
  | zero => exact List.not_mem_nil
  | succ m ih =>
    rw [ringSlots, List.mem_cons, not_or]
    refine ⟨fun h => ?_, ih (by omega)⟩
    rw [add_mod_ring (by omega)] at h
    split_ifs at h <;> omega

/-- Dropping slots up to `v` leaves slots behind `t` again, at most as many as lie between. -/
theorem dropWhile_ringSlots {v : ℕ} (ht : t < n) (hv : v < n) (hm : m < n) :
    ∃ k ≤ ringDist n v t, (ringSlots n t m).dropWhile (· ≠ v) = ringSlots n t k := by
  induction m with
  | zero => exact ⟨0, Nat.zero_le _, rfl⟩
  | succ m ih =>
    by_cases hs : (t + n - (m + 1)) % n = v
    · refine ⟨m + 1, ?_, by simp [ringSlots, hs]⟩
      rw [add_mod_ring (by omega)] at hs
      rw [ringDist, add_mod_ring (by omega)]
      split_ifs at * <;> omega
    · obtain ⟨k, hk, he⟩ := ih (by omega)
      refine ⟨k, hk, ?_⟩
      rw [ringSlots, List.dropWhile_cons_of_pos (by simpa using hs), he]

/-- One step further unless the ring is full. -/
theorem ringDist_succ {a : ℕ} (ha : a < n) (ht : t < n) (hfull : (t + 1) % n ≠ a) :
    ringDist n a ((t + 1) % n) = ringDist n a t + 1 := by
  rw [add_mod_ring (by omega)] at hfull
  rw [ringDist, ringDist, add_mod_ring (a := t + 1) (by omega), add_mod_ring (a := t + n - a) (by omega),
    add_mod_ring (by split_ifs <;> omega)]
  split_ifs at * <;> omega

end VfuKvssd.Foundations
