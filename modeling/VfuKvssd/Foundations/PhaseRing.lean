import VfuKvssd.Foundations.Rings

/-! # Rings whose entries carry a phase tag

A producer writes entry number `k` to slot `k % n` with a tag that flips at each
lap. A consumer that knows only its own position and the tag it expects there
can tell a fresh entry from one of the lap before, as long as it is less than a
lap behind.
-/
namespace VfuKvssd.Foundations

/-- A slot and the tag of the entries of the current lap. -/
structure Cursor where
  head : ℕ
  phase : Bool
deriving DecidableEq

/-- One entry further. The tag flips at each wrap. -/
def Cursor.next (n : ℕ) (c : Cursor) : Cursor :=
  if c.head + 1 = n then ⟨0, !c.phase⟩ else ⟨c.head + 1, c.phase⟩

def ringPos (n k : ℕ) : Cursor := ⟨k % n, k / n % 2 == 0⟩

theorem phase_succ (k : ℕ) : ((k + 1) % 2 == 0) = !(k % 2 == 0) := by
  rcases Nat.mod_two_eq_zero_or_one k with h | h <;> simp [Nat.add_mod, h]

theorem ringPos_next {n : ℕ} (hn : 0 < n) (k : ℕ) : (ringPos n k).next n = ringPos n (k + 1) := by
  have hdiv := Nat.div_add_mod k n
  have hlt := Nat.mod_lt k hn
  rw [Cursor.next]
  by_cases hw : k % n + 1 = n
  · have hk : k + 1 = n * (k / n + 1) := by rw [Nat.mul_add]; omega
    rw [if_pos (show (ringPos n k).head + 1 = n from hw), ringPos, ringPos, hk, Nat.mul_mod_right,
      Nat.mul_div_cancel_left _ hn, phase_succ]
  · have hmod : (k + 1) % n = k % n + 1 := by
      rw [← Nat.mod_add_mod, Nat.mod_eq_of_lt (by omega)]
    have hdiv' : (k + 1) / n = k / n := Nat.succ_div_of_mod_ne_zero (by omega)
    rw [if_neg (show ¬ (ringPos n k).head + 1 = n from hw), ringPos, ringPos, hmod, hdiv']

theorem ringPos_lap {n : ℕ} (hn : 0 < n) (k : ℕ) :
    ringPos n (k + n) = ⟨(ringPos n k).head, !(ringPos n k).phase⟩ := by
  simp only [ringPos, Nat.add_mod_right, Nat.add_div_right k hn, phase_succ]

section Ring
variable {α : Type*}

/-- The slots after the entries `posts`, over slots that were blank. -/
structure PhaseRing (tag : α → Bool) (blank : α) (n : ℕ) (posts : List α) (slot : ℕ → α) : Prop where
  latest : ∀ k, (h : k < posts.length) → posts.length ≤ k + n → slot (k % n) = posts[k]
  unused : ∀ j, posts.length ≤ j → j < n → slot j = blank
  tagged : ∀ k, (h : k < posts.length) → tag posts[k] = (ringPos n k).phase

namespace PhaseRing
variable {tag : α → Bool} {blank : α} {n : ℕ} {posts : List α} {slot slot' : ℕ → α}

theorem nil (h : ∀ j < n, slot j = blank) : PhaseRing tag blank n [] slot :=
  ⟨fun _ hk => absurd hk (Nat.not_lt_zero _), fun j _ hj => h j hj,
    fun _ hk => absurd hk (Nat.not_lt_zero _)⟩

theorem congr (h : PhaseRing tag blank n posts slot) (hn : 0 < n)
    (hs : ∀ j < n, slot' j = slot j) : PhaseRing tag blank n posts slot' := by
  refine ⟨fun k hk hl => ?_, fun j hj hjn => ?_, h.tagged⟩
  · rw [hs _ (Nat.mod_lt k hn)]
    exact h.latest k hk hl
  · rw [hs j hjn]
    exact h.unused j hj hjn

/-- The producer writes the next entry with the tag of its lap. -/
theorem post (h : PhaseRing tag blank n posts slot) (hn : 0 < n) {x : α}
    (hx : tag x = (ringPos n posts.length).phase) (hat : slot' (posts.length % n) = x)
    (hs : ∀ j < n, j ≠ posts.length % n → slot' j = slot j) :
    PhaseRing tag blank n (posts ++ [x]) slot' := by
  refine ⟨fun k hk hl => ?_, fun j hj hjn => ?_, fun k hk => ?_⟩
  · rw [List.length_append, List.length_singleton] at hk hl
    rcases Nat.lt_succ_iff_lt_or_eq.mp hk with hlt | rfl
    · -- less than a lap lies between, so the slots differ
      have hne : k % n ≠ posts.length % n := by
        intro he
        have hd := (Nat.modEq_iff_dvd' hlt.le).mp he
        have hpos : 0 < posts.length - k := by omega
        have hle := Nat.le_of_dvd hpos hd
        omega
      rw [hs _ (Nat.mod_lt k hn) hne, List.getElem_append_left hlt]
      exact h.latest k hlt (by omega)
    · rw [hat, List.getElem_concat_length rfl]
  · rw [List.length_append, List.length_singleton] at hj
    rw [hs j hjn (by rw [Nat.mod_eq_of_lt (by omega)]; omega)]
    exact h.unused j (by omega) hjn
  · rw [List.length_append, List.length_singleton] at hk
    rcases Nat.lt_succ_iff_lt_or_eq.mp hk with hlt | rfl
    · rw [List.getElem_append_left hlt]
      exact h.tagged k hlt
    · rw [List.getElem_concat_length rfl, hx]

/-- A consumer that is behind, by at most a lap, finds the next entry under its expected tag. -/
theorem unread (h : PhaseRing tag blank n posts slot) {r : ℕ} (hr : r < posts.length)
    (hlap : posts.length ≤ r + n) :
    slot (ringPos n r).head = posts[r] ∧ tag (slot (ringPos n r).head) = (ringPos n r).phase := by
  have hs : slot (ringPos n r).head = posts[r] := h.latest r hr hlap
  exact ⟨hs, hs ▸ h.tagged r hr⟩

/-- A consumer that has read everything finds the other tag. -/
theorem all_read (h : PhaseRing tag blank n posts slot) (hn : 0 < n) (hblank : tag blank = false) :
    tag (slot (ringPos n posts.length).head) ≠ (ringPos n posts.length).phase := by
  rcases lt_or_ge posts.length n with hlt | hge
  · have hhead : (ringPos n posts.length).head = posts.length := Nat.mod_eq_of_lt hlt
    have hphase : (ringPos n posts.length).phase = true := by simp [ringPos, Nat.div_eq_of_lt hlt]
    rw [hhead, h.unused _ le_rfl hlt, hblank, hphase]
    exact Bool.false_ne_true
  · obtain ⟨k, hk⟩ := Nat.exists_eq_add_of_le' hge
    have hold := h.unread (r := k) (by omega) (by omega)
    rw [hk, ringPos_lap hn, hold.2]
    simp

end PhaseRing

end Ring

end VfuKvssd.Foundations
