import Mathlib.Data.BitVec
import Mathlib.Data.List.Nodup
import Mathlib.Logic.Function.Basic
import Mathlib.Tactic

/-! # Byte-addressed memory with wrapping addresses

A memory is a function on addresses. A transfer names its addresses one by one,
in order, so that a range that is split over several pieces and a contiguous
one are written and read by the same two operations.
-/
namespace VfuKvssd.Foundations

abbrev Byte := BitVec 8
abbrev Addr := BitVec 64
abbrev Memory := Addr → Byte

/-- The `n` addresses that start at `a`, modulo the address width. -/
def span (a : Addr) (n : ℕ) : List Addr := (List.range n).map fun i => a + BitVec.ofNat 64 i

@[simp] theorem span_length (a : Addr) (n : ℕ) : (span a n).length = n := by simp [span]

@[simp] theorem span_zero (a : Addr) : span a 0 = [] := rfl

theorem mem_span {a b : Addr} {n : ℕ} : b ∈ span a n ↔ ∃ i < n, b = a + BitVec.ofNat 64 i := by
  simp [span, eq_comm]

theorem span_take (a : Addr) {m n : ℕ} (h : m ≤ n) : (span a n).take m = span a m := by
  rw [span, span, ← List.map_take, List.take_range, Nat.min_eq_left h]

theorem span_subset {a : Addr} {m n : ℕ} (h : m ≤ n) : span a m ⊆ span a n := by
  intro b hb
  obtain ⟨i, hi, rfl⟩ := mem_span.mp hb
  exact mem_span.mpr ⟨i, by omega, rfl⟩

theorem offset_injective {a : Addr} {i j : ℕ} (hi : i < 2 ^ 64) (hj : j < 2 ^ 64)
    (h : a + BitVec.ofNat 64 i = a + BitVec.ofNat 64 j) : i = j := by
  have hv := congrArg BitVec.toNat (add_left_cancel h)
  simp only [BitVec.toNat_ofNat] at hv
  omega

theorem span_nodup {a : Addr} {n : ℕ} (hn : n ≤ 2 ^ 64) : (span a n).Nodup := by
  apply List.Nodup.map_on _ List.nodup_range
  intro i hi j hj h
  rw [List.mem_range] at hi hj
  exact offset_injective (by omega) (by omega) h

-- ahead of the instance that would try all 2^64 addresses
instance (priority := 2000) (as : List Addr) (P : Addr → Prop) [DecidablePred P] :
    Decidable (∀ a ∈ as, P a) := List.decidableBAll P as

instance (as bs : List Addr) : Decidable (as.Disjoint bs) :=
  inferInstanceAs (Decidable (∀ a ∈ as, a ∈ bs → False))

/-- One range ends before the other starts, and neither wraps. -/
def spansApart (a : Addr) (m : ℕ) (b : Addr) (n : ℕ) : Bool :=
  a.toNat + m ≤ b.toNat && b.toNat + n ≤ 2 ^ 64 || b.toNat + n ≤ a.toNat && a.toNat + m ≤ 2 ^ 64

theorem span_disjoint {a b : Addr} {m n : ℕ} (h : spansApart a m b n = true) :
    (span a m).Disjoint (span b n) := by
  intro x hxa hxb
  obtain ⟨i, hi, rfl⟩ := mem_span.mp hxa
  obtain ⟨j, hj, he⟩ := mem_span.mp hxb
  simp only [spansApart, Bool.or_eq_true, Bool.and_eq_true, decide_eq_true_eq] at h
  have hv := congrArg BitVec.toNat he
  simp only [BitVec.toNat_add, BitVec.toNat_ofNat] at hv
  omega

/-- The addresses of entry `j` of an array of `w`-byte entries. -/
def slotSpan (base : Addr) (w j : ℕ) : List Addr := span (base + BitVec.ofNat 64 (w * j)) w

theorem mem_slotSpan {base a : Addr} {w j : ℕ} :
    a ∈ slotSpan base w j ↔ ∃ i < w, a = base + BitVec.ofNat 64 (w * j + i) := by
  simp only [slotSpan, mem_span, BitVec.ofNat_add, BitVec.add_assoc]

theorem slot_offset_lt {w size i j : ℕ} (hi : i < w) (hj : j < size) : w * j + i < w * size :=
  calc w * j + i < w * (j + 1) := by rw [Nat.mul_add]; omega
    _ ≤ w * size := Nat.mul_le_mul_left w hj

theorem slotSpan_subset {base : Addr} {w j size : ℕ} (hj : j < size) :
    slotSpan base w j ⊆ span base (w * size) := by
  intro a ha
  obtain ⟨i, hi, rfl⟩ := mem_slotSpan.mp ha
  exact mem_span.mpr ⟨_, slot_offset_lt hi hj, rfl⟩

theorem slotSpan_disjoint {base : Addr} {w i j size : ℕ} (hs : w * size ≤ 2 ^ 64) (hi : i < size)
    (hj : j < size) (hij : i ≠ j) : (slotSpan base w i).Disjoint (slotSpan base w j) := by
  intro a hai haj
  obtain ⟨x, hx, rfl⟩ := mem_slotSpan.mp hai
  obtain ⟨y, hy, he⟩ := mem_slotSpan.mp haj
  have hxs := slot_offset_lt hx hi
  have hys := slot_offset_lt hy hj
  have hoff := offset_injective (by omega) (by omega) he
  have hdiv := congrArg (· / w) hoff
  simp only [Nat.mul_add_div (by omega : 0 < w), Nat.div_eq_of_lt hx, Nat.div_eq_of_lt hy,
    Nat.add_zero] at hdiv
  exact hij hdiv

section WriteAll
variable {α β : Type*} [DecidableEq α]

/-- Write a list of values to a list of places, one after the other. -/
def writeAll : (α → β) → List α → List β → α → β
  | m, a :: as, b :: bs => writeAll (Function.update m a b) as bs
  | m, _, _ => m

@[simp] theorem writeAll_nil_left (m : α → β) (bs : List β) : writeAll m [] bs = m := rfl

@[simp] theorem writeAll_nil_right (m : α → β) (as : List α) : writeAll m as [] = m := by
  cases as <;> rfl

@[simp] theorem writeAll_cons (m : α → β) (a : α) (as : List α) (b : β) (bs : List β) :
    writeAll m (a :: as) (b :: bs) = writeAll (Function.update m a b) as bs := rfl

theorem writeAll_append (m : α → β) (as as' : List α) (bs bs' : List β)
    (h : as.length = bs.length) :
    writeAll m (as ++ as') (bs ++ bs') = writeAll (writeAll m as bs) as' bs' := by
  induction as generalizing m bs with
  | nil =>
    cases bs with
    | nil => rfl
    | cons b bs => simp at h
  | cons a as ih =>
    cases bs with
    | nil => simp at h
    | cons b bs => exact ih _ _ (by simpa using h)

theorem writeAll_outside {m : α → β} {as : List α} {bs : List β} {x : α} (hx : x ∉ as) :
    writeAll m as bs x = m x := by
  induction as generalizing m bs with
  | nil => rfl
  | cons a as ih =>
    cases bs with
    | nil => rfl
    | cons b bs =>
      rw [List.mem_cons, not_or] at hx
      rw [writeAll_cons, ih hx.2, Function.update_of_ne hx.1]

theorem map_writeAll {m : α → β} {as : List α} {bs : List β} (hn : as.Nodup)
    (h : as.length = bs.length) : as.map (writeAll m as bs) = bs := by
  induction as generalizing m bs with
  | nil => simpa [eq_comm] using h
  | cons a as ih =>
    cases bs with
    | nil => simp at h
    | cons b bs =>
      rw [List.nodup_cons] at hn
      rw [List.map_cons, writeAll_cons, writeAll_outside hn.1, Function.update_self,
        ih hn.2 (by simpa using h)]

/-- Values written to the first places, read back from all of them. -/
theorem map_writeAll_take {m : α → β} {as : List α} {bs : List β} (hn : as.Nodup)
    (h : bs.length ≤ as.length) :
    as.map (writeAll m (as.take bs.length) bs) = bs ++ (as.map m).drop bs.length := by
  have hsplit := List.take_append_drop bs.length as
  have hdisj : (as.take bs.length).Disjoint (as.drop bs.length) := by
    rw [← hsplit] at hn
    exact List.disjoint_of_nodup_append hn
  conv_lhs => rw [← hsplit, List.map_append]
  congr 1
  · rw [hsplit]
    exact map_writeAll (hn.sublist (List.take_sublist ..)) (by simp [h])
  · rw [hsplit, ← List.map_drop]
    exact List.map_congr_left fun x hx => writeAll_outside fun hx' => hdisj hx' hx

end WriteAll

section LittleEndian

/-- The number whose little-endian digits are the given bytes. -/
def leNat : List Byte → ℕ
  | [] => 0
  | b :: bs => b.toNat + 256 * leNat bs

/-- The `n` low bytes of a number, least significant first. -/
def leBytes : ℕ → ℕ → List Byte
  | 0, _ => []
  | n + 1, v => BitVec.ofNat 8 v :: leBytes n (v / 256)

@[simp] theorem leBytes_length (n v : ℕ) : (leBytes n v).length = n := by
  induction n generalizing v with
  | zero => rfl
  | succ n ih => simp [leBytes, ih]

theorem leNat_leBytes (n v : ℕ) : leNat (leBytes n v) = v % 256 ^ n := by
  induction n generalizing v with
  | zero => simp [leBytes, leNat, Nat.mod_one]
  | succ n ih =>
    rw [leBytes, leNat, ih, pow_succ', Nat.mod_mul, BitVec.toNat_ofNat]

theorem ofNat_cons (b : Byte) (m : ℕ) :
    BitVec.ofNat 64 (b.toNat + 256 * m) = b.setWidth 64 ||| BitVec.ofNat 64 m <<< 8 := by
  apply BitVec.eq_of_toNat_eq
  have hb := b.isLt
  have hshift : (BitVec.ofNat 64 m <<< 8).toNat = 2 ^ 8 * (m % 2 ^ 56) := by
    rw [BitVec.toNat_shiftLeft, BitVec.toNat_ofNat, Nat.shiftLeft_eq]
    omega
  rw [BitVec.toNat_or, hshift, BitVec.toNat_setWidth, BitVec.toNat_ofNat, Nat.or_comm,
    Nat.mod_eq_of_lt (show b.toNat < 2 ^ 64 by omega), ← Nat.two_pow_add_eq_or_of_lt hb]
  omega

end LittleEndian

section Buffers
variable {n : ℕ}

/-- A fixed-size buffer; its bytes in order. -/
abbrev Buffer (n : ℕ) := Fin n → Byte

def Buffer.bytes (f : Buffer n) : List Byte := List.ofFn f

/-- Copy bytes into a buffer from an offset on; what does not fit is dropped. -/
def Buffer.copy (f : Buffer n) (off : ℕ) (bs : List Byte) : Buffer n := fun i =>
  if off ≤ i.val ∧ i.val < off + bs.length then bs.getD (i.val - off) 0 else f i

def Buffer.ofBytes (bs : List Byte) : Buffer n := fun i => bs.getD i.val 0

@[simp] theorem Buffer.bytes_length (f : Buffer n) : f.bytes.length = n := by
  simp [Buffer.bytes]

theorem Buffer.take_one_drop (f : Buffer n) (i : Fin n) : (f.bytes.drop i.val).take 1 = [f i] := by
  have hi : i.val < f.bytes.length := by simp
  rw [List.take_one, List.head?_drop, List.getElem?_eq_getElem hi]
  simp [Buffer.bytes]

@[simp] theorem Buffer.copy_nil (f : Buffer n) (off : ℕ) : f.copy off [] = f := by
  funext i
  simp only [Buffer.copy, List.length_nil, Nat.add_zero]
  rw [if_neg (by omega)]

theorem Buffer.getElem_bytes (f : Buffer n) (i : ℕ) (h : i < f.bytes.length) :
    f.bytes[i] = f ⟨i, by simpa using h⟩ := by
  simp only [Buffer.bytes, List.getElem_ofFn]

/-- A copy replaces exactly the bytes from the offset on that it provides. -/
theorem Buffer.bytes_copy (f : Buffer n) (off : ℕ) (bs : List Byte) (h : off + bs.length ≤ n) :
    (f.copy off bs).bytes = f.bytes.take off ++ bs ++ f.bytes.drop (off + bs.length) := by
  have hoff : min off n = off := by omega
  apply List.ext_getElem
  · simp only [bytes_length, List.length_append, List.length_drop, List.length_take]
    omega
  · intro i h₁ h₂
    rw [getElem_bytes]
    simp only [bytes_length] at h₁
    by_cases hlo : i < off
    · rw [List.getElem_append_left (by simp; omega), List.getElem_append_left (by simp; omega),
        List.getElem_take, getElem_bytes]
      simp only [copy]
      rw [if_neg (by omega)]
    · by_cases hhi : i < off + bs.length
      · rw [List.getElem_append_left (by simp; omega), List.getElem_append_right (by simp; omega)]
        simp only [copy]
        rw [if_pos (by omega), List.getD_eq_getElem?_getD, List.getElem?_eq_getElem (by omega)]
        simp [hoff]
      · rw [List.getElem_append_right (by simp; omega), List.getElem_drop, getElem_bytes]
        simp only [copy]
        rw [if_neg (by omega)]
        congr 2
        simp [hoff]
        omega

theorem Buffer.window_copy (f : Buffer n) (off : ℕ) (bs : List Byte) (h : off + bs.length ≤ n) :
    ((f.copy off bs).bytes.drop off).take bs.length = bs := by
  rw [bytes_copy f off bs h, List.append_assoc, List.drop_left' (by simp; omega)]
  exact List.take_left' rfl

theorem Buffer.window_copy_apart (f : Buffer n) {off o l : ℕ} {bs : List Byte}
    (h : o + l ≤ off ∨ off + bs.length ≤ o) :
    ((f.copy off bs).bytes.drop o).take l = (f.bytes.drop o).take l := by
  apply List.ext_getElem (by simp)
  intro i h₁ h₂
  have hi : i < l := by
    rw [List.length_take] at h₁
    omega
  simp only [List.getElem_take, List.getElem_drop, getElem_bytes, copy]
  rw [if_neg (by omega)]

end Buffers

end VfuKvssd.Foundations
