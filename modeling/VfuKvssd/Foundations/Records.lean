import VfuKvssd.Foundations.ByteMemory

/-! # Length-prefixed records in a bounded buffer

A record is a 16-bit length, that many bytes and zero padding. The padding is a
parameter of the encoder; the decoder expects records at multiples of four.
`fitting` selects the longest initial part of a list whose sizes stay within a
budget.
-/
namespace VfuKvssd.Foundations

section Fitting
variable {α : Type*} {size : α → ℕ} {budget : ℕ} {xs ys : List α}

/-- The longest initial part whose sizes add up to at most the budget. -/
def fitting (size : α → ℕ) : ℕ → List α → List α
  | _, [] => []
  | budget, x :: xs => if size x ≤ budget then x :: fitting size (budget - size x) xs else []

theorem fitting_initial (size : α → ℕ) (budget : ℕ) (xs : List α) : fitting size budget xs <+: xs := by
  induction xs generalizing budget with
  | nil => exact List.prefix_rfl
  | cons x xs ih =>
    rw [fitting]
    split
    · exact (List.prefix_cons_inj x).mpr (ih _)
    · exact List.nil_prefix

theorem fitting_size_le (size : α → ℕ) (budget : ℕ) (xs : List α) :
    ((fitting size budget xs).map size).sum ≤ budget := by
  induction xs generalizing budget with
  | nil => exact Nat.zero_le _
  | cons x xs ih =>
    rw [fitting]
    split
    · have h := ih (budget - size x)
      rw [List.map_cons, List.sum_cons]
      omega
    · exact Nat.zero_le _

theorem prefix_fitting (hp : ys <+: xs) (hs : (ys.map size).sum ≤ budget) :
    ys <+: fitting size budget xs := by
  induction xs generalizing budget ys with
  | nil => exact hp
  | cons x xs ih =>
    cases ys with
    | nil => exact List.nil_prefix
    | cons y ys =>
      obtain ⟨rfl, hys⟩ := List.cons_prefix_cons.mp hp
      rw [List.map_cons, List.sum_cons] at hs
      rw [fitting, if_pos (by omega)]
      exact (List.prefix_cons_inj y).mpr (ih hys (by omega))

theorem prefix_fitting_iff :
    ys <+: fitting size budget xs ↔ ys <+: xs ∧ (ys.map size).sum ≤ budget := by
  constructor
  · intro h
    refine ⟨h.trans (fitting_initial _ _ _), le_trans ?_ (fitting_size_le size budget xs)⟩
    exact (h.sublist.map size).sum_le_sum fun _ _ => Nat.zero_le _
  · exact fun h => prefix_fitting h.1 h.2

theorem fitting_eq_self (hs : (xs.map size).sum ≤ budget) : fitting size budget xs = xs :=
  (fitting_initial size budget xs).eq_of_length_le (prefix_fitting List.prefix_rfl hs).length_le

end Fitting

section Record
variable {pad : ℕ → ℕ} {k l : List Byte} {xs ys : List Byte} {ks ls : List (List Byte)}

/-- Size of a record of `n` bytes. -/
def recordSize (pad : ℕ → ℕ) (n : ℕ) : ℕ := 2 + n + pad (2 + n)

def record (pad : ℕ → ℕ) (k : List Byte) : List Byte :=
  leBytes 2 k.length ++ k ++ List.replicate (pad (2 + k.length)) 0

@[simp] theorem record_length : (record pad k).length = recordSize pad k.length := by
  simp only [record, recordSize, List.length_append, leBytes_length, List.length_replicate]

theorem leNat_length (hk : k.length < 2 ^ 16) : leNat (leBytes 2 k.length) = k.length := by
  rw [leNat_leBytes]
  omega

theorem record_append_inj (hk : k.length < 2 ^ 16) (hl : l.length < 2 ^ 16)
    (h : record pad k ++ xs = record pad l ++ ys) : k = l ∧ xs = ys := by
  simp only [record, List.append_assoc] at h
  obtain ⟨hlen, hrest⟩ := List.append_inj h (by simp)
  have hn := congrArg leNat hlen
  rw [leNat_length hk, leNat_length hl] at hn
  obtain ⟨rfl, hrest⟩ := List.append_inj hrest hn
  exact ⟨rfl, List.append_cancel_left hrest⟩

/-- A list of records is determined by its bytes. -/
theorem records_inj (hks : ∀ k ∈ ks, k.length < 2 ^ 16) (hls : ∀ l ∈ ls, l.length < 2 ^ 16)
    (hlen : ks.length = ls.length) (h : ks.flatMap (record pad) = ls.flatMap (record pad)) :
    ks = ls := by
  induction ks generalizing ls with
  | nil => exact (List.eq_nil_of_length_eq_zero hlen.symm).symm
  | cons k ks ih =>
    cases ls with
    | nil => cases hlen
    | cons l ls =>
      rw [List.forall_mem_cons] at hks hls
      rw [List.flatMap_cons, List.flatMap_cons] at h
      obtain ⟨rfl, hrest⟩ := record_append_inj hks.1 hls.1 h
      rw [ih hks.2 hls.2 (Nat.succ.inj hlen) hrest]

/-- Padding up to the next multiple of four. -/
def padTo4 (n : ℕ) : ℕ := (4 - n % 4) % 4

/-- Read a number of records, each at a multiple of four. What is present of the padding has to
be zero. -/
def decodeRecords : ℕ → List Byte → Option (List (List Byte))
  | 0, _ => some []
  | count + 1, bytes =>
    let len := leNat (bytes.take 2)
    let body := 2 + len
    if bytes.length < body then none
    else if ((bytes.drop body).take (padTo4 body)).any (· != 0) then none
    else (decodeRecords count (bytes.drop (body + padTo4 body))).map ((bytes.drop 2).take len :: ·)

/-- The first record is read back when its padding starts as the format wants. -/
theorem decodeRecords_record (hk : k.length < 2 ^ 16) (count : ℕ)
    (hpad : ((List.replicate (pad (2 + k.length)) 0 ++ xs).take (padTo4 (2 + k.length))).any
      (· != 0) = false) :
    decodeRecords (count + 1) (record pad k ++ xs) =
      (decodeRecords count
        ((List.replicate (pad (2 + k.length)) 0 ++ xs).drop (padTo4 (2 + k.length)))).map (k :: ·) := by
  have hlen : leNat ((record pad k ++ xs).take 2) = k.length := by
    simp only [record, List.append_assoc]
    rw [List.take_left' (leBytes_length _ _), leNat_length hk]
  have hbody : (record pad k ++ xs).drop (2 + k.length) =
      List.replicate (pad (2 + k.length)) 0 ++ xs := by
    rw [record, List.append_assoc]
    exact List.drop_left' (by simp)
  have hkey : ((record pad k ++ xs).drop 2).take k.length = k := by
    simp only [record, List.append_assoc]
    rw [List.drop_left' (leBytes_length _ _)]
    exact List.take_left' rfl
  rw [decodeRecords]
  simp only [hlen, hbody, hkey, hpad, ← List.drop_drop, Bool.false_eq_true, if_false]
  rw [if_neg]
  simp only [List.length_append, record_length, recordSize]
  omega

/-- Records are read back when the padding of all but the last is the format's. -/
theorem decodeRecords_flatMap (hks : ∀ k ∈ ks, k.length < 2 ^ 16)
    (hpad : ∀ k ∈ ks.dropLast, pad (2 + k.length) = padTo4 (2 + k.length)) :
    decodeRecords ks.length (ks.flatMap (record pad)) = some ks := by
  induction ks with
  | nil => rfl
  | cons k ks ih =>
    rw [List.forall_mem_cons] at hks
    rw [List.flatMap_cons, List.length_cons]
    cases ks with
    | nil =>
      -- nothing follows the last record, so its padding is zero as far as it goes
      have hz : ∀ b ∈ (List.replicate (pad (2 + k.length)) (0 : Byte) ++ []).take
          (padTo4 (2 + k.length)), b = 0 := by
        intro b hb
        have hb := List.mem_of_mem_take hb
        rw [List.append_nil] at hb
        exact List.eq_of_mem_replicate hb
      rw [List.flatMap_nil, List.length_nil, decodeRecords_record hks.1 0]
      · rfl
      · rw [List.any_eq_false]
        intro b hb
        simp [hz b hb]
    | cons l ls =>
      rw [List.dropLast_cons_cons, List.forall_mem_cons] at hpad
      rw [decodeRecords_record hks.1, hpad.1, List.drop_left' (by simp), ih hks.2 hpad.2]
      · rfl
      · rw [hpad.1, List.take_left' (by simp), List.any_eq_false]
        intro b hb
        simp [List.eq_of_mem_replicate hb]

end Record

end VfuKvssd.Foundations
