import VfuKvssd.Foundations.Numerals
import VfuKvssd.KeyValue.Handlers

/-! # The capacity argument

`parse_size` reads a byte count with an optional suffix, and `main` derives the
number of keys from it. `strtoull` accepts a minus sign, and the suffix
multiplies in 64 bits.
-/
namespace VfuKvssd
open Foundations

/-- A string argument: characters up to the terminating NUL. -/
structure CString where
  chars : List Byte
  no_nul : 0 ∉ chars

/-- The suffix part of `parse_size`: the scaled value and the rest of the text. -/
def scaleSize (n : BitVec 64) : List Byte → BitVec 64 × List Byte
  | [] => (n, [])
  | c :: cs =>
    if c = ascii 'k' ∨ c = ascii 'K' then (n * 1024, cs)
    else if c = ascii 'm' ∨ c = ascii 'M' then (n * (1024 * 1024), cs)
    else if c = ascii 'g' ∨ c = ascii 'G' then (n * (1024 * 1024 * 1024), cs)
    else (n, c :: cs)

/-- `none` stands for -1. -/
def parseSize (s : CString) : Option (BitVec 64) :=
  match strtoull s.chars with
  | (n, erange, rest) =>
    if erange = true ∨ rest = s.chars then none
    else
      let r := scaleSize n rest
      if r.2 = [] then some r.1 else none

def vfuKvssdDefaultCapacity : BitVec 64 := 2 * 1024 * 1024 * 1024

def nvmeKvHardMaxNumKeys : BitVec 64 := 0xffffffff

/-- The number of keys that `main` derives; `none` when not even one slot fits. -/
def maxNumKeysOf (capacity : BitVec 64) : Option (BitVec 32) :=
  let slots := capacity / BitVec.ofNat 64 kvSlotSize
  if slots = 0 then none
  else some ((if nvmeKvHardMaxNumKeys < slots then nvmeKvHardMaxNumKeys else slots).setWidth 32)

/-- The capacity argument of `main`, when there is one; `none` stands for an exit with an error. -/
def mainMaxNumKeys (arg : Option CString) : Option (BitVec 32) :=
  match arg with
  | none => maxNumKeysOf vfuKvssdDefaultCapacity
  | some s => (parseSize s).bind maxNumKeysOf

/-! ## What an argument denotes -/

/-- A suffix and its factor. -/
inductive SizeSuffix : List Byte → ℕ → Prop
  | none : SizeSuffix [] 1
  | kilo {c : Byte} (hc : c = ascii 'k' ∨ c = ascii 'K') : SizeSuffix [c] 1024
  | mega {c : Byte} (hc : c = ascii 'm' ∨ c = ascii 'M') : SizeSuffix [c] (1024 ^ 2)
  | giga {c : Byte} (hc : c = ascii 'g' ∨ c = ascii 'G') : SizeSuffix [c] (1024 ^ 3)

/-- A signed numeral and a suffix: an integer and the factor to multiply it with. -/
def SizeText (s : List Byte) (z : ℤ) (factor : ℕ) : Prop :=
  ∃ text suffix, s = text ++ suffix ∧ SignedNumeral text z ∧ SizeSuffix suffix factor

theorem SizeSuffix.stops {suffix : List Byte} {factor : ℕ} (h : SizeSuffix suffix factor) :
    Stops suffix := by
  intro c hc
  cases h with
  | none => cases hc
  | kilo h | mega h | giga h =>
    obtain rfl := Option.some.inj hc
    rcases h with rfl | rfl <;> decide

theorem SizeSuffix.scale {suffix : List Byte} {factor : ℕ} (h : SizeSuffix suffix factor)
    (n : BitVec 64) : scaleSize n suffix = (n * BitVec.ofNat 64 factor, []) := by
  cases h with
  | none => exact Prod.ext (BitVec.mul_one n).symm rfl
  | kilo h | mega h | giga h => rcases h with rfl | rfl <;> rfl

theorem scaleSize_sound {n : BitVec 64} {rest : List Byte} (h : (scaleSize n rest).2 = []) :
    ∃ factor, SizeSuffix rest factor := by
  cases rest with
  | nil => exact ⟨_, .none⟩
  | cons c cs =>
    rw [scaleSize] at h
    split_ifs at h with hk hm hg
    · obtain rfl : cs = [] := h
      exact ⟨_, .kilo hk⟩
    · obtain rfl : cs = [] := h
      exact ⟨_, .mega hm⟩
    · obtain rfl : cs = [] := h
      exact ⟨_, .giga hg⟩

/-- A text that denotes a size is accepted as long as its numeral is in range, and the value is
computed modulo 2^64. -/
theorem parseSize_complete {s : CString} {z : ℤ} {factor : ℕ} (h : SizeText s.chars z factor) :
    parseSize s = if z.natAbs < 2 ^ 64 then
      some (BitVec.ofInt 64 z * BitVec.ofNat 64 factor) else none := by
  obtain ⟨text, suffix, hs, hn, hf⟩ := h
  have hconv := strtoull_complete hn hf.stops
  rw [parseSize, hs, hconv]
  by_cases hz : z.natAbs < 2 ^ 64
  · have hne : suffix ≠ text ++ suffix := fun he =>
      hn.ne_nil (List.append_left_eq_self.mp he.symm)
    simp only [hz, if_true, Bool.false_eq_true, false_or, hne, if_false, hf.scale]
  · simp only [hz, if_false, true_or, if_true]

/-- Nothing else is accepted. -/
theorem parseSize_sound {s : CString} {v : BitVec 64} (h : parseSize s = some v) :
    ∃ z factor, SizeText s.chars z factor := by
  rw [parseSize] at h
  rcases hconv : strtoull s.chars with ⟨n, erange, rest⟩
  simp only [hconv] at h
  split_ifs at h with hbad hend
  obtain ⟨text, z, hs, hn, -⟩ := strtoull_sound hconv fun he => hbad (.inr he)
  obtain ⟨factor, hf⟩ := scaleSize_sound hend
  exact ⟨z, factor, text, rest, hs, hn, hf⟩

/-! ## Exactness -/

/-- The argument is taken for what it denotes: an accepted one denotes a size that is not negative
and is stored exactly, a negative size or one of 2^64 bytes or more is rejected, and the number of
keys derived from an accepted one is in range and fits the size. -/
structure ExactCapacity (s : CString) : Prop where
  denotes : ∀ v, parseSize s = some v → ∃ z factor, SizeText s.chars z factor
  exact : ∀ v z factor, parseSize s = some v → SizeText s.chars z factor →
    0 ≤ z ∧ (v.toNat : ℤ) = z * factor
  rejects : ∀ z factor, SizeText s.chars z factor → z < 0 ∨ 2 ^ 64 ≤ z * factor →
    parseSize s = none
  keys : ∀ k z factor, mainMaxNumKeys (some s) = some k → SizeText s.chars z factor →
    1 ≤ k.toNat ∧ k.toNat ≤ 2 ^ 32 - 1 ∧ (k.toNat * 4112 : ℤ) ≤ z * factor

theorem maxNumKeysOf_le {capacity : BitVec 64} {k : BitVec 32} (h : maxNumKeysOf capacity = some k) :
    1 ≤ k.toNat ∧ k.toNat ≤ 2 ^ 32 - 1 ∧ k.toNat * 4112 ≤ capacity.toNat := by
  have hdiv : (capacity / BitVec.ofNat 64 kvSlotSize).toNat = capacity.toNat / 4112 := by
    rw [BitVec.toNat_udiv]
    rfl
  have hmax : nvmeKvHardMaxNumKeys.toNat = 2 ^ 32 - 1 := rfl
  have hle : capacity.toNat / 4112 * 4112 ≤ capacity.toNat := Nat.div_mul_le_self _ _
  have hk := k.isLt
  rw [maxNumKeysOf] at h
  split at h
  · cases h
  rename_i hz
  have hpos : (capacity / BitVec.ofNat 64 kvSlotSize).toNat ≠ 0 := fun he =>
    hz (BitVec.eq_of_toNat_eq he)
  rw [← Option.some.inj h, BitVec.toNat_setWidth]
  split_ifs with hlt
  · rw [BitVec.lt_def] at hlt
    omega
  · rw [BitVec.lt_def] at hlt
    omega

theorem toNat_size {z : ℤ} {factor : ℕ} (hz : 0 ≤ z) (hlt : z * factor < 2 ^ 64) :
    ((BitVec.ofInt 64 z * BitVec.ofNat 64 factor).toNat : ℤ) = z * factor := by
  obtain ⟨n, rfl⟩ := Int.eq_ofNat_of_zero_le hz
  rw [BitVec.ofInt_natCast, ← BitVec.ofNat_mul, BitVec.toNat_ofNat, Nat.mod_eq_of_lt]
  · exact Nat.cast_mul n factor
  · exact_mod_cast hlt

/-- A text that denotes a size whose numeral is below 2^64, but which is negative or which the
suffix takes to 2^64 or above. -/
def WrapsAround (s : CString) : Prop :=
  ∃ z factor, SizeText s.chars z factor ∧ z.natAbs < 2 ^ 64 ∧ (z < 0 ∨ 2 ^ 64 ≤ z * factor)

/-- `parse_size` and `main` take an argument for what it denotes exactly when it does not wrap
around. -/
theorem exactCapacity_iff (s : CString) : ExactCapacity s ↔ ¬ WrapsAround s := by
  constructor
  · rintro h ⟨z, factor, ht, hin, hbad⟩
    have hnone := h.rejects z factor ht hbad
    rw [parseSize_complete ht, if_pos hin] at hnone
    cases hnone
  · intro hw
    have hgood {v : BitVec 64} {z : ℤ} {factor : ℕ} (hv : parseSize s = some v)
        (ht : SizeText s.chars z factor) : 0 ≤ z ∧ (v.toNat : ℤ) = z * factor := by
      rw [parseSize_complete ht] at hv
      split at hv
      · rename_i hin
        have hok : ¬ (z < 0 ∨ 2 ^ 64 ≤ z * factor) := fun hbad => hw ⟨z, factor, ht, hin, hbad⟩
        rw [not_or, not_lt, not_le] at hok
        rw [← Option.some.inj hv]
        exact ⟨hok.1, toNat_size hok.1 hok.2⟩
      · cases hv
    refine ⟨fun v hv => parseSize_sound hv, fun v z factor hv ht => hgood hv ht, ?_, ?_⟩
    · intro z factor ht hbad
      rw [parseSize_complete ht, if_neg fun hin => hw ⟨z, factor, ht, hin, hbad⟩]
    · intro k z factor hk ht
      obtain ⟨v, hv, hkeys⟩ := Option.bind_eq_some_iff.mp hk
      obtain ⟨h₁, h₂, h₃⟩ := maxNumKeysOf_le hkeys
      refine ⟨h₁, h₂, ?_⟩
      rw [← (hgood hv ht).2]
      exact_mod_cast h₃

def minusOne : CString := ⟨[ascii '-', ascii '1'], by decide⟩

/-- `17179869185G`: one gibibyte more than 2^64 bytes. -/
def tooManyGiga : CString := ⟨"17179869185G".toList.map ascii, by decide⟩

theorem minusOne_text : SizeText minusOne.chars (-1) 1 :=
  have hnum : Numeral [ascii '1'] 1 := .dec (by decide) (by decide)
  ⟨minusOne.chars, [], (List.append_nil _).symm, .mk (List.forall_mem_nil _) .minus hnum, .none⟩

theorem tooManyGiga_text : SizeText tooManyGiga.chars 17179869185 (1024 ^ 3) :=
  have hnum : Numeral ("17179869185".toList.map ascii) 17179869185 :=
    .dec (by decide) (by decide)
  ⟨_, [ascii 'G'], by decide +kernel, .mk (List.forall_mem_nil _) .none hnum, .giga (.inr rfl)⟩

/-- `-1` is taken for the largest capacity there is, and 2^64 bytes and a gibibyte for a
gibibyte. -/
theorem capacity_wraps :
    (parseSize minusOne = some (BitVec.allOnes 64) ∧
      mainMaxNumKeys (some minusOne) = some 0xffffffff ∧ ¬ ExactCapacity minusOne) ∧
    parseSize tooManyGiga = some (1024 * 1024 * 1024) ∧
      mainMaxNumKeys (some tooManyGiga) = some 261123 ∧ ¬ ExactCapacity tooManyGiga := by
  have h₁ : parseSize minusOne = some (BitVec.allOnes 64) := by decide +kernel
  have h₂ : parseSize tooManyGiga = some (1024 * 1024 * 1024) := by decide +kernel
  refine ⟨⟨h₁, by decide +kernel, fun h => ?_⟩, h₂, by decide +kernel, fun h => ?_⟩
  · have hnone := h.rejects _ _ minusOne_text (.inl (by decide))
    rw [h₁] at hnone
    cases hnone
  · have hnone := h.rejects _ _ tooManyGiga_text (.inr (by decide))
    rw [h₂] at hnone
    cases hnone

end VfuKvssd
