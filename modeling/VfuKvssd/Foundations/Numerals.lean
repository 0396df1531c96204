import VfuKvssd.Foundations.ByteMemory
import Mathlib.Data.List.TakeWhile

/-! # C numerals and `strtoull`

Integer constants of C in base 10, 8 and 16, and the conversion that
`strtoull(.., .., 0)` makes: the longest numeral after white space and a sign.
A minus sign negates the result in the unsigned type.
-/
namespace VfuKvssd.Foundations

/-- A character of the basic set as a byte. -/
def ascii (c : Char) : Byte := BitVec.ofNat 8 c.toNat

/-- `isspace` in the C locale. -/
def isSpace (c : Byte) : Bool := c == 0x20 || (0x09 ≤ c && c ≤ 0x0d)

/-- The value of a letter or digit; 36 for other characters. -/
def digitVal (c : Byte) : ℕ :=
  let n := c.toNat
  if 48 ≤ n ∧ n ≤ 57 then n - 48
  else if 97 ≤ n ∧ n ≤ 122 then n - 87
  else if 65 ≤ n ∧ n ≤ 90 then n - 55
  else 36

def isDigit (base : ℕ) (c : Byte) : Bool := digitVal c < base

/-- The number that digits stand for, most significant first. -/
def digitsVal (base : ℕ) (ds : List Byte) : ℕ := ds.foldl (fun n c => n * base + digitVal c) 0

def isX (c : Byte) : Bool := c == ascii 'x' || c == ascii 'X'

/-- An integer constant and its value. -/
inductive Numeral : List Byte → ℕ → Prop
  | dec {d : Byte} {ds : List Byte} (hz : d ≠ ascii '0') (hd : ∀ c ∈ d :: ds, isDigit 10 c = true) :
      Numeral (d :: ds) (digitsVal 10 (d :: ds))
  | oct {ds : List Byte} (hd : ∀ c ∈ ds, isDigit 8 c = true) :
      Numeral (ascii '0' :: ds) (digitsVal 8 (ascii '0' :: ds))
  | hex {x d : Byte} {ds : List Byte} (hx : isX x = true)
      (hd : ∀ c ∈ d :: ds, isDigit 16 c = true) :
      Numeral (ascii '0' :: x :: d :: ds) (digitsVal 16 (d :: ds))

/-! ## Conversion -/

def startsHex : List Byte → Bool
  | c :: x :: d :: _ => c == ascii '0' && isX x && isDigit 16 d
  | _ => false

/-- The base that the text selects, and the text from its first digit on. -/
def baseOf (u : List Byte) : ℕ × List Byte :=
  if startsHex u then (16, u.drop 2)
  else if u.head? = some (ascii '0') then (8, u)
  else (10, u)

/-- The longest numeral at the start of a text, and what follows it. -/
def numeralOf (u : List Byte) : Option (ℕ × List Byte) :=
  let b := baseOf u
  let ds := b.2.takeWhile (isDigit b.1)
  if ds = [] then none else some (digitsVal b.1 ds, b.2.dropWhile (isDigit b.1))

/-- Whether there is a minus sign, and the text after the sign. -/
def signOf : List Byte → Bool × List Byte
  | [] => (false, [])
  | c :: cs => if c = ascii '-' then (true, cs) else if c = ascii '+' then (false, cs)
    else (false, c :: cs)

/-- `strtoull` with base 0: the value returned, whether `errno` is `ERANGE`, and the text that the
end pointer names. -/
def strtoull (s : List Byte) : BitVec 64 × Bool × List Byte :=
  let sg := signOf (s.dropWhile isSpace)
  match numeralOf sg.2 with
  | none => (0, false, s)
  | some (n, rest) =>
    if 2 ^ 64 ≤ n then (BitVec.allOnes 64, true, rest)
    else (if sg.1 then -BitVec.ofNat 64 n else BitVec.ofNat 64 n, false, rest)

/-! ## What is converted -/

section Characters

theorem digitVal_space {c : Byte} (h : isSpace c = true) : digitVal c = 36 := by
  revert c
  decide

theorem digitVal_isX {c : Byte} (h : isX c = true) : digitVal c = 33 := by
  revert c
  decide

theorem isDigit_mono {a b : ℕ} (h : a ≤ b) {c : Byte} (hc : isDigit a c = true) :
    isDigit b c = true := by
  simp only [isDigit, decide_eq_true_eq] at hc ⊢
  omega

end Characters

/-- The text goes on with no character of a numeral. -/
def Stops (tail : List Byte) : Prop :=
  ∀ c ∈ tail.head?, isDigit 16 c = false ∧ isX c = false

theorem Stops.isDigit {tail : List Byte} (h : Stops tail) {base : ℕ} (hb : base ≤ 16) :
    ∀ c ∈ tail.head?, isDigit base c = false := by
  intro c hc
  rw [Bool.eq_false_iff]
  intro hd
  have hno := (h c hc).1
  rw [isDigit_mono hb hd] at hno
  cases hno

section Split
variable {base : ℕ} {ds tail : List Byte}

theorem takeWhile_digits (hd : ∀ c ∈ ds, isDigit base c = true)
    (ht : ∀ c ∈ tail.head?, isDigit base c = false) :
    (ds ++ tail).takeWhile (isDigit base) = ds ∧ (ds ++ tail).dropWhile (isDigit base) = tail := by
  rw [List.takeWhile_append_of_pos hd, List.dropWhile_append_of_pos hd]
  cases tail with
  | nil => simp
  | cons c cs =>
    have hc := ht c rfl
    rw [List.takeWhile_cons_of_neg (by simp [hc]), List.dropWhile_cons_of_neg (by simp [hc])]
    exact ⟨List.append_nil _, rfl⟩

theorem takeWhile_space {ws : List Byte} (hw : ∀ c ∈ ws, isSpace c = true)
    (ht : ∀ c ∈ tail.head?, isSpace c = false) : (ws ++ tail).dropWhile isSpace = tail := by
  rw [List.dropWhile_append_of_pos hw]
  cases tail with
  | nil => rfl
  | cons c cs => exact List.dropWhile_cons_of_neg (by simp [ht c rfl])

end Split

theorem exists_of_startsHex {u : List Byte} (h : startsHex u = true) :
    ∃ x d cs, u = ascii '0' :: x :: d :: cs ∧ isX x = true := by
  match u, h with
  | c :: x :: d :: cs, h =>
    simp only [startsHex, Bool.and_eq_true, beq_iff_eq] at h
    exact ⟨x, d, cs, by rw [h.1.1], h.1.2⟩

theorem numeralOf_sound {u rest : List Byte} {n : ℕ} (h : numeralOf u = some (n, rest)) :
    ∃ num, u = num ++ rest ∧ Numeral num n := by
  simp only [numeralOf] at h
  split at h
  · cases h
  rename_i hne
  obtain ⟨rfl, rfl⟩ := Prod.mk.inj (Option.some.inj h)
  have hall : ∀ c ∈ (baseOf u).2.takeWhile (isDigit (baseOf u).1), isDigit (baseOf u).1 c = true :=
    fun c hc => List.mem_takeWhile_imp hc
  have hsplit := List.takeWhile_append_dropWhile (p := isDigit (baseOf u).1) (l := (baseOf u).2)
  generalize hds : (baseOf u).2.takeWhile (isDigit (baseOf u).1) = ds at hne hall hsplit ⊢
  generalize (baseOf u).2.dropWhile (isDigit (baseOf u).1) = rest at hsplit ⊢
  obtain ⟨d, ds, rfl⟩ := List.exists_cons_of_ne_nil hne
  rw [baseOf] at hall hsplit ⊢
  split at hall
  · rename_i hx
    simp only [hx, if_true] at hsplit ⊢
    obtain ⟨x, e, cs, rfl, hisX⟩ := exists_of_startsHex hx
    refine ⟨ascii '0' :: x :: d :: ds, ?_, .hex hisX hall⟩
    rw [List.drop_succ_cons, List.drop_succ_cons, List.drop_zero] at hsplit
    rw [List.cons_append, List.cons_append, hsplit]
  · rename_i hx
    simp only [hx, Bool.false_eq_true, if_false] at hsplit hall ⊢
    split at hall
    · rename_i hz
      simp only [hz, if_true] at hsplit ⊢
      rw [← hsplit, List.cons_append, List.head?_cons, Option.some.injEq] at hz
      subst hz
      exact ⟨_, hsplit.symm, .oct fun c hc => hall c (List.mem_cons_of_mem _ hc)⟩
    · rename_i hz
      simp only [hz, if_false] at hsplit ⊢
      refine ⟨_, hsplit.symm, .dec (fun he => hz ?_) hall⟩
      rw [← hsplit, he]
      rfl

theorem numeralOf_complete {num tail : List Byte} {n : ℕ} (h : Numeral num n) (ht : Stops tail) :
    numeralOf (num ++ tail) = some (n, tail) := by
  have hbase {base : ℕ} {d : Byte} {ds : List Byte} (hb : base ≤ 16)
      (hd : ∀ c ∈ d :: ds, isDigit base c = true) (hu : baseOf (num ++ tail) = (base, d :: ds ++ tail)) :
      numeralOf (num ++ tail) = some (digitsVal base (d :: ds), tail) := by
    obtain ⟨htake, hdrop⟩ := takeWhile_digits hd (ht.isDigit hb)
    simp only [numeralOf, hu, htake, hdrop]
    exact if_neg (List.cons_ne_nil _ _)
  cases h with
  | @dec d ds hz hd =>
    refine hbase (by decide) hd ?_
    have hx : ¬ startsHex (d :: ds ++ tail) = true := fun hx => by
      obtain ⟨x, e, cs, hu, -⟩ := exists_of_startsHex hx
      exact hz (List.cons.inj hu).1
    rw [baseOf, if_neg hx]
    exact if_neg fun h => hz (Option.some.inj h)
  | @oct ds hd =>
    have hall : ∀ c ∈ ascii '0' :: ds, isDigit 8 c = true :=
      List.forall_mem_cons.mpr ⟨by decide, hd⟩
    refine hbase (by decide) hall ?_
    have hx : ¬ startsHex (ascii '0' :: ds ++ tail) = true := fun hx => by
      obtain ⟨x, e, cs, hu, hisX⟩ := exists_of_startsHex hx
      have hrest : ds ++ tail = x :: e :: cs := (List.cons.inj hu).2
      cases ds with
      | nil =>
        have hstop := (ht x (by rw [show tail = x :: e :: cs from hrest]; rfl)).2
        rw [hisX] at hstop
        cases hstop
      | cons d ds =>
        -- an octal digit is no x
        obtain rfl := (List.cons.inj hrest).1
        have hoct := hd d (List.mem_cons_self ..)
        rw [isDigit, digitVal_isX hisX] at hoct
        exact absurd hoct (by decide)
    rw [baseOf, if_neg hx]
    exact if_pos rfl
  | @hex x d ds hx hd =>
    refine hbase le_rfl hd ?_
    have hstart : startsHex (ascii '0' :: x :: d :: ds ++ tail) = true := by
      have hdig := hd d (List.mem_cons_self ..)
      simp only [List.cons_append, startsHex, hx, hdig, beq_self_eq_true, Bool.and_self]
    rw [baseOf, if_pos hstart]
    rfl

/-! ## Signed numerals -/

/-- A sign and the factor it stands for. -/
inductive Sign : List Byte → ℤ → Prop
  | none : Sign [] 1
  | plus : Sign [ascii '+'] 1
  | minus : Sign [ascii '-'] (-1)

/-- White space, a sign and a numeral, and the integer they stand for. -/
inductive SignedNumeral : List Byte → ℤ → Prop
  | mk {ws sign num : List Byte} {e : ℤ} {n : ℕ} (hw : ∀ c ∈ ws, isSpace c = true)
      (hs : Sign sign e) (hn : Numeral num n) : SignedNumeral (ws ++ sign ++ num) (e * n)

theorem Numeral.head {num : List Byte} {n : ℕ} (h : Numeral num n) :
    ∃ d ds, num = d :: ds ∧ isDigit 10 d = true := by
  cases h with
  | dec _ hd => exact ⟨_, _, rfl, hd _ (List.mem_cons_self ..)⟩
  | oct | hex => exact ⟨_, _, rfl, by decide⟩

theorem SignedNumeral.ne_nil {text : List Byte} {z : ℤ} (h : SignedNumeral text z) : text ≠ [] := by
  obtain ⟨hw, hs, hn⟩ := h
  obtain ⟨d, ds, rfl, -⟩ := hn.head
  simp

theorem signOf_sound (u : List Byte) :
    ∃ sign, u = sign ++ (signOf u).2 ∧ Sign sign (if (signOf u).1 then -1 else 1) := by
  cases u with
  | nil => exact ⟨[], rfl, .none⟩
  | cons c cs =>
    by_cases hm : c = ascii '-'
    · rw [signOf, if_pos hm, hm]
      exact ⟨[ascii '-'], rfl, .minus⟩
    by_cases hp : c = ascii '+'
    · rw [signOf, if_neg hm, if_pos hp, hp]
      exact ⟨[ascii '+'], rfl, .plus⟩
    · rw [signOf, if_neg hm, if_neg hp]
      exact ⟨[], rfl, .none⟩

theorem signOf_complete {sign num t : List Byte} {e : ℤ} {n : ℕ} (hs : Sign sign e)
    (hn : Numeral num n) :
    (signOf (sign ++ num ++ t)).2 = num ++ t ∧
      e = if (signOf (sign ++ num ++ t)).1 then -1 else 1 := by
  cases hs with
  | minus => exact ⟨rfl, rfl⟩
  | plus => exact ⟨rfl, rfl⟩
  | none =>
    obtain ⟨d, ds, rfl, hd⟩ := hn.head
    have hm : d ≠ ascii '-' := fun h => absurd (h ▸ hd) (by decide)
    have hp : d ≠ ascii '+' := fun h => absurd (h ▸ hd) (by decide)
    have hsign : signOf ([] ++ d :: ds ++ t) = (false, d :: ds ++ t) := by
      rw [List.nil_append, List.cons_append, signOf, if_neg hm, if_neg hp]
    rw [hsign]
    exact ⟨rfl, rfl⟩

theorem ofInt_signed (b : Bool) (n : ℕ) :
    (if b then -BitVec.ofNat 64 n else BitVec.ofNat 64 n) =
      BitVec.ofInt 64 ((if b then -1 else 1) * n) := by
  cases b with
  | false => simp
  | true => simp [BitVec.ofInt_neg]

/-- A conversion reads a signed numeral; it is out of range exactly from 2^64 on. -/
theorem strtoull_sound {s rest : List Byte} {v : BitVec 64} {erange : Bool}
    (h : strtoull s = (v, erange, rest)) (hne : rest ≠ s) :
    ∃ text z, s = text ++ rest ∧ SignedNumeral text z ∧
      (erange = false → z.natAbs < 2 ^ 64 ∧ v = BitVec.ofInt 64 z) := by
  obtain ⟨sign, hsign, hsg⟩ := signOf_sound (s.dropWhile isSpace)
  have hspace := List.takeWhile_append_dropWhile (p := isSpace) (l := s)
  simp only [strtoull] at h
  split at h
  · exact absurd (Prod.mk.inj (Prod.mk.inj h).2).2.symm hne
  rename_i n rest' hnum
  obtain ⟨num, hu, hn⟩ := numeralOf_sound hnum
  have hrest : rest' = rest := by
    split at h
    · exact (Prod.mk.inj (Prod.mk.inj h).2).2
    · exact (Prod.mk.inj (Prod.mk.inj h).2).2
  subst hrest
  refine ⟨s.takeWhile isSpace ++ sign ++ num, _, ?_,
    .mk (fun c hc => List.mem_takeWhile_imp hc) hsg hn, fun he => ?_⟩
  · rw [List.append_assoc, List.append_assoc, ← hu, ← hsign, hspace]
  · split at h
    · rw [he] at h
      exact absurd (Prod.mk.inj (Prod.mk.inj h).2).1 (by decide)
    · rename_i hlt
      refine ⟨?_, (Prod.mk.inj h).1.symm.trans (ofInt_signed _ n)⟩
      rw [Int.natAbs_mul, Int.natAbs_natCast]
      split_ifs <;> simpa using hlt

/-- A signed numeral is converted up to where it stops. -/
theorem strtoull_complete {text tail : List Byte} {z : ℤ} (h : SignedNumeral text z)
    (ht : Stops tail) :
    strtoull (text ++ tail) =
      if z.natAbs < 2 ^ 64 then (BitVec.ofInt 64 z, false, tail)
      else (BitVec.allOnes 64, true, tail) := by
  obtain ⟨hw, hs, hn⟩ := h
  rename_i ws sign num e n
  have hskip : (ws ++ sign ++ num ++ tail).dropWhile isSpace = sign ++ num ++ tail := by
    rw [List.append_assoc, List.append_assoc, ← List.append_assoc sign]
    refine takeWhile_space hw fun c hc => ?_
    obtain ⟨d, ds, rfl, hd⟩ := hn.head
    rw [Bool.eq_false_iff]
    intro hsp
    cases hs with
    | minus | plus =>
      rw [← Option.some.inj hc] at hsp
      exact absurd hsp (by decide)
    | none =>
      obtain rfl : d = c := Option.some.inj hc
      rw [isDigit, digitVal_space hsp] at hd
      exact absurd hd (by decide)
  obtain ⟨hrest, he⟩ := signOf_complete (t := tail) hs hn
  simp only [strtoull, hskip, hrest, numeralOf_complete hn ht]
  have habs : (e * n).natAbs = n := by
    rw [he]
    split_ifs <;> simp
  rw [habs]
  by_cases hlt : n < 2 ^ 64
  · rw [if_neg (by omega), if_pos hlt, ofInt_signed, ← he]
  · rw [if_pos (by omega), if_neg hlt]

end VfuKvssd.Foundations
