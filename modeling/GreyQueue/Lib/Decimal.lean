import Mathlib.Data.Int.Log
import Mathlib.Data.Rat.Defs
import Mathlib.Data.Rat.Floor
import Mathlib.Algebra.Order.Field.Rat
import Mathlib.Tactic.Ring
import Mathlib.Tactic.Linarith
import Mathlib.Tactic.FieldSimp
import Mathlib.Tactic.NormNum
import Mathlib.Tactic.IntervalCases

/-!
# Decimal texts of integers and floats

`intRepr` is the usual decimal text of an integer.  A finite binary float is
represented by the shortest decimal that reads back to it, which is what its
`repr` prints: a sign, a significand without trailing zeros and a power of ten.
Two finite floats are equal exactly when these decimals are, up to the sign of
zero, so the decimal stands for the float wherever only equality and text matter.
The value of the float is not the decimal but the binary number nearest to it, and
this is what decides whether the float equals an integer: `1e23` is the integer
`99999999999999991611392`.

`FloatRepr.repr` lays the digits out as the `'r'` format does: positional for a
decimal point between the fourth place after zero and the sixteenth digit,
scientific otherwise, always with a point or an exponent, so that the text of a
float is never the text of an integer.  `readNumber` reads the number in front of a text; a
float gets the decimal that stands there, so the text that `repr` prints reads back.

## Main results

* `readNumber_intRepr`, `readNumber_repr` — the text of a number reads back.
* `FloatRepr.eq_of_toRat_eq` — a value has one representation, signed zero aside.
-/

namespace Lib

/-! ## Digits -/

theorem isDigit_toDigits {n : ℕ} {c : Char} (h : c ∈ Nat.toDigits 10 n) : c.isDigit = true :=
  Nat.isDigit_of_mem_toDigits (by decide) (by decide) h

theorem head_toDigits {n : ℕ} (h : n ≠ 0) : (Nat.toDigits 10 n).head? ≠ some '0' := by
  induction n using Nat.strong_induction_on with
  | _ n ih =>
      by_cases hn : n < 10
      · rw [Nat.toDigits_of_lt_base hn]
        interval_cases n <;> first | exact absurd rfl h | decide
      · rw [Nat.toDigits_of_base_le (by decide) (by omega),
          List.head?_append_of_ne_nil _ Nat.toDigits_ne_nil]
        exact ih (n / 10) (by omega) (by omega)

/-- Decimal text of a natural number, padded with zeros on the left to `width`. -/
def padded (width n : ℕ) : List Char :=
  List.replicate (width - (Nat.toDigits 10 n).length) '0' ++ Nat.toDigits 10 n

theorem padded_injective (width : ℕ) : Function.Injective (padded width) := by
  intro m n h
  have := congrArg (fun l => Nat.ofDigitChars 10 l 0) h
  simpa [padded, Nat.ofDigitChars_append] using this

theorem isDigit_padded {width n : ℕ} {c : Char} (h : c ∈ padded width n) :
    c.isDigit = true := by
  rcases List.mem_append.mp h with h | h
  · rw [List.eq_of_mem_replicate h]; decide
  · exact isDigit_toDigits h

/-- Texts cut at the first character outside a class have one cut. -/
theorem cut_unique {p : Char → Prop} {l₁ l₂ r₁ r₂ : List Char} {a₁ a₂ : Char}
    (h₁ : ∀ c ∈ l₁, p c) (h₂ : ∀ c ∈ l₂, p c) (ha₁ : ¬p a₁) (ha₂ : ¬p a₂)
    (h : l₁ ++ a₁ :: r₁ = l₂ ++ a₂ :: r₂) : l₁ = l₂ ∧ a₁ = a₂ ∧ r₁ = r₂ := by
  induction l₁ generalizing l₂ with
  | nil =>
      cases l₂ with
      | nil => simpa using h
      | cons c l₂ =>
          have : a₁ = c := (List.cons.inj h).1
          exact absurd (this ▸ h₂ c List.mem_cons_self) ha₁
  | cons c l₁ ih =>
      cases l₂ with
      | nil =>
          have : c = a₂ := (List.cons.inj h).1
          exact absurd (this ▸ h₁ c List.mem_cons_self) ha₂
      | cons c' l₂ =>
          obtain ⟨hc, ht⟩ := List.cons.inj h
          obtain ⟨hl, ha, hr⟩ := ih (fun c hc => h₁ c (List.mem_cons_of_mem _ hc))
            (fun c hc => h₂ c (List.mem_cons_of_mem _ hc)) ht
          exact ⟨by rw [hc, hl], ha, hr⟩

/-- Decimal text of an integer. -/
def intRepr (n : ℤ) : List Char :=
  if n < 0 then '-' :: Nat.toDigits 10 n.natAbs else Nat.toDigits 10 n.natAbs

/-! ## Floats -/

/-- A finite float, by the shortest decimal that reads back to it: the value is
`± digits * 10 ^ exp`, without trailing zeros in `digits`. -/
structure FloatRepr where
  neg : Bool
  digits : ℕ
  exp : ℤ
  canonical : digits % 10 ≠ 0 ∨ (digits = 0 ∧ exp = 0)
  deriving DecidableEq

namespace FloatRepr

/-- The decimal value. -/
def toRat (x : FloatRepr) : ℚ :=
  (if x.neg then -1 else 1) * x.digits * (10 : ℚ) ^ x.exp

/-- Remove trailing zeros, counting them; `fuel` bounds the number of digits. -/
def strip : ℕ → ℕ → ℤ → ℕ × ℤ
  | 0, d, e => (d, e)
  | fuel + 1, d, e => if d % 10 = 0 then strip fuel (d / 10) (e + 1) else (d, e)

private theorem strip_canonical : ∀ (fuel d : ℕ) (e : ℤ), 0 < d → d ≤ fuel →
    (strip fuel d e).1 % 10 ≠ 0
  | 0, d, _, hd, hf => by omega
  | fuel + 1, d, e, hd, hf => by
      unfold strip
      split
      · exact strip_canonical fuel (d / 10) (e + 1) (by omega) (by omega)
      · assumption

private theorem strip_value : ∀ (fuel d : ℕ) (e : ℤ),
    ((strip fuel d e).1 : ℚ) * 10 ^ (strip fuel d e).2 = d * 10 ^ e
  | 0, _, _ => rfl
  | fuel + 1, d, e => by
      unfold strip
      split
      · rename_i h
        rw [strip_value fuel (d / 10) (e + 1), zpow_add_one₀ (by norm_num)]
        have : d = 10 * (d / 10) := by omega
        conv_rhs => rw [this]
        push_cast
        ring
      · rfl

private theorem strip_scaled {d : ℕ} (hd : d % 10 ≠ 0) (k : ℕ) : ∀ (fuel : ℕ) (e : ℤ),
    d * 10 ^ k ≤ fuel → strip fuel (d * 10 ^ k) e = (d, e + k) := by
  induction k with
  | zero =>
      intro fuel e hf
      cases fuel with
      | zero => omega
      | succ fuel => simp [strip, hd]
  | succ k ih =>
      intro fuel e hf
      have hpow : d * 10 ^ (k + 1) = d * 10 ^ k * 10 := by ring
      rw [hpow] at hf ⊢
      cases fuel with
      | zero =>
          have hpos : 0 < d * 10 ^ k := by
            have hd' : 0 < d := by omega
            positivity
          omega
      | succ fuel =>
          rw [strip, if_pos (by omega), Nat.mul_div_cancel _ (by decide), ih fuel _ (by omega)]
          push_cast
          ring_nf

/-- The float of an integer. -/
def ofInt (n : ℤ) : FloatRepr :=
  if h : n = 0 then ⟨false, 0, 0, Or.inr ⟨rfl, rfl⟩⟩
  else ⟨decide (n < 0), (strip n.natAbs n.natAbs 0).1, (strip n.natAbs n.natAbs 0).2,
    Or.inl (strip_canonical _ _ _ (by omega) le_rfl)⟩

@[simp] theorem toRat_ofInt (n : ℤ) : (ofInt n).toRat = n := by
  unfold ofInt
  split
  · rename_i h; simp [toRat, h]
  · have hv := strip_value n.natAbs n.natAbs 0
    simp only [toRat, mul_assoc, hv, zpow_zero, mul_one, decide_eq_true_eq]
    rcases lt_or_ge n 0 with hn | hn
    · have hq : (n : ℚ) < 0 := by exact_mod_cast hn
      simp [hn, Nat.cast_natAbs, abs_of_neg hq]
    · have hq : (0 : ℚ) ≤ n := by exact_mod_cast hn
      simp [not_lt.mpr hn, Nat.cast_natAbs, abs_of_nonneg hq]

/-- The float `± n * 10 ^ e`. -/
def ofDecimal (neg : Bool) (n : ℕ) (e : ℤ) : FloatRepr :=
  if h : n = 0 then ⟨neg, 0, 0, Or.inr ⟨rfl, rfl⟩⟩
  else ⟨neg, (strip n n e).1, (strip n n e).2,
    Or.inl (strip_canonical _ _ _ (Nat.pos_of_ne_zero h) le_rfl)⟩

/-- A scaled significand gives the float back. -/
theorem ofDecimal_scaled (x : FloatRepr) (k : ℕ) :
    ofDecimal x.neg (x.digits * 10 ^ k) (x.exp - k) = x := by
  obtain ⟨neg, digits, exp, hdigits | ⟨rfl, rfl⟩⟩ := x
  · have hne : digits * 10 ^ k ≠ 0 := by
      have hpos : 0 < digits := by omega
      positivity
    simp [ofDecimal, hne, strip_scaled hdigits k _ _ le_rfl]
  · simp [ofDecimal]

/-- The float `-0.0`. -/
def isNegZero (x : FloatRepr) : Bool := x.neg && x.digits == 0

/-- Significands without trailing zeros are determined by any common scaling. -/
private theorem scaled_inj {a b k l : ℕ} (ha : a % 10 ≠ 0) (hb : b % 10 ≠ 0)
    (h : a * 10 ^ k = b * 10 ^ l) : a = b ∧ k = l := by
  have key : ∀ {a b k l : ℕ}, b % 10 ≠ 0 → k ≤ l → a * 10 ^ k = b * 10 ^ l →
      a = b * 10 ^ (l - k) := by
    intro a b k l _ hkl h
    have hp : (10 : ℕ) ^ l = 10 ^ (l - k) * 10 ^ k := by rw [← pow_add]; congr 1; omega
    rw [hp, ← mul_assoc] at h
    exact Nat.eq_of_mul_eq_mul_right (by positivity) h
  have zero : ∀ {a b d : ℕ}, a % 10 ≠ 0 → a = b * 10 ^ d → d = 0 := by
    intro a b d ha h
    by_contra hd
    obtain ⟨d, rfl⟩ := Nat.exists_eq_succ_of_ne_zero hd
    rw [pow_succ, ← mul_assoc] at h
    omega
  rcases le_total k l with hkl | hkl
  · have h1 := key hb hkl h
    have h2 := zero ha h1
    exact ⟨by simpa [h2] using h1, by omega⟩
  · have h1 := key ha hkl h.symm
    have h2 := zero hb h1
    exact ⟨by simpa [h2] using h1.symm, by omega⟩

/-- Digits scaled by a common power of ten determine the representation. -/
private theorem eq_of_scaled {x y : FloatRepr} {k l : ℕ} (hs : x.neg = y.neg)
    (hexp : (k : ℤ) - x.exp = l - y.exp) (h : x.digits * 10 ^ k = y.digits * 10 ^ l) :
    x = y := by
  obtain ⟨xn, xd, xe, hx⟩ := x
  obtain ⟨yn, yd, ye, hy⟩ := y
  simp only at hs hexp h hx hy
  have hpow : ∀ n : ℕ, 0 < 10 ^ n := fun n => by positivity
  rcases hx with hx | ⟨hx, hxe⟩ <;> rcases hy with hy | ⟨hy, hye⟩
  · obtain ⟨hd, hk⟩ := scaled_inj hx hy h
    subst hs; subst hd; subst hk
    have : xe = ye := by omega
    subst this; rfl
  · rw [hy, Nat.zero_mul] at h
    rcases Nat.mul_eq_zero.mp h with h | h
    · omega
    · exact absurd h (hpow k).ne'
  · rw [hx, Nat.zero_mul] at h
    rcases Nat.mul_eq_zero.mp h.symm with h | h
    · omega
    · exact absurd h (hpow l).ne'
  · subst hs; subst hx; subst hy; subst hxe; subst hye; rfl

/-- A value has one representation, the sign of zero aside. -/
theorem eq_of_toRat_eq {x y : FloatRepr} (hx : x.isNegZero = false) (hy : y.isNegZero = false)
    (h : x.toRat = y.toRat) : x = y := by
  have hpos : ∀ e : ℤ, (0 : ℚ) < 10 ^ e := fun e => zpow_pos (by norm_num) e
  have hzero : ∀ z : FloatRepr, z.toRat = 0 ↔ z.digits = 0 := by
    intro z
    unfold toRat
    cases z.neg <;> simp [(hpos z.exp).ne']
  have hsign : ∀ z : FloatRepr, z.digits ≠ 0 → (z.neg = true ↔ z.toRat < 0) := by
    intro z hz
    have hd : (0 : ℚ) < z.digits := by exact_mod_cast Nat.pos_of_ne_zero hz
    have := mul_pos hd (hpos z.exp)
    unfold toRat
    cases z.neg <;> simp <;> linarith
  by_cases hd : x.digits = 0
  · have hd' : y.digits = 0 := (hzero y).mp (h ▸ (hzero x).mpr hd)
    have hex : x.exp = 0 := by have := x.canonical; omega
    have hey : y.exp = 0 := by have := y.canonical; omega
    simp only [isNegZero, hd, hd', beq_self_eq_true, Bool.and_true] at hx hy
    exact eq_of_scaled (k := 0) (l := 0) (hx.trans hy.symm) (by simp [hex, hey]) (by simp [hd, hd'])
  · have hd' : y.digits ≠ 0 := fun hy0 => hd ((hzero x).mp (h ▸ (hzero y).mpr hy0))
    have hs : x.neg = y.neg := by
      rw [Bool.eq_iff_iff, hsign x hd, hsign y hd', h]
    -- scale both sides by the smaller exponent to compare natural numbers
    obtain ⟨k, hk⟩ := Int.eq_ofNat_of_zero_le (sub_nonneg.mpr (min_le_left x.exp y.exp))
    obtain ⟨l, hl⟩ := Int.eq_ofNat_of_zero_le (sub_nonneg.mpr (min_le_right x.exp y.exp))
    refine eq_of_scaled (k := k) (l := l) hs (by omega) ?_
    have hx10 : (10 : ℚ) ^ x.exp = 10 ^ k * 10 ^ min x.exp y.exp := by
      rw [← zpow_natCast, ← zpow_add₀ (by norm_num)]; congr 1; omega
    have hy10 : (10 : ℚ) ^ y.exp = 10 ^ l * 10 ^ min x.exp y.exp := by
      rw [← zpow_natCast, ← zpow_add₀ (by norm_num)]; congr 1; omega
    have hm := (hpos (min x.exp y.exp)).ne'
    have hsgn : (if y.neg then (-1 : ℚ) else 1) ≠ 0 := by split <;> norm_num
    simp only [toRat, hs, hx10, hy10, mul_assoc] at h
    have h1 := mul_left_cancel₀ hsgn h
    simp only [← mul_assoc] at h1
    exact_mod_cast mul_right_cancel₀ hm h1

/-! ### The binary value -/

/-- The nearest integer, the even one of two. -/
def roundEven (q : ℚ) : ℤ :=
  if q - ⌊q⌋ < 1 / 2 then ⌊q⌋
  else if 1 / 2 < q - ⌊q⌋ then ⌊q⌋ + 1
  else if ⌊q⌋ % 2 = 0 then ⌊q⌋ else ⌊q⌋ + 1

/-- The exponent of the last of the 53 bits of a significand, which subnormal numbers share. -/
def lastBit (q : ℚ) : ℤ := max (Int.log 2 |q| - 52) (-1074)

/-- The nearest binary float, the even one of two. -/
def binary64 (q : ℚ) : ℚ := roundEven (q / 2 ^ lastBit q) * 2 ^ lastBit q

/-- The value of a float, which its decimal is rounded to. -/
def exact (x : FloatRepr) : ℚ := binary64 x.toRat

example : (ofInt (10 ^ 22)).exact = 10 ^ 22 ∧
    (ofInt (10 ^ 23)).exact = 99999999999999991611392 := by decide +kernel

/-! ### Text -/

/-- Number of digits before the decimal point; nonpositive for values below `0.1`. -/
def point (x : FloatRepr) : ℤ := (Nat.toDigits 10 x.digits).length + x.exp

/-- The text without its sign: positional or scientific layout of the digits. -/
def body (x : FloatRepr) : List Char :=
  let d := Nat.toDigits 10 x.digits
  if -4 < x.point ∧ x.point ≤ 16 then
    if x.point ≤ 0 then ['0'] ++ '.' :: (List.replicate (-x.point).toNat '0' ++ d)
    else if x.exp < 0 then d.take x.point.toNat ++ '.' :: d.drop x.point.toNat
    else (d ++ List.replicate x.exp.toNat '0') ++ '.' :: ['0']
  else (d.take 1 ++ if d.length = 1 then [] else '.' :: d.drop 1) ++
    'e' :: (if x.point - 1 < 0 then '-' else '+') :: padded 2 (x.point - 1).natAbs

/-- The text of a float, as `repr` prints it. -/
def repr (x : FloatRepr) : List Char := if x.neg then '-' :: x.body else x.body

/-! ### The parts of a text -/

/-- The digits after the point, if there are any. -/
def pointText (frac : List Char) : List Char := if frac = [] then [] else '.' :: frac

/-- The exponent, if there is one. -/
def exponentText : Option ℤ → List Char
  | none => []
  | some e => 'e' :: (if e < 0 then '-' else '+') :: padded 2 e.natAbs

/-- The parts of a text: the digits before and after the point, and the exponent.  Together
they spell the digits of the float, scaled by a power of ten. -/
structure Parts (x : FloatRepr) (int frac : List Char) (exp : Option ℤ) : Prop where
  text : x.body = int ++ pointText frac ++ exponentText exp
  int_digit : ∀ c ∈ int, c.isDigit = true
  frac_digit : ∀ c ∈ frac, c.isDigit = true
  int_lead : int ≠ [] ∧ (int.length = 1 ∨ int.head? ≠ some '0')
  marked : frac = [] → exp ≠ none
  value : ∃ k : ℕ, Nat.ofDigitChars 10 (int ++ frac) 0 = x.digits * 10 ^ k ∧
    exp.getD 0 - frac.length = x.exp - k

theorem exists_parts (x : FloatRepr) : ∃ int frac exp, x.Parts int frac exp := by
  have hd : ∀ c ∈ Nat.toDigits 10 x.digits, c.isDigit = true := fun c hc => isDigit_toDigits hc
  have hz : ∀ n, ∀ c ∈ List.replicate n '0', c.isDigit = true := by
    intro n c hc
    rw [List.eq_of_mem_replicate hc]
    decide
  have hlen : 0 < (Nat.toDigits 10 x.digits).length := Nat.length_toDigits_pos
  have hp : x.point = (Nat.toDigits 10 x.digits).length + x.exp := rfl
  -- a significand of zero has no exponent
  have hzero : x.exp ≠ 0 → (Nat.toDigits 10 x.digits).head? ≠ some '0' := by
    intro hexp
    refine head_toDigits fun h => ?_
    have := x.canonical
    omega
  by_cases h : -4 < x.point ∧ x.point ≤ 16
  swap
  · -- scientific layout
    refine ⟨(Nat.toDigits 10 x.digits).take 1, (Nat.toDigits 10 x.digits).drop 1,
      some (x.point - 1), ?_, fun c hc => hd c (List.mem_of_mem_take hc),
      fun c hc => hd c (List.mem_of_mem_drop hc), ⟨?_, Or.inl ?_⟩, fun _ => by simp, 0, ?_, ?_⟩
    · have hnil : (Nat.toDigits 10 x.digits).drop 1 = [] ↔
          (Nat.toDigits 10 x.digits).length = 1 := by
        rw [List.drop_eq_nil_iff]
        omega
      simp only [body, h, if_false, pointText, exponentText, hnil]
    · exact fun hnil => by
        have := congrArg List.length hnil
        simp only [List.length_take, List.length_nil] at this
        omega
    · rw [List.length_take]
      omega
    · rw [List.take_append_drop]
      simp
    · simp only [Option.getD_some, List.length_drop]
      omega
  by_cases h0 : x.point ≤ 0
  · refine ⟨['0'], List.replicate (-x.point).toNat '0' ++ Nat.toDigits 10 x.digits, none, ?_,
      by simp, ?_, ⟨by simp, Or.inl rfl⟩, ?_, 0, ?_, ?_⟩
    · simp [body, h, h0, pointText, exponentText, Nat.toDigits_ne_nil]
    · intro c hc
      exact (List.mem_append.mp hc).elim (hz _ c) (hd c)
    · intro hnil
      exact absurd (List.append_eq_nil_iff.mp hnil).2 Nat.toDigits_ne_nil
    · rw [Nat.ofDigitChars_append, Nat.ofDigitChars_append, Nat.ofDigitChars_replicate_zero]
      simp [Nat.ofDigitChars_cons]
    · simp only [Option.getD_none, List.length_append, List.length_replicate]
      omega
  by_cases hexp : x.exp < 0
  · have hcut : 0 < x.point.toNat ∧ x.point.toNat < (Nat.toDigits 10 x.digits).length := by omega
    refine ⟨(Nat.toDigits 10 x.digits).take x.point.toNat,
      (Nat.toDigits 10 x.digits).drop x.point.toNat, none, ?_,
      fun c hc => hd c (List.mem_of_mem_take hc), fun c hc => hd c (List.mem_of_mem_drop hc),
      ⟨?_, Or.inr ?_⟩, ?_, 0, ?_, ?_⟩
    · have hne : (Nat.toDigits 10 x.digits).drop x.point.toNat ≠ [] := by
        rw [Ne, List.drop_eq_nil_iff]
        omega
      simp [body, h, h0, hexp, pointText, exponentText, hne]
    · exact fun hnil => by
        have := congrArg List.length hnil
        simp only [List.length_take, List.length_nil] at this
        omega
    · rw [List.head?_take, if_neg (by omega)]
      exact hzero hexp.ne
    · rw [List.drop_eq_nil_iff]
      omega
    · rw [List.take_append_drop]
      simp
    · simp only [Option.getD_none, List.length_drop]
      omega
  · refine ⟨Nat.toDigits 10 x.digits ++ List.replicate x.exp.toNat '0', ['0'], none, ?_, ?_,
      by simp, ⟨by simp [Nat.toDigits_ne_nil], ?_⟩, by simp, x.exp.toNat + 1, ?_, ?_⟩
    · simp [body, h, h0, hexp, pointText, exponentText]
    · intro c hc
      exact (List.mem_append.mp hc).elim (hd c) (hz _ c)
    · rcases eq_or_ne x.digits 0 with hdigits | hdigits
      · have := x.canonical
        left
        simp [hdigits, show x.exp = 0 by omega]
      · right
        rw [List.head?_append_of_ne_nil _ Nat.toDigits_ne_nil]
        exact head_toDigits hdigits
    · rw [Nat.ofDigitChars_append, Nat.ofDigitChars_append, Nat.ofDigitChars_ten_toDigits,
        Nat.ofDigitChars_replicate_zero]
      simp [Nat.ofDigitChars_cons, pow_succ]
      ring
    · simp only [Option.getD_none, List.length_singleton]
      push_cast
      omega

end FloatRepr

/-! ## Number tokens -/

/-- The characters a number text is made of. -/
def numeric (c : Char) : Bool := c.isDigit || c == '-' || c == '+' || c == '.' || c == 'e'

theorem numeric_of_isDigit {c : Char} (h : c.isDigit = true) : numeric c = true := by
  simp [numeric, h]

theorem numeric_intRepr {n : ℤ} {c : Char} (h : c ∈ intRepr n) : numeric c = true := by
  unfold intRepr at h
  split at h
  · rcases List.mem_cons.mp h with rfl | h
    · decide
    · exact numeric_of_isDigit (isDigit_toDigits h)
  · exact numeric_of_isDigit (isDigit_toDigits h)

theorem numeric_floatRepr {x : FloatRepr} {c : Char} (h : c ∈ x.repr) : numeric c = true := by
  obtain ⟨int, frac, exp, hx⟩ := x.exists_parts
  have hbody : ∀ c ∈ x.body, numeric c = true := by
    intro c hc
    rw [hx.text, List.mem_append, List.mem_append] at hc
    rcases hc with (hc | hc) | hc
    · exact numeric_of_isDigit (hx.int_digit c hc)
    · unfold FloatRepr.pointText at hc
      split at hc
      · cases hc
      · rcases List.mem_cons.mp hc with rfl | hc
        · decide
        · exact numeric_of_isDigit (hx.frac_digit c hc)
    · cases exp with
      | none => cases hc
      | some e =>
          rcases List.mem_cons.mp hc with rfl | hc
          · decide
          rcases List.mem_cons.mp hc with rfl | hc
          · split <;> decide
          · exact numeric_of_isDigit (isDigit_padded hc)
  unfold FloatRepr.repr at h
  split at h
  · rcases List.mem_cons.mp h with rfl | h
    · decide
    · exact hbody c h
  · exact hbody c h

/-! ## Reading -/

/-- The fraction in front of a text, and the rest; a point without digits is left alone. -/
def readFraction : List Char → List Char × List Char
  | '.' :: r => if r.takeWhile Char.isDigit = [] then ([], '.' :: r)
      else (r.takeWhile Char.isDigit, r.dropWhile Char.isDigit)
  | r => ([], r)

/-- The exponent in front of a text, and the rest. -/
def readExponent : List Char → Option ℤ × List Char
  | [] => (none, [])
  | c :: r =>
      let unsigned := if r.head? = some '-' ∨ r.head? = some '+' then r.tail else r
      let n : ℤ := Nat.ofDigitChars 10 (unsigned.takeWhile Char.isDigit) 0
      if (c = 'e' ∨ c = 'E') ∧ unsigned.takeWhile Char.isDigit ≠ [] then
        (some (if r.head? = some '-' then -n else n), unsigned.dropWhile Char.isDigit)
      else (none, c :: r)

/-- The number in front of a text without a sign, and the rest: an integer, or with a
fraction or an exponent a float.  No digit follows a leading zero. -/
def readUnsigned (neg : Bool) (l : List Char) : Option ((ℤ ⊕ FloatRepr) × List Char) :=
  let int := l.takeWhile Char.isDigit
  let fraction := readFraction (l.dropWhile Char.isDigit)
  let exponent := readExponent fraction.2
  if int = [] ∨ (int.length ≠ 1 ∧ int.head? = some '0') then none
  else if fraction.1 = [] ∧ exponent.1 = none then
    let n : ℤ := Nat.ofDigitChars 10 int 0
    some (.inl (if neg then -n else n), exponent.2)
  else some (.inr (.ofDecimal neg (Nat.ofDigitChars 10 (int ++ fraction.1) 0)
    (exponent.1.getD 0 - fraction.1.length)), exponent.2)

/-- The number in front of a text, and the rest. -/
def readNumber (l : List Char) : Option ((ℤ ⊕ FloatRepr) × List Char) :=
  if l.head? = some '-' then readUnsigned true l.tail else readUnsigned false l

/-- No number goes on into the text. -/
def Ends (r : List Char) : Prop := ∀ c ∈ r.head?, numeric c = false ∧ c ≠ 'E'

private theorem takeWhile_digits {d r : List Char} (hd : ∀ c ∈ d, c.isDigit = true)
    (hr : ∀ c ∈ r.head?, c.isDigit = false) :
    (d ++ r).takeWhile Char.isDigit = d ∧ (d ++ r).dropWhile Char.isDigit = r := by
  rw [List.takeWhile_append_of_pos hd, List.dropWhile_append_of_pos hd]
  cases r with
  | nil => simp
  | cons c r => simp [hr c rfl]

theorem Ends.not_digit {r : List Char} (h : Ends r) : ∀ c ∈ r.head?, c.isDigit = false := by
  intro c hc
  have := (h c hc).1
  simp only [numeric, Bool.or_eq_false_iff] at this
  exact this.1.1.1.1

private theorem readExponent_none {r : List Char} (h : Ends r) : readExponent r = (none, r) := by
  cases r with
  | nil => rfl
  | cons c r =>
      obtain ⟨hc, hE⟩ := h c rfl
      have he : c ≠ 'e' := by
        rintro rfl
        exact absurd hc (by decide)
      simp [readExponent, he, hE]

private theorem readExponent_text (exp : Option ℤ) {r : List Char} (h : Ends r) :
    readExponent (FloatRepr.exponentText exp ++ r) = (exp, r) := by
  cases exp with
  | none => exact readExponent_none h
  | some e =>
      have hdigit : ∀ c ∈ padded 2 e.natAbs, c.isDigit = true := fun c hc => isDigit_padded hc
      obtain ⟨htake, hdrop⟩ := takeWhile_digits hdigit h.not_digit
      have hne : padded 2 e.natAbs ≠ [] := by simp [padded, Nat.toDigits_ne_nil]
      have hvalue : Nat.ofDigitChars 10 (padded 2 e.natAbs) 0 = e.natAbs := by
        simp [padded, Nat.ofDigitChars_append]
      simp only [FloatRepr.exponentText, List.cons_append, readExponent]
      by_cases hneg : e < 0
      · simp [hneg, htake, hdrop, hne, hvalue, abs_of_neg]
      · simp [hneg, htake, hdrop, hne, hvalue, abs_of_nonneg (not_lt.mp hneg)]

private theorem readFraction_text {frac r : List Char} (hfrac : ∀ c ∈ frac, c.isDigit = true)
    (hr : ∀ c ∈ r.head?, c.isDigit = false ∧ c ≠ '.') :
    readFraction (FloatRepr.pointText frac ++ r) = (frac, r) := by
  by_cases hne : frac = []
  · subst hne
    cases r with
    | nil => rfl
    | cons c r =>
        have hc := (hr c rfl).2
        simp only [FloatRepr.pointText, if_true, List.nil_append]
        unfold readFraction
        split
        · rename_i heq
          exact absurd (List.cons.inj heq).1 hc
        · rfl
  · obtain ⟨htake, hdrop⟩ := takeWhile_digits hfrac fun c hc => (hr c hc).1
    simp [FloatRepr.pointText, hne, readFraction, htake, hdrop]

private theorem readUnsigned_text (neg : Bool) {int r : List Char} (frac : List Char)
    (exp : Option ℤ) (hint : ∀ c ∈ int, c.isDigit = true)
    (hfrac : ∀ c ∈ frac, c.isDigit = true)
    (hlead : int ≠ [] ∧ (int.length = 1 ∨ int.head? ≠ some '0')) (hr : Ends r) :
    readUnsigned neg (int ++ FloatRepr.pointText frac ++ FloatRepr.exponentText exp ++ r) =
      if frac = [] ∧ exp = none then
        some (.inl (if neg then -(Nat.ofDigitChars 10 int 0 : ℤ) else Nat.ofDigitChars 10 int 0), r)
      else some (.inr (.ofDecimal neg (Nat.ofDigitChars 10 (int ++ frac) 0)
        (exp.getD 0 - frac.length)), r) := by
  -- the exponent does not go on with the fraction, nor the fraction with the integer
  have hexp : ∀ c ∈ (FloatRepr.exponentText exp ++ r).head?, c.isDigit = false ∧ c ≠ '.' := by
    intro c hc
    cases exp with
    | none =>
        refine ⟨hr.not_digit c hc, ?_⟩
        rintro rfl
        exact absurd (hr _ hc).1 (by decide)
    | some e =>
        obtain rfl : 'e' = c := Option.some.inj hc
        exact ⟨by decide, by decide⟩
  have hpoint : ∀ c ∈ (FloatRepr.pointText frac ++ (FloatRepr.exponentText exp ++ r)).head?,
      c.isDigit = false := by
    intro c hc
    by_cases hnil : frac = []
    · rw [FloatRepr.pointText, if_pos hnil] at hc
      exact (hexp c hc).1
    · rw [FloatRepr.pointText, if_neg hnil] at hc
      obtain rfl : '.' = c := Option.some.inj hc
      decide
  obtain ⟨htake, hdrop⟩ := takeWhile_digits hint hpoint
  have hvalid : ¬ (int = [] ∨ (int.length ≠ 1 ∧ int.head? = some '0')) := by
    rintro (h | ⟨h, h0⟩)
    · exact hlead.1 h
    · exact hlead.2.elim h fun hne => hne h0
  simp only [readUnsigned, List.append_assoc, htake, hdrop, readFraction_text hfrac hexp,
    readExponent_text exp hr, if_neg hvalid]

private theorem readNumber_minus (l : List Char) : readNumber ('-' :: l) = readUnsigned true l :=
  if_pos rfl

/-- A text that starts with a digit has no sign. -/
private theorem readNumber_digit {l r : List Char} (hne : l ≠ [])
    (hl : ∀ c ∈ l.head?, c.isDigit = true) :
    readNumber (l ++ r) = readUnsigned false (l ++ r) := by
  refine if_neg fun h => ?_
  rw [List.head?_append_of_ne_nil _ hne] at h
  exact absurd (hl _ h) (by decide)

/-- The text of an integer reads back. -/
theorem readNumber_intRepr (n : ℤ) {r : List Char} (hr : Ends r) :
    readNumber (intRepr n ++ r) = some (.inl n, r) := by
  have hd : ∀ c ∈ Nat.toDigits 10 n.natAbs, c.isDigit = true := fun c hc => isDigit_toDigits hc
  have hlead : Nat.toDigits 10 n.natAbs ≠ [] ∧ ((Nat.toDigits 10 n.natAbs).length = 1 ∨
      (Nat.toDigits 10 n.natAbs).head? ≠ some '0') := by
    refine ⟨Nat.toDigits_ne_nil, ?_⟩
    rcases eq_or_ne n.natAbs 0 with h | h
    · exact Or.inl (by rw [h]; rfl)
    · exact Or.inr (head_toDigits h)
  have htext := fun neg => readUnsigned_text neg [] none hd (by simp) hlead hr
  simp only [FloatRepr.pointText, FloatRepr.exponentText, if_true, List.append_nil,
    Nat.ofDigitChars_ten_toDigits, and_self] at htext
  by_cases hneg : n < 0
  · have habs : -(n.natAbs : ℤ) = n := by omega
    rw [intRepr, if_pos hneg, List.cons_append, readNumber_minus, htext true, if_pos rfl, habs]
  · have habs : (n.natAbs : ℤ) = n := by omega
    rw [intRepr, if_neg hneg, readNumber_digit hlead.1
      fun c hc => hd c (List.mem_of_mem_head? hc), htext false, if_neg (by decide), habs]

/-- The text of a float reads back. -/
theorem readNumber_repr (x : FloatRepr) {r : List Char} (hr : Ends r) :
    readNumber (x.repr ++ r) = some (.inr x, r) := by
  obtain ⟨int, frac, exp, h⟩ := x.exists_parts
  obtain ⟨k, hvalue, hexp⟩ := h.value
  have htext : readUnsigned x.neg (x.body ++ r) = some (.inr x, r) := by
    have hmarked : ¬ (frac = [] ∧ exp = none) := fun hm => h.marked hm.1 hm.2
    rw [h.text, readUnsigned_text _ _ _ h.int_digit h.frac_digit h.int_lead hr, if_neg hmarked,
      hvalue, hexp, FloatRepr.ofDecimal_scaled]
  cases hneg : x.neg with
  | true =>
      rw [hneg] at htext
      rw [FloatRepr.repr, hneg, if_pos rfl, List.cons_append, readNumber_minus, htext]
  | false =>
      rw [hneg] at htext
      have hne : x.body ≠ [] := by simp [h.text, h.int_lead.1]
      rw [FloatRepr.repr, hneg, if_neg (by decide), readNumber_digit hne, htext]
      intro c hc
      rw [h.text, List.append_assoc, List.head?_append_of_ne_nil _ h.int_lead.1] at hc
      exact h.int_digit c (List.mem_of_mem_head? hc)

/-- A number starts with a sign or a digit. -/
theorem head_of_readNumber {l r : List Char} {n : ℤ ⊕ FloatRepr} (h : readNumber l = some (n, r)) :
    ∃ c, l.head? = some c ∧ numeric c = true := by
  by_cases hminus : l.head? = some '-'
  · exact ⟨_, hminus, by decide⟩
  rw [readNumber, if_neg hminus] at h
  cases l with
  | nil => cases h
  | cons c l =>
      refine ⟨c, rfl, numeric_of_isDigit ?_⟩
      by_contra hc
      simp [readUnsigned, hc] at h

end Lib
