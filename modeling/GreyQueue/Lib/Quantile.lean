import Mathlib.Algebra.Order.Floor.Ring
import Mathlib.Data.List.GetD
import Mathlib.Data.List.Sort
import Mathlib.Tactic.Linarith
import Mathlib.Tactic.Positivity

/-!
# Quantiles

The quantile of a list of values, interpolated between the two sorted values at the neighbouring
positions.  Interpolation keeps a monotone sequence monotone, so quantiles are ordered like their
fractions, lie between the smallest and the largest value, and split the values as they should.

## Main definitions

* `interpolate` — a sequence at a point between its indices.
* `quantile` — the interpolated quantile of a list.

## Main results

* `quantile_mono`, `quantile_mem_bounds` — quantiles are ordered and bounded.
* `countP_le_quantile`, `countP_quantile_le` — how many values lie on either side.
-/

namespace Lib.Quantile

variable {α : Type} [Field α] [LinearOrder α] [IsStrictOrderedRing α] [FloorRing α]

/-! ## Interpolation -/

/-- The sequence `f` at `x`, on the line between its neighbours. -/
def interpolate (f : ℕ → α) (x : α) : α := f ⌊x⌋₊ + (x - ⌊x⌋₊) * (f ⌈x⌉₊ - f ⌊x⌋₊)

section Interpolate

variable {f : ℕ → α} {x y : α}

omit [IsStrictOrderedRing α] in
/-- The upper neighbour may be the next index. -/
theorem interpolate_eq (f : ℕ → α) (hx : 0 ≤ x) :
    interpolate f x = f ⌊x⌋₊ + (x - ⌊x⌋₊) * (f (⌊x⌋₊ + 1) - f ⌊x⌋₊) := by
  have hle := Nat.floor_le hx
  by_cases hint : (⌊x⌋₊ : α) = x
  · rw [interpolate, hint, sub_self, zero_mul, zero_mul]
  · have hlt : ⌊x⌋₊ < ⌈x⌉₊ := Nat.lt_ceil.mpr (lt_of_le_of_ne hle hint)
    have hceil := Nat.ceil_le_floor_add_one x
    have heq : ⌈x⌉₊ = ⌊x⌋₊ + 1 := by omega
    rw [interpolate, heq]

theorem le_interpolate (hf : Monotone f) (hx : 0 ≤ x) : f ⌊x⌋₊ ≤ interpolate f x := by
  have hfloor := Nat.floor_le hx
  have hstep := hf (Nat.floor_le_ceil x)
  have hprod : 0 ≤ (x - ⌊x⌋₊) * (f ⌈x⌉₊ - f ⌊x⌋₊) :=
    mul_nonneg (sub_nonneg.mpr hfloor) (sub_nonneg.mpr hstep)
  rw [interpolate]
  linarith

theorem interpolate_le (hf : Monotone f) : interpolate f x ≤ f ⌈x⌉₊ := by
  have hfloor := (Nat.lt_floor_add_one x).le
  have hstep := hf (Nat.floor_le_ceil x)
  have hprod : (x - ⌊x⌋₊) * (f ⌈x⌉₊ - f ⌊x⌋₊) ≤ 1 * (f ⌈x⌉₊ - f ⌊x⌋₊) :=
    mul_le_mul_of_nonneg_right (by linarith) (sub_nonneg.mpr hstep)
  rw [interpolate]
  linarith

/-- Interpolation keeps the order. -/
theorem interpolate_mono (hf : Monotone f) (hx : 0 ≤ x) (hxy : x ≤ y) :
    interpolate f x ≤ interpolate f y := by
  have hy := hx.trans hxy
  by_cases hfloor : ⌊x⌋₊ = ⌊y⌋₊
  · -- on one line
    have hstep : f ⌊y⌋₊ ≤ f (⌊y⌋₊ + 1) := hf (Nat.le_succ _)
    have hprod := mul_le_mul_of_nonneg_right (sub_le_sub_right hxy (⌊y⌋₊ : α))
      (sub_nonneg.mpr hstep)
    rw [interpolate_eq f hx, interpolate_eq f hy, hfloor]
    linarith
  · have hlt : ⌊x⌋₊ + 1 ≤ ⌊y⌋₊ := lt_of_le_of_ne (Nat.floor_mono hxy) hfloor
    calc interpolate f x ≤ f ⌈x⌉₊ := interpolate_le hf
      _ ≤ f ⌊y⌋₊ := hf ((Nat.ceil_le_floor_add_one x).trans hlt)
      _ ≤ interpolate f y := le_interpolate hf hy

end Interpolate

/-! ## Quantiles -/

variable {l : List α} {p q : α}

/-- The value at a position of the sorted list; the last one from its end on. -/
def nth (l : List α) (i : ℕ) : α :=
  (l.insertionSort (· ≤ ·)).getD (if i < l.length then i else l.length - 1) 0

/-- The quantile of a fraction. -/
def quantile (q : α) (l : List α) : α := interpolate (nth l) (q * (l.length - 1 : ℕ))

omit [Field α] [IsStrictOrderedRing α] [FloorRing α] in
theorem length_sorted (l : List α) : (l.insertionSort (· ≤ ·)).length = l.length :=
  List.length_insertionSort _ _

omit [IsStrictOrderedRing α] [FloorRing α] in
theorem nth_eq {i : ℕ} (hi : i < (l.insertionSort (· ≤ ·)).length) :
    nth l i = (l.insertionSort (· ≤ ·))[i] := by
  rw [nth, if_pos (length_sorted l ▸ hi), List.getD_eq_getElem _ _ hi]

omit [IsStrictOrderedRing α] [FloorRing α] in
/-- Every value of the sequence is one of the list. -/
theorem nth_eq_getElem (hnil : l ≠ []) (i : ℕ) :
    ∃ (k : ℕ) (hk : k < (l.insertionSort (· ≤ ·)).length),
      k = (if i < l.length then i else l.length - 1) ∧
        nth l i = (l.insertionSort (· ≤ ·))[k] := by
  have hpos := List.length_pos_iff.mpr hnil
  have hlength := length_sorted l
  have hk : (if i < l.length then i else l.length - 1) < (l.insertionSort (· ≤ ·)).length := by
    split <;> omega
  exact ⟨_, hk, rfl, List.getD_eq_getElem _ _ hk⟩

omit [IsStrictOrderedRing α] [FloorRing α] in
theorem nth_mono (l : List α) : Monotone (nth l) := by
  intro i j hij
  by_cases hnil : l = []
  · rw [nth, nth, hnil]
    rfl
  obtain ⟨m, hm, hmi, hmn⟩ := nth_eq_getElem hnil i
  obtain ⟨n, hn, hnj, hnn⟩ := nth_eq_getElem hnil j
  rw [hmn, hnn]
  have hle : m ≤ n := by
    rw [hmi, hnj]
    split <;> split <;> omega
  exact (List.pairwise_insertionSort (· ≤ ·) l).rel_get_of_le (a := ⟨m, hm⟩) (b := ⟨n, hn⟩) hle

omit [FloorRing α] in
/-- The position of a quantile lies in the list. -/
theorem position_le (hq : q ≤ 1) : q * (l.length - 1 : ℕ) ≤ (l.length - 1 : ℕ) := by
  have hpos : (0 : α) ≤ (l.length - 1 : ℕ) := Nat.cast_nonneg _
  calc q * (l.length - 1 : ℕ) ≤ 1 * (l.length - 1 : ℕ) := mul_le_mul_of_nonneg_right hq hpos
    _ = (l.length - 1 : ℕ) := one_mul _

omit [FloorRing α] in
theorem position_nonneg (hq : 0 ≤ q) : 0 ≤ q * (l.length - 1 : ℕ) :=
  mul_nonneg hq (Nat.cast_nonneg _)

/-- Quantiles are ordered like their fractions. -/
theorem quantile_mono (hp : 0 ≤ p) (hpq : p ≤ q) : quantile p l ≤ quantile q l :=
  interpolate_mono (nth_mono l) (position_nonneg hp)
    (mul_le_mul_of_nonneg_right hpq (Nat.cast_nonneg _))

/-- A quantile lies between the bounds of the values. -/
theorem quantile_mem_bounds (hq : 0 ≤ q) (hnil : l ≠ []) {lo hi : α}
    (h : ∀ x ∈ l, lo ≤ x ∧ x ≤ hi) : lo ≤ quantile q l ∧ quantile q l ≤ hi := by
  have hnth : ∀ i, lo ≤ nth l i ∧ nth l i ≤ hi := by
    intro i
    obtain ⟨k, hk, -, hki⟩ := nth_eq_getElem hnil i
    rw [hki]
    exact h _ ((List.mem_insertionSort _).mp (List.getElem_mem hk))
  exact ⟨(hnth _).1.trans (le_interpolate (nth_mono l) (position_nonneg hq)),
    (interpolate_le (nth_mono l)).trans (hnth _).2⟩

/-- The share of the values that is not above the quantile. -/
theorem countP_le_quantile (hq : 0 ≤ q) (hq' : q ≤ 1) (hnil : l ≠ []) :
    ⌊q * (l.length - 1 : ℕ)⌋₊ + 1 ≤ l.countP fun x => decide (x ≤ quantile q l) := by
  have hpos := List.length_pos_iff.mpr hnil
  have hlength := length_sorted l
  have hfloor : ⌊q * (l.length - 1 : ℕ)⌋₊ ≤ l.length - 1 := Nat.floor_le_of_le (position_le hq')
  obtain ⟨k, hk⟩ : ∃ k, k = ⌊q * (l.length - 1 : ℕ)⌋₊ := ⟨_, rfl⟩
  rw [← hk] at hfloor ⊢
  have htake : ∀ x ∈ (l.insertionSort (· ≤ ·)).take (k + 1), x ≤ quantile q l := by
    intro x hx
    obtain ⟨i, hi, rfl⟩ := List.mem_take_iff_getElem.mp hx
    have hil : i < (l.insertionSort (· ≤ ·)).length := by omega
    rw [← nth_eq hil]
    refine (nth_mono l (show i ≤ k by omega)).trans ?_
    rw [hk]
    exact le_interpolate (nth_mono l) (position_nonneg hq)
  calc k + 1 = ((l.insertionSort (· ≤ ·)).take (k + 1)).length := by
        rw [List.length_take]
        omega
    _ = ((l.insertionSort (· ≤ ·)).take (k + 1)).countP fun x => decide (x ≤ quantile q l) :=
        (List.countP_eq_length.mpr fun x hx => decide_eq_true (htake x hx)).symm
    _ ≤ (l.insertionSort (· ≤ ·)).countP fun x => decide (x ≤ quantile q l) :=
        (List.take_sublist _ _).countP_le
    _ = l.countP fun x => decide (x ≤ quantile q l) :=
        (List.perm_insertionSort (· ≤ ·) l).countP_eq _

/-- The share of the values that is not below the quantile. -/
theorem countP_quantile_le (q : α) (l : List α) :
    l.length - ⌈q * (l.length - 1 : ℕ)⌉₊ ≤ l.countP fun x => decide (quantile q l ≤ x) := by
  have hlength := length_sorted l
  obtain ⟨k, hk⟩ : ∃ k, k = ⌈q * (l.length - 1 : ℕ)⌉₊ := ⟨_, rfl⟩
  rw [← hk]
  have hdrop : ∀ x ∈ (l.insertionSort (· ≤ ·)).drop k, quantile q l ≤ x := by
    intro x hx
    obtain ⟨i, hi, rfl⟩ := List.mem_drop_iff_getElem.mp hx
    have hil : k + i < (l.insertionSort (· ≤ ·)).length := by omega
    rw [← nth_eq hil]
    refine le_trans ?_ (nth_mono l (show k ≤ k + i by omega))
    rw [hk]
    exact interpolate_le (nth_mono l)
  calc l.length - k = ((l.insertionSort (· ≤ ·)).drop k).length := by rw [List.length_drop, hlength]
    _ = ((l.insertionSort (· ≤ ·)).drop k).countP fun x => decide (quantile q l ≤ x) :=
        (List.countP_eq_length.mpr fun x hx => decide_eq_true (hdrop x hx)).symm
    _ ≤ (l.insertionSort (· ≤ ·)).countP fun x => decide (quantile q l ≤ x) :=
        (List.drop_sublist _ _).countP_le
    _ = l.countP fun x => decide (quantile q l ≤ x) :=
        (List.perm_insertionSort (· ≤ ·) l).countP_eq _

end Lib.Quantile
