import Mathlib.Data.Seq.Basic

/-!
# Prefixes of sequences

A sequence may be finite or infinite.  What has been read of it is its prefix of some length.

## Main results

* `take_succ` — a prefix grows by the next element.
* `take_of_end` — a prefix does not grow past the end.
* `eq_take_of_append` — the first part of a prefix is a prefix.
-/

namespace Lib

variable {α : Type} {s : Stream'.Seq α} {n : ℕ}

/-- A sequence that has an element at a position has the ones before it. -/
theorem length_take {a : α} (h : s.get? n = some a) : (s.take n).length = n := by
  refine Stream'.Seq.length_take_of_le_length fun hterm => ?_
  by_contra hlt
  have hend := Stream'.Seq.le_stable s (Nat.le_of_lt (not_le.mp hlt))
    (Stream'.Seq.length_le_iff.mp le_rfl)
  simp [h] at hend

/-- A prefix grows by the next element. -/
theorem take_succ {a : α} (h : s.get? n = some a) : s.take (n + 1) = s.take n ++ [a] := by
  refine List.ext_getElem? fun i => ?_
  rw [Stream'.Seq.getElem?_take, List.getElem?_append, length_take h, Stream'.Seq.getElem?_take]
  rcases Nat.lt_trichotomy i n with hlt | rfl | hlt
  · simp [hlt, Nat.lt_succ_of_lt hlt]
  · simp [h]
  · have hge : ¬ i < n + 1 := by omega
    have hpos : i - n ≠ 0 := by omega
    simp [hge, hlt.not_gt, hpos]

/-- A prefix does not grow past the end. -/
theorem take_of_end {m : ℕ} (h : s.get? n = none) (hm : n ≤ m) : s.take m = s.take n := by
  refine List.ext_getElem? fun i => ?_
  rw [Stream'.Seq.getElem?_take, Stream'.Seq.getElem?_take]
  by_cases hi : i < n
  · rw [if_pos hi, if_pos (Nat.lt_of_lt_of_le hi hm)]
  · rw [if_neg hi, Stream'.Seq.le_stable s (not_lt.mp hi) h, ite_self]

/-- The first part of a prefix is a prefix. -/
theorem eq_take_of_append {l l' : List α} (h : l ++ l' = s.take n) : l = s.take l.length := by
  have hle : l.length ≤ n := by
    have := Stream'.Seq.length_take_le (s := s) (n := n)
    rw [← h, List.length_append] at this
    omega
  refine List.ext_getElem? fun i => ?_
  rw [Stream'.Seq.getElem?_take]
  by_cases hi : i < l.length
  · have happend : (l ++ l')[i]? = l[i]? := List.getElem?_append_left hi
    rw [if_pos hi, ← happend, h, Stream'.Seq.getElem?_take, if_pos (by omega)]
  · rw [if_neg hi, List.getElem?_eq_none (by omega)]

end Lib
