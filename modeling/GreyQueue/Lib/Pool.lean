import Mathlib.Data.List.Sort
import GreyQueue.Lib.Table

/-!
# Pools

A pool of rows with distinct keys, from which one row is drawn at a time: the first one in
an order that may be another one for each draw.  Whatever the orders are, the draws empty the
pool, each row once; where they agree on an order, the rows come in this order.

## Main definitions

* `Pool.without l x` — the pool without a row.
* `Pool.first before i l` — the first row in an order.
* `Pool.draw before is l` — one draw for each order of a list.

## Main results

* `Pool.draw_spec` — what the draws return, and in which order.
* `Pool.draw_sorted` — draws in one order return the sorted pool.
-/

namespace Lib.Pool

open Keyed

variable {ρ κ ι : Type} [Keyed ρ κ] [DecidableEq κ]

/-- The pool without a row. -/
def without (l : List ρ) (x : ρ) : List ρ := l.filter fun y => decide (key y ≠ key x)

theorem map_without_nodup {l : List ρ} (h : (l.map key).Nodup) (x : ρ) :
    ((without l x).map key).Nodup :=
  (List.filter_sublist.map key).nodup h

/-- A pool is a row of it and the others. -/
theorem perm_without {l : List ρ} (h : (l.map key).Nodup) {x : ρ} (hx : x ∈ l) :
    l.Perm (x :: without l x) := by
  obtain ⟨pre, post, rfl⟩ := List.append_of_mem hx
  rw [List.map_append, List.map_cons, List.nodup_append, List.nodup_cons] at h
  -- the rows on both sides have other keys
  have hpre : without pre x = pre := List.filter_eq_self.mpr fun y hy => by
    simpa using h.2.2 _ (List.mem_map_of_mem hy) _ List.mem_cons_self
  have hpost : without post x = post := List.filter_eq_self.mpr fun y hy => by
    simpa using fun hk : key y = key x => h.2.1.1 (hk ▸ List.mem_map_of_mem hy)
  have hself : without (x :: post) x = without post x := by simp [without]
  rw [without, List.filter_append, ← without, ← without, hpre, hself, hpost]
  exact List.perm_middle

variable (before : ι → ρ → ρ → Prop) [∀ i, DecidableRel (before i)]

/-- The first row of the pool in an order. -/
def first (i : ι) (l : List ρ) : Option ρ := (l.insertionSort (before i)).head?

/-- One draw for each order of a list. -/
def draw : List ι → List ρ → List (Option ρ)
  | [], _ => []
  | i :: is, l =>
      match first before i l with
      | none => none :: draw is l
      | some x => some x :: draw is (without l x)

variable {before}

omit [Keyed ρ κ] [DecidableEq κ] in
theorem first_eq_none {i : ι} {l : List ρ} : first before i l = none ↔ l = [] := by
  rw [first, List.head?_eq_none_iff, ← List.length_eq_zero_iff, List.length_insertionSort,
    List.length_eq_zero_iff]

variable [∀ i, Std.Total (before i)] [∀ i, IsTrans ρ (before i)]

omit [Keyed ρ κ] [DecidableEq κ] in
/-- The first row of a pool is a row of it, before all others. -/
theorem first_eq_some {i : ι} {l : List ρ} {x : ρ} (h : first before i l = some x) :
    x ∈ l ∧ ∀ y ∈ l, before i x y := by
  obtain ⟨rest, hsort⟩ : ∃ rest, l.insertionSort (before i) = x :: rest := by
    rw [first] at h
    exact ⟨_, List.eq_cons_of_mem_head? h⟩
  have hsorted := List.pairwise_insertionSort (before i) l
  rw [hsort, List.pairwise_cons] at hsorted
  have hmem : ∀ y, y ∈ x :: rest ↔ y ∈ l := fun y => hsort ▸ List.mem_insertionSort _
  refine ⟨(hmem x).mp List.mem_cons_self, fun y hy => ?_⟩
  rcases List.mem_cons.mp ((hmem y).mpr hy) with rfl | hy
  · exact (Std.Total.total y y).elim id id
  · exact hsorted.1 y hy

variable (before)

/-- The draws return distinct rows of the pool until it is empty, and nothing afterwards;
what they agree on is the order of the rows. -/
theorem draw_spec (is : List ι) {l : List ρ} (h : (l.map key).Nodup) : ∃ taken rest,
    draw before is l = taken.map some ++ List.replicate (is.length - l.length) none ∧
    l.Perm (taken ++ rest) ∧ taken.length = min is.length l.length ∧
    ∀ r : ρ → ρ → Prop, (∀ i ∈ is, ∀ a b, before i a b → r a b) →
      taken.Pairwise r ∧ ∀ x ∈ taken, ∀ y ∈ rest, r x y := by
  induction is generalizing l with
  | nil => exact ⟨[], l, by simp [draw], .refl l, by simp, fun _ _ => by simp⟩
  | cons i is ih =>
      cases hfirst : first before i l with
      | none =>
          obtain rfl := first_eq_none.mp hfirst
          obtain ⟨taken, rest, hdraw, hperm, -, -⟩ := ih h
          obtain ⟨rfl, rfl⟩ : taken = [] ∧ rest = [] := by simpa using hperm.nil_eq
          refine ⟨[], [], ?_, .refl _, by simp, fun _ _ => by simp⟩
          rw [draw, hfirst]
          simp [hdraw, List.replicate_succ]
      | some x =>
          obtain ⟨hx, hbefore⟩ := first_eq_some hfirst
          have hwithout := perm_without h hx
          have hlength : l.length = (without l x).length + 1 := by simpa using hwithout.length_eq
          obtain ⟨taken, rest, hdraw, hperm, hlen, horder⟩ := ih (map_without_nodup h x)
          refine ⟨x :: taken, rest, ?_, hwithout.trans (hperm.cons x), ?_, fun r hr => ?_⟩
          · rw [draw, hfirst]
            simp [hdraw, hlength]
          · simp only [List.length_cons, hlen, hlength]
            omega
          · obtain ⟨htaken, hrest⟩ := horder r fun j hj => hr j (List.mem_cons_of_mem _ hj)
            -- the first row comes before all that stay
            have hfront : ∀ y ∈ taken ++ rest, r x y := fun y hy =>
              hr i List.mem_cons_self x y
                (hbefore y (hwithout.mem_iff.mpr (List.mem_cons_of_mem _ (hperm.mem_iff.mpr hy))))
            refine ⟨List.pairwise_cons.mpr ⟨fun y hy => hfront y (by simp [hy]), htaken⟩, ?_⟩
            intro z hz y hy
            rcases List.mem_cons.mp hz with rfl | hz
            · exact hfront y (by simp [hy])
            · exact hrest z hz y hy

/-- Draws in one order return the sorted pool. -/
theorem draw_sorted {is : List ι} {l : List ρ} (h : (l.map key).Nodup) {i : ι}
    (hi : ∀ j ∈ is, ∀ a b, before j a b → before i a b)
    (hanti : ∀ a ∈ l, ∀ b ∈ l, before i a b → before i b a → a = b) :
    draw before is l = ((l.insertionSort (before i)).take is.length).map some ++
      List.replicate (is.length - l.length) none := by
  obtain ⟨taken, rest, hdraw, hperm, hlen, horder⟩ := draw_spec before is h
  obtain ⟨htaken, hrest⟩ := horder (before i) hi
  have hsplit : l.insertionSort (before i) = taken ++ rest.insertionSort (before i) := by
    have hsorted : (taken ++ rest.insertionSort (before i)).Pairwise (before i) := by
      refine List.pairwise_append.mpr ⟨htaken, List.pairwise_insertionSort _ _, ?_⟩
      exact fun a ha b hb => hrest a ha b ((List.mem_insertionSort _).mp hb)
    refine List.Perm.eq_of_pairwise ?_ (List.pairwise_insertionSort _ _) hsorted ?_
    · intro a b ha hb
      refine hanti a ((List.mem_insertionSort _).mp ha) b (hperm.mem_iff.mpr ?_)
      simpa using hb
    · exact (List.perm_insertionSort _ l).trans
        (hperm.trans ((List.perm_insertionSort _ rest).symm.append_left taken))
  -- where the list of orders is the longer one, no row is left
  have htake : (taken ++ rest.insertionSort (before i)).take is.length = taken := by
    rcases Nat.le_total is.length l.length with hle | hle
    · rw [← Nat.min_eq_left hle, ← hlen, List.take_left]
    · have hnil : rest = [] := by
        have hlength := hperm.length_eq
        rw [List.length_append, hlen, Nat.min_eq_right hle] at hlength
        exact List.length_eq_zero_iff.mp (by omega)
      rw [hnil, List.insertionSort_nil, List.append_nil, List.take_of_length_le]
      exact hlen.trans_le (Nat.min_le_left _ _)
  rw [hdraw, hsplit, htake]

end Lib.Pool
