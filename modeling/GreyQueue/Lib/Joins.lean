import Mathlib.Order.Lattice

/-!
# Steps that join

A family of steps on a state, one for each time, in which a step after another has the
effect of one step at the later of the two times.  Such steps may come in any order and any
number: the state that they leave is the one that the latest of them leaves alone.

## Main definitions

* `Joins f` — a step after another is one step at the later time.

## Main results

* `Joins.foldl_eq` — any sequence of steps is its latest step.
-/

namespace Lib

variable {T S : Type} [LinearOrder T] {f : T → S → S}

/-- A step after another is one step at the later of both times. -/
def Joins (f : T → S → S) : Prop := ∀ t u s, f t (f u s) = f (max t u) s

/-- A step forgets the ones before it that are not later. -/
theorem Joins.step_foldl (h : Joins f) {t : T} {us : List T} (hus : ∀ u ∈ us, u ≤ t) (s : S) :
    f t (us.foldl (fun s u => f u s) s) = f t s := by
  induction us generalizing s with
  | nil => rfl
  | cons u us ih =>
      rw [List.forall_mem_cons] at hus
      rw [List.foldl_cons, ih hus.2, h, max_eq_left hus.1]

/-- Steps that are not later than one before them do nothing. -/
theorem Joins.foldl_step (h : Joins f) {t : T} {us : List T} (hus : ∀ u ∈ us, u ≤ t) (s : S) :
    us.foldl (fun s u => f u s) (f t s) = f t s := by
  induction us with
  | nil => rfl
  | cons u us ih =>
      rw [List.forall_mem_cons] at hus
      rw [List.foldl_cons, h, max_eq_right hus.1, ih hus.2]

/-- Any sequence of steps is its latest step. -/
theorem Joins.foldl_eq (h : Joins f) {t : T} {us : List T} (ht : t ∈ us) (hus : ∀ u ∈ us, u ≤ t)
    (s : S) : us.foldl (fun s u => f u s) s = f t s := by
  obtain ⟨pre, post, rfl⟩ := List.append_of_mem ht
  have hpre : ∀ u ∈ pre, u ≤ t := fun u hu => hus u (by simp [hu])
  have hpost : ∀ u ∈ post, u ≤ t := fun u hu => hus u (by simp [hu])
  rw [List.foldl_append, List.foldl_cons, h.foldl_step hpost, h.step_foldl hpre]

end Lib
