import Mathlib.Data.Nat.Notation
import Mathlib.Data.List.Basic

/-!
# Machines with guarded steps

A machine has steps that are data: each step has a guard, which says in which states
it may be taken, and an effect, which is a function of the state.  A path is a list
of steps, each enabled where it is taken.

## Main definitions

* `Machine σ ι` — guards and effects of the steps `ι` on the states `σ`.
* `Machine.Path` — a list of steps is enabled, one after the other.
* `Machine.after` — the state at the end of a list of steps.

## Main results

* `Machine.Path.invariant` — what every enabled step preserves, a path preserves.
* `Machine.Path.measure` — a path lowers a measure by the number of steps that do.
* `settles` — a sequence with a measure stops changing.
-/

namespace Lib

/-- Steps with guards. -/
structure Machine (σ ι : Type) where
  /-- When a step may be taken. -/
  guard : ι → σ → Prop
  /-- What a step does. -/
  effect : ι → σ → σ

namespace Machine

variable {σ ι : Type} (M : Machine σ ι)

/-- The state after a list of steps. -/
def after (steps : List ι) (s : σ) : σ := steps.foldl (fun s i => M.effect i s) s

/-- Every step of the list is enabled in the state that the earlier ones lead to. -/
def Path : List ι → σ → Prop
  | [], _ => True
  | i :: steps, s => M.guard i s ∧ Path steps (M.effect i s)

@[simp] theorem after_nil (s : σ) : M.after [] s = s := rfl
@[simp] theorem after_cons (i : ι) (steps : List ι) (s : σ) :
    M.after (i :: steps) s = M.after steps (M.effect i s) := rfl
@[simp] theorem after_append (steps steps' : List ι) (s : σ) :
    M.after (steps ++ steps') s = M.after steps' (M.after steps s) :=
  List.foldl_append

@[simp] theorem path_nil (s : σ) : M.Path [] s := trivial
@[simp] theorem path_cons (i : ι) (steps : List ι) (s : σ) :
    M.Path (i :: steps) s ↔ M.guard i s ∧ M.Path steps (M.effect i s) := Iff.rfl

theorem path_append (steps steps' : List ι) (s : σ) :
    M.Path (steps ++ steps') s ↔ M.Path steps s ∧ M.Path steps' (M.after steps s) := by
  induction steps generalizing s with
  | nil => simp
  | cons i steps ih => simp [ih, and_assoc]

variable {M}

/-- What every enabled step preserves, a path preserves. -/
theorem Path.invariant {steps : List ι} {s : σ} (hp : M.Path steps s) {I : σ → Prop}
    (hstep : ∀ i ∈ steps, ∀ s, M.guard i s → I s → I (M.effect i s)) (hs : I s) :
    I (M.after steps s) := by
  induction steps generalizing s with
  | nil => exact hs
  | cons i steps ih =>
      obtain ⟨hg, hp⟩ := hp
      exact ih hp (fun j hj => hstep j (List.mem_cons_of_mem i hj))
        (hstep i List.mem_cons_self s hg hs)

/-- If each step in `p` lowers a measure by one and the others leave it, a path lowers it by
the number of its steps in `p`. -/
theorem Path.measure {steps : List ι} {s : σ} (hp : M.Path steps s) {I : σ → Prop} {μ : σ → ℕ}
    {p : ι → Bool} (hinv : ∀ i s, M.guard i s → I s → I (M.effect i s))
    (hstep : ∀ i s, M.guard i s → I s → μ (M.effect i s) + (if p i then 1 else 0) = μ s)
    (hs : I s) : μ (M.after steps s) + steps.countP p = μ s := by
  induction steps generalizing s with
  | nil => rfl
  | cons i steps ih =>
      obtain ⟨hg, hp⟩ := hp
      have hrest := ih hp (hinv i s hg hs)
      have hone := hstep i s hg hs
      rw [after_cons, List.countP_cons]
      omega

end Machine

/-- A sequence that stops where it does not lower its measure makes no more changes than its
measure counts. -/
theorem settles {σ : Type} {x : ℕ → σ} {μ : σ → ℕ}
    (hstep : ∀ n, x (n + 1) = x n ∨ μ (x (n + 1)) < μ (x n))
    (hstop : ∀ n, x (n + 1) = x n → x (n + 2) = x (n + 1)) {n : ℕ} (h : x (n + 1) ≠ x n) :
    n < μ (x 0) := by
  suffices hle : ∀ n, x (n + 1) ≠ x n → μ (x n) + n ≤ μ (x 0) by
    have hlt := (hstep n).resolve_left h
    have := hle n h
    omega
  intro n
  induction n with
  | zero => exact fun _ => Nat.le_refl _
  | succ n ih =>
      intro hn
      have hbefore : x (n + 1) ≠ x n := fun heq => hn (hstop n heq)
      have hlt := (hstep n).resolve_left hbefore
      have := ih hbefore
      omega

end Lib
