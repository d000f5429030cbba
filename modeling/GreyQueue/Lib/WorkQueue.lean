import Mathlib.Algebra.BigOperators.Group.Finset.Basic
import Mathlib.Algebra.GroupWithZero.Nat
import Mathlib.Algebra.Order.BigOperators.Group.Finset
import Mathlib.Logic.Function.Basic
import GreyQueue.Lib.Machine

/-!
# Queues of retried work

What a queue of retried work is for, without clocks, rows and workers: a piece of work
waits with some attempts left, is taken, begun, and then ends or waits again with one
attempt less.  The queue is a machine whose steps add work or do something to one piece.

## Main definitions

* `Work`, `Deed` — the phases of a piece of work, and what is done to it.
* `workQueue` — the machine.
* `Work.weight` — a measure that every deed lowers.

## Main results

* `workQueue_deeds_le` — the deeds to one piece of work are bounded by its weight.
* `workQueue_total_le` — so are all deeds by the total weight.
-/

namespace Lib

/-- What is done to a piece of work. -/
inductive Deed
  | take | start | giveBack | exhaust | abort | complete | drop
  deriving DecidableEq, Repr

/-- The phase of a piece of work.  Waiting work counts the attempts that are left, work that
is held those left after the present one. -/
inductive Work
  | waiting (left : ℕ)
  | taken (left : ℕ)
  | begun (left : ℕ)
  | done (deed : Deed)
  deriving DecidableEq, Repr

/-- What a deed makes of a piece of work; `none` when it is not possible. -/
def Deed.next : Deed → Work → Option Work
  | .take, .waiting (left + 1) => some (.taken left)
  | .start, .taken left => some (.begun left)
  | .giveBack, .taken (left + 1) => some (.waiting (left + 1))
  | .giveBack, .begun (left + 1) => some (.waiting (left + 1))
  | .exhaust, .taken 0 => some (.done .exhaust)
  | .exhaust, .begun 0 => some (.done .exhaust)
  | .abort, .begun _ => some (.done .abort)
  | .complete, .begun _ => some (.done .complete)
  | .drop, .waiting (_ + 1) => some (.done .drop)
  | _, _ => none

/-- An upper bound on the deeds that are still possible. -/
def Work.weight : Work → ℕ
  | .waiting left => 3 * left
  | .taken left => 3 * left + 2
  | .begun left => 3 * left + 1
  | .done _ => 0

/-- Every deed lowers the weight. -/
theorem Deed.weight_next {d : Deed} {w w' : Work} (h : d.next w = some w') :
    w'.weight < w.weight := by
  unfold Deed.next at h
  split at h <;> simp only [Option.some.injEq, reduceCtorEq] at h <;> subst h <;>
    simp only [Work.weight] <;> omega

/-- The steps of a queue. -/
inductive Move (κ : Type)
  | add (key : κ) (left : ℕ)
  | deed (key : κ) (d : Deed)
  deriving DecidableEq

namespace Move

variable {κ : Type}

/-- The piece of work that a step is about. -/
def key : Move κ → κ
  | add k _ => k
  | deed k _ => k

/-- Whether a step does something to work that is there. -/
def isDeed : Move κ → Bool
  | add _ _ => false
  | deed _ _ => true

/-- The attempts that a step adds to the queue. -/
def added : Move κ → ℕ
  | add _ left => left
  | deed _ _ => 0

end Move

variable {κ : Type} [DecidableEq κ]

/-- The queue: work is added under a fresh key, and a deed changes one piece. -/
def workQueue (κ : Type) [DecidableEq κ] : Machine (κ → Option Work) (Move κ) where
  guard
    | .add k left, q => q k = none ∧ 0 < left
    | .deed k d, q => ∃ w w', q k = some w ∧ d.next w = some w'
  effect
    | .add k left, q => Function.update q k (some (.waiting left))
    | .deed k d, q => Function.update q k ((q k).bind d.next)

/-- The weight under a key. -/
def weightAt (q : κ → Option Work) (k : κ) : ℕ := ((q k).map Work.weight).getD 0

theorem effect_ne {m : Move κ} {q : κ → Option Work} {k : κ} (h : k ≠ m.key) :
    (workQueue κ).effect m q k = q k := by
  cases m with
  | add => exact Function.update_of_ne h _ _
  | deed => exact Function.update_of_ne h _ _

/-- What a step does under its own key. -/
theorem effect_key {m : Move κ} {q : κ → Option Work} (hg : (workQueue κ).guard m q) :
    (∃ left, m = .add m.key left ∧ 0 < left ∧ q m.key = none ∧
        (workQueue κ).effect m q m.key = some (.waiting left)) ∨
      ∃ d w w', m = .deed m.key d ∧ q m.key = some w ∧ d.next w = some w' ∧
        (workQueue κ).effect m q m.key = some w' := by
  cases m with
  | add k left => exact Or.inl ⟨left, rfl, hg.2, hg.1, Function.update_self ..⟩
  | deed k d =>
      obtain ⟨w, w', hw, hnext⟩ := hg
      refine Or.inr ⟨d, w, w', rfl, hw, hnext, ?_⟩
      have hbind : (q k).bind d.next = some w' := by rw [hw]; exact hnext
      exact (Function.update_self ..).trans hbind

/-- A step lowers the weight under its key, or adds three units for each attempt. -/
theorem weightAt_effect {m : Move κ} {q : κ → Option Work} (hg : (workQueue κ).guard m q) :
    weightAt ((workQueue κ).effect m q) m.key + (if m.isDeed then 1 else 0) ≤
      weightAt q m.key + 3 * m.added := by
  rcases effect_key hg with ⟨left, hm, -, hq, he⟩ | ⟨d, w, w', hm, hq, hnext, he⟩
  · have hadd : m.added = left := by rw [hm]; rfl
    have hdeed : m.isDeed = false := by rw [hm]; rfl
    simp [weightAt, he, hadd, hdeed, Work.weight]
  · have hadd : m.added = 0 := by rw [hm]; rfl
    have hdeed : m.isDeed = true := by rw [hm]; rfl
    have hlt := Deed.weight_next hnext
    simp only [weightAt, he, hq, Option.map_some, Option.getD_some, hadd, hdeed, if_true]
    omega

variable {steps : List (Move κ)} {q : κ → Option Work}

/-- The deeds to the work under some keys are bounded by its weight. -/
theorem workQueue_deeds_le (hp : (workQueue κ).Path steps q) (s : Finset κ) :
    (∑ k ∈ s, weightAt ((workQueue κ).after steps q) k) +
        steps.countP (fun m => m.isDeed && decide (m.key ∈ s)) ≤
      (∑ k ∈ s, weightAt q k) +
        3 * ((steps.filter fun m => decide (m.key ∈ s)).map Move.added).sum := by
  have hne : ∀ q m k, k ≠ m.key → weightAt ((workQueue κ).effect m q) k = weightAt q k :=
    fun q m k h => by rw [weightAt, effect_ne h, weightAt]
  induction steps generalizing q with
  | nil => simp
  | cons m steps ih =>
      obtain ⟨hg, hp⟩ := hp
      have hrest := ih hp
      rw [Machine.after_cons, List.countP_cons, List.filter_cons]
      by_cases hm : m.key ∈ s
      · have hself := weightAt_effect hg
        have hothers : ∑ k ∈ s.erase m.key, weightAt ((workQueue κ).effect m q) k =
            ∑ k ∈ s.erase m.key, weightAt q k :=
          Finset.sum_congr rfl fun k hk => hne q m k (Finset.ne_of_mem_erase hk)
        rw [← Finset.add_sum_erase s (weightAt ((workQueue κ).effect m q)) hm, hothers] at hrest
        rw [← Finset.add_sum_erase s (weightAt q) hm]
        simp only [hm, decide_true, Bool.and_true, if_true, List.map_cons, List.sum_cons,
          Nat.mul_add]
        omega
      · have hothers : ∑ k ∈ s, weightAt ((workQueue κ).effect m q) k = ∑ k ∈ s, weightAt q k :=
          Finset.sum_congr rfl fun k hk => hne q m k fun h => hm (h ▸ hk)
        rw [hothers] at hrest
        simpa [hm] using hrest

/-- Work stays in the queue. -/
theorem workQueue_keeps (hp : (workQueue κ).Path steps q) {k : κ} (hk : (q k).isSome = true) :
    ((workQueue κ).after steps q k).isSome = true := by
  refine hp.invariant (I := fun q => (q k).isSome = true) (fun m _ q hg hq => ?_) hk
  by_cases hm : k = m.key
  · subst hm
    rcases effect_key hg with ⟨left, -, -, -, he⟩ | ⟨d, w, w', -, -, -, he⟩ <;> rw [he] <;> rfl
  · rw [effect_ne hm]
    exact hq

/-- The key of every step is in the queue at the end. -/
theorem workQueue_key (hp : (workQueue κ).Path steps q) {m : Move κ} (hm : m ∈ steps) :
    ((workQueue κ).after steps q m.key).isSome = true := by
  obtain ⟨before, later, rfl⟩ := List.append_of_mem hm
  rw [Machine.path_append] at hp
  rw [Machine.after_append]
  obtain ⟨-, hg, hp⟩ := hp
  refine workQueue_keeps hp ?_
  rcases effect_key hg with ⟨left, -, -, -, he⟩ | ⟨d, w, w', -, -, -, he⟩ <;> rw [he] <;> rfl

/-- All deeds are bounded by the weight of the queue and of what is added to it. -/
theorem workQueue_total_le (hp : (workQueue κ).Path steps q) {s : Finset κ}
    (hs : ∀ k, ((workQueue κ).after steps q k).isSome = true → k ∈ s) :
    (∑ k ∈ s, weightAt ((workQueue κ).after steps q) k) + steps.countP Move.isDeed ≤
      (∑ k ∈ s, weightAt q k) + 3 * (steps.map Move.added).sum := by
  have hkeys : ∀ m ∈ steps, m.key ∈ s := fun m hm => hs _ (workQueue_key hp hm)
  have hfilter : (steps.filter fun m => decide (m.key ∈ s)) = steps :=
    List.filter_eq_self.mpr fun m hm => decide_eq_true (hkeys m hm)
  have hcount : steps.countP (fun m => m.isDeed && decide (m.key ∈ s)) =
      steps.countP Move.isDeed :=
    List.countP_congr fun m hm => by simp [hkeys m hm]
  have hle := workQueue_deeds_le hp s
  rwa [hfilter, hcount] at hle

end Lib
