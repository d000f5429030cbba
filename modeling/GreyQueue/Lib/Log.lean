import Mathlib.Data.List.Nodup
import Mathlib.Data.Nat.Notation
import Mathlib.Order.WellFounded

/-!
# Append-only logs

Facts about lists that only grow at the end.  `Precedes P Q` says that every entry in
`Q` comes after an entry in `P`; it is checked when an entry is appended and composes.
`Grounded` says that every record refers only to records before it, so the references
form a well-founded relation.

## Main definitions

* `Precedes P Q l` — every entry in `Q` has an earlier entry in `P`.
* `Once Q l` — at most one entry is in `Q`.
* `Grounded l` — every reference is the key of an earlier record.

## Main results

* `Precedes.trans` — precedence composes.
* `Grounded.wellFounded` — there is no cycle and no infinite chain of references.
-/

namespace Lib

variable {α κ : Type}

/-- An entry of a list with one more entry is the new one, or an entry of the list. -/
theorem split_concat {l pre post : List α} {x e : α} (h : l ++ [x] = pre ++ e :: post) :
    (pre = l ∧ e = x) ∨ ∃ post', l = pre ++ e :: post' := by
  rcases List.eq_nil_or_concat post with rfl | ⟨post, y, rfl⟩
  · obtain ⟨rfl, hxe⟩ := List.append_inj' h rfl
    cases hxe
    exact Or.inl ⟨rfl, rfl⟩
  · have h : l ++ [x] = (pre ++ e :: post) ++ [y] := by simpa using h
    exact Or.inr ⟨post, (List.append_inj' h rfl).1⟩

/-- Every entry in `Q` has an earlier entry in `P`. -/
def Precedes (P Q : α → Prop) (l : List α) : Prop :=
  ∀ pre e post, l = pre ++ e :: post → Q e → ∃ e' ∈ pre, P e'

theorem precedes_nil (P Q : α → Prop) : Precedes P Q [] := by
  intro pre e post h
  simp at h

/-- Precedence is checked when an entry is appended. -/
theorem Precedes.concat {P Q : α → Prop} {l : List α} (h : Precedes P Q l) {x : α}
    (hx : Q x → ∃ e ∈ l, P e) : Precedes P Q (l ++ [x]) := by
  intro pre e post heq hq
  rcases split_concat heq with ⟨rfl, rfl⟩ | ⟨post', hl⟩
  · exact hx hq
  · exact h pre e post' hl hq

/-- Precedence composes. -/
theorem Precedes.trans {P Q R : α → Prop} {l : List α} (h : Precedes P Q l)
    (h' : Precedes Q R l) : Precedes P R l := by
  intro pre e post heq hr
  obtain ⟨e', he', hq⟩ := h' pre e post heq hr
  obtain ⟨pre', mid, rfl⟩ := List.append_of_mem he'
  obtain ⟨e'', he'', hp⟩ := h pre' e' (mid ++ e :: post) (by simpa using heq) hq
  exact ⟨e'', List.mem_append_left _ he'', hp⟩

/-- Without entries in `Q` there is nothing to precede. -/
theorem Precedes.of_forall_not {P Q : α → Prop} {l : List α} (h : ∀ e ∈ l, ¬ Q e) :
    Precedes P Q l := by
  rintro pre e post rfl hq
  exact absurd hq (h e (by simp))

/-- At most one entry is in `Q`. -/
def Once (Q : α → Prop) (l : List α) : Prop :=
  ∀ pre e post, l = pre ++ e :: post → Q e → ∀ e' ∈ pre, ¬ Q e'

theorem once_nil (Q : α → Prop) : Once Q [] := by
  intro pre e post h
  simp at h

theorem Once.concat {Q : α → Prop} {l : List α} (h : Once Q l) {x : α}
    (hx : Q x → ∀ e ∈ l, ¬ Q e) : Once Q (l ++ [x]) := by
  intro pre e post heq hq
  rcases split_concat heq with ⟨rfl, rfl⟩ | ⟨post', hl⟩
  · exact hx hq
  · exact h pre e post' hl hq

/-- Records are a key and an optional reference: every reference is the key of an earlier
record. -/
def Grounded (l : List (κ × Option κ)) : Prop :=
  ∀ pre r post, l = pre ++ r :: post → ∀ p, r.2 = some p → p ∈ pre.map Prod.fst

theorem grounded_nil : Grounded ([] : List (κ × Option κ)) := by
  intro pre r post h
  simp at h

theorem Grounded.concat {l : List (κ × Option κ)} (h : Grounded l) {r : κ × Option κ}
    (hr : ∀ p, r.2 = some p → p ∈ l.map Prod.fst) : Grounded (l ++ [r]) := by
  intro pre e post heq p hp
  rcases split_concat heq with ⟨rfl, rfl⟩ | ⟨post', hl⟩
  · exact hr p hp
  · exact h pre e post' hl p hp

/-- References to earlier records of a list with distinct keys are well-founded. -/
theorem Grounded.wellFounded [DecidableEq κ] {l : List (κ × Option κ)} (h : Grounded l)
    (hk : (l.map Prod.fst).Nodup) : WellFounded fun p c => (c, some p) ∈ l := by
  refine Subrelation.wf (r := InvImage (· < ·) fun k => (l.map Prod.fst).idxOf k) ?_
    (InvImage.wf _ Nat.lt_wfRel.wf)
  intro p c hpc
  obtain ⟨pre, post, rfl⟩ := List.append_of_mem hpc
  have hp : p ∈ pre.map Prod.fst := h pre (c, some p) post rfl p rfl
  have hc : c ∉ pre.map Prod.fst := by
    rw [List.map_append, List.map_cons, List.nodup_append] at hk
    intro hmem
    exact hk.2.2 c hmem c List.mem_cons_self rfl
  change List.idxOf p _ < List.idxOf c _
  rw [List.map_append, List.map_cons, List.idxOf_append_of_mem hp, List.idxOf_append_of_notMem hc,
    List.idxOf_cons_self]
  have := List.idxOf_lt_length_of_mem hp
  omega

end Lib
