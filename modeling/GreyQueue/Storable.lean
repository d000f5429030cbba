import GreyQueue.Lib.Escapes
import GreyQueue.Lib.Reader
import GreyQueue.Executors

/-!
# Which values are rejected for a NUL character

`storable` and `bounded` look for the escape `\u0000` in the JSON text of a value.  Every value
with a NUL character is found that way, but so is one with a backslash in front of `u0000`, which
has none.  All other values that fit are returned, and their text decodes to them.

## Main definitions

* `StorableExact`, `BoundedExact` — a value is rejected if and only if it has a NUL character.

## Main results

* `nul_rejection_exact` — the values for which the rejection is exact.
-/

namespace GreyQueue

open Lib

/-- `storable` rejects the value for a NUL character if and only if it has one, and else returns
a text that decodes to the value. -/
def StorableExact (v : Json) (limit : ℕ) (label : String) : Prop :=
  (storable v limit label = .error (label ++ " must not contain NUL characters") ↔ v.HasNul) ∧
    (¬ v.HasNul → ∃ encoded, storable v limit label = .ok encoded ∧ Json.decode encoded = some v)

/-- The result that `bounded` returns for an output with a NUL character. -/
def nulFailure : Dict := .failure (.ofString "Task output contains NUL characters") false

/-- `bounded` rejects the output for a NUL character if and only if it has one, and else returns
the result as it is. -/
def BoundedExact (result : Dict) (output : Json) : Prop :=
  (bounded result = .ok nulFailure ↔ output.HasNul) ∧
    (¬ output.HasNul → bounded result = .ok result)

/-- What `storable` does with a value that fits. -/
theorem storable_of_fits {v : Json} {limit : ℕ} (hfits : v.render.length ≤ limit)
    (label : String) : storable v limit label =
      if v.HasNul ∨ v.SpellsNul then .error (label ++ " must not contain NUL characters")
      else .ok v.render := by
  have hnul : ['\\', 'u', '0', '0', '0', '0'] <:+: v.render ↔ v.HasNul ∨ v.SpellsNul :=
    v.escapedNul_iff
  simp only [storable, if_neg hfits.not_gt, hnul]

/-- What `bounded` does with an output that fits. -/
theorem bounded_of_fits {result : Dict} {v : Json} {h : v.distinct = true}
    (hget : result.get? outputKey = some (.json v h)) (hfits : v.render.length ≤ outputLimit) :
    bounded result = if v.HasNul ∨ v.SpellsNul then .ok nulFailure else .ok result := by
  have hnul : escapedNul <:+: v.render ↔ v.HasNul ∨ v.SpellsNul := v.escapedNul_iff
  simp only [bounded, hget, if_neg hfits.not_gt, hnul]
  rfl

/-- A check that finds one of two properties is exact for the first one if the second one comes
with it. -/
theorem exact_iff {p q : Prop} {α : Type} [Decidable (p ∨ q)] {x a b : α} {accepted : Prop}
    (hx : x = if p ∨ q then a else b) (hne : b ≠ a) (hb : x = b → accepted)
    (ha : accepted → x ≠ a) : ((x = a ↔ p) ∧ (¬ p → accepted)) ↔ (q → p) := by
  constructor
  · rintro ⟨-, hrest⟩ hq
    by_contra hp
    exact ha (hrest hp) (by rw [hx, if_pos (Or.inr hq)])
  · intro hqp
    by_cases hp : p
    · rw [hx, if_pos (Or.inl hp)]
      exact ⟨iff_of_true rfl hp, fun h => absurd hp h⟩
    · have hnone : ¬ (p ∨ q) := fun h => hp (h.elim id hqp)
      refine ⟨iff_of_false ?_ hp, fun _ => hb (by rw [hx, if_neg hnone])⟩
      rw [hx, if_neg hnone]
      exact hne

/-- **NUL rejection.** For a value that fits, `storable` and `bounded` reject it exactly if it has
a NUL character, and else return it, if and only if no text of it spells the escape of one, or
it has one anyway. -/
theorem nul_rejection_exact {v : Json} (hwf : v.wellFormed = true) :
    (∀ (limit : ℕ) (label : String), v.render.length ≤ limit →
      (StorableExact v limit label ↔ (v.SpellsNul → v.HasNul))) ∧
    ∀ (result : Dict) (h : v.distinct = true), result.get? outputKey = some (.json v h) →
      v.render.length ≤ outputLimit → (BoundedExact result v ↔ (v.SpellsNul → v.HasNul)) := by
  refine ⟨fun limit label hfits => ?_, fun result h hget hfits => ?_⟩
  · refine exact_iff (storable_of_fits hfits label) (by simp)
      (fun hok => ⟨_, hok, Json.decode_render hwf⟩) ?_
    rintro ⟨encoded, hok, -⟩ herror
    cases hok.symm.trans herror
  · have hne : Except.ok result ≠ (.ok nulFailure : Except Exc Dict) := fun heq => by
      rw [Except.ok.inj heq] at hget
      cases hget
    exact exact_iff (bounded_of_fits hget hfits) hne id fun hok herror =>
      hne (hok.symm.trans herror)

/-- Metadata with an escaped quote, a backslash and a control character, but no NUL. -/
def escapedMetadata : Json := .obj [(.ofString "x", .str (.ofString "\"a\\u0041\n"))]

theorem nul_rejection_exact_escaped :
    StorableExact escapedMetadata metadataLimit "Metadata" ∧
      BoundedExact (.output (.json escapedMetadata rfl)) escapedMetadata := by
  have hspells : escapedMetadata.SpellsNul → escapedMetadata.HasNul :=
    fun h => absurd h (by decide +kernel)
  obtain ⟨hstorable, hbounded⟩ :=
    nul_rejection_exact (show escapedMetadata.wellFormed = true by decide +kernel)
  exact ⟨(hstorable metadataLimit "Metadata" (by decide +kernel)).mpr hspells,
    (hbounded (.output (.json escapedMetadata rfl)) rfl rfl (by decide +kernel)).mpr hspells⟩

/-- A text of six characters: a backslash and `u0000`. -/
def spelledMetadata : Json := .obj [(.ofString "x", .str (.ofString "\\u0000"))]

theorem nul_rejected_spelled :
    ¬ spelledMetadata.HasNul ∧ spelledMetadata.wellFormed = true ∧
      spelledMetadata.render.length ≤ metadataLimit ∧
      storable spelledMetadata metadataLimit "Metadata" =
        .error "Metadata must not contain NUL characters" ∧
      bounded (.output (.json spelledMetadata rfl)) = .ok nulFailure ∧
      ¬ StorableExact spelledMetadata metadataLimit "Metadata" ∧
      ¬ BoundedExact (.output (.json spelledMetadata rfl)) spelledMetadata := by
  have hnul : ¬ spelledMetadata.HasNul := by decide +kernel
  have hspells : spelledMetadata.SpellsNul := by decide +kernel
  have hfits : spelledMetadata.render.length ≤ metadataLimit := by decide +kernel
  have hstored : storable spelledMetadata metadataLimit "Metadata" =
      .error "Metadata must not contain NUL characters" := by
    rw [storable_of_fits hfits, if_pos (Or.inr hspells)]
    rfl
  have hbounded : bounded (.output (.json spelledMetadata rfl)) = .ok nulFailure := by
    rw [bounded_of_fits (h := rfl) rfl (by decide +kernel), if_pos (Or.inr hspells)]
  exact ⟨hnul, by decide +kernel, hfits, hstored, hbounded, fun h => hnul (h.1.mp hstored),
    fun h => hnul (h.1.mp hbounded)⟩

end GreyQueue
