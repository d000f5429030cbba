import GreyQueue.Lib.Unicode
import GreyQueue.Session

/-!
# Task arguments

`tasks.validate`: each registered task has a strict model with one field and no
extra fields.  A valid argument object is dumped as that one field; an invalid one
is rejected with the names of the offending arguments.
-/

namespace GreyQueue

open Lib

/-- A JSON number, as decoded. -/
inductive Num
  | int (n : ℤ)
  | float (x : FloatRepr)
  deriving DecidableEq

/-- `float(x)`. -/
def Num.toFloat : Num → FloatRepr
  | .int n => .ofInt n
  | .float x => x

/-- The value of a number. -/
def Num.toRat : Num → ℚ
  | .int n => n
  | .float x => x.toRat

@[simp] theorem Num.toRat_toFloat (x : Num) : x.toFloat.toRat = x.toRat := by
  cases x <;> simp [Num.toFloat, Num.toRat]

/-- A task's argument model: its one field, and the check of that field, which
returns the value as dumped. -/
structure ArgModel where
  field : Text
  check : Json → Option Json

/-- A strict integer field with inclusive bounds. -/
def intField (lo hi : ℤ) : Json → Option Json
  | .int n => if lo ≤ n ∧ n ≤ hi then some (.int n) else none
  | _ => none

/-- A strict float field with inclusive bounds; an integer is accepted and dumped as
a float. -/
def floatField (lo hi : ℚ) : Json → Option Json
  | .int n => if lo ≤ n ∧ (n : ℚ) ≤ hi then some (.float (.ofInt n)) else none
  | .float x => if lo ≤ x.toRat ∧ x.toRat ≤ hi then some (.float x) else none
  | _ => none

/-- A strict string field with a maximal length; a lone surrogate makes a string invalid. -/
def strField (maxLength : ℕ) : Json → Option Json
  | .str s => if s.unicode = true ∧ s.length ≤ maxLength then some (.str s) else none
  | _ => none

/-- `SleepArgs`. -/
def sleepArgs : ArgModel := ⟨.ofString "seconds", floatField 0 5⟩

/-- `PiArgs`. -/
def piArgs : ArgModel := ⟨.ofString "iterations", intField 1 1000000⟩

/-- `HashArgs`. -/
def hashArgs : ArgModel := ⟨.ofString "text", strField 10000⟩

/-- `FlakyArgs`. -/
def flakyArgs : ArgModel := ⟨.ofString "failures", intField 0 10⟩

/-- `REGISTRY`. -/
def registry : List (String × ArgModel) :=
  [("flaky", flakyArgs), ("sleep", sleepArgs), ("calculate_pi", piArgs), ("hash_text", hashArgs)]

/-- `model_validate(args).model_dump()`: the field must be present and pass its check,
and no other argument may be given. -/
def ArgModel.validate (model : ArgModel) (args : List (Text × Json)) : Except Error Json :=
  let extra := (args.filter fun p => p.1 ≠ model.field).map Prod.fst
  match (args.find? fun p => decide (p.1 = model.field)).bind fun p => model.check p.2 with
  | none => .error (.validation (model.field :: extra))
  | some v => if extra = [] then .ok (.obj [(model.field, v)]) else .error (.validation extra)

/-- `validate`, with the error `admit` makes of an unknown task. -/
def validate (task : String) (args : List (Text × Json)) : Except Error Json :=
  match registry.lookup task with
  | none => .error (.invalid ("Unknown task: " ++ task) "task")
  | some model => model.validate args

/-- The dumped value of a checked field is a well-formed scalar when the argument is. -/
def ArgModel.Sound (model : ArgModel) : Prop :=
  model.field.wellPaired = true ∧
    ∀ v w, v.wellFormed = true → model.check v = some w → w.wellFormed = true

theorem intField_sound {lo hi : ℤ} {v w : Json} (h : intField lo hi v = some w) :
    w.wellFormed = true := by
  cases v <;> simp only [intField, reduceCtorEq] at h
  split at h
  · cases h; rfl
  · cases h

theorem floatField_sound {lo hi : ℚ} {v w : Json} (h : floatField lo hi v = some w) :
    w.wellFormed = true := by
  cases v <;> simp only [floatField, reduceCtorEq] at h
  all_goals
    split at h
    · cases h; rfl
    · cases h

theorem strField_sound {n : ℕ} {v w : Json} (hv : v.wellFormed = true)
    (h : strField n v = some w) : w.wellFormed = true := by
  cases v <;> simp only [strField, reduceCtorEq] at h
  split at h
  · cases h; exact hv
  · cases h

theorem registry_sound {task : String} {model : ArgModel}
    (h : registry.lookup task = some model) : model.Sound := by
  have key : ∀ p ∈ registry, p.2.Sound := by
    intro p hp
    simp only [registry, List.mem_cons, List.not_mem_nil, or_false] at hp
    rcases hp with rfl | rfl | rfl | rfl
    · exact ⟨Text.wellPaired_ofChars _, fun _ _ _ => intField_sound⟩
    · exact ⟨Text.wellPaired_ofChars _, fun _ _ _ => floatField_sound⟩
    · exact ⟨Text.wellPaired_ofChars _, fun _ _ _ => intField_sound⟩
    · exact ⟨Text.wellPaired_ofChars _, fun _ _ hv => strField_sound hv⟩
  have hmem : ∀ l : List (String × ArgModel), l.lookup task = some model →
      (task, model) ∈ l := by
    intro l
    induction l with
    | nil => simp
    | cons p l ih =>
        obtain ⟨k, m⟩ := p
        rw [List.lookup_cons]
        split
        · rename_i hk
          intro hm
          have hk' : task = k := by simpa using hk
          cases hm
          rw [hk']; exact List.mem_cons_self
        · intro hm; exact List.mem_cons_of_mem _ (ih hm)
  exact key _ (hmem registry h)

/-- Validated arguments are well-formed. -/
theorem validate_wellFormed {task : String} {args : List (Text × Json)} {v : Json}
    (hargs : (Json.obj args).wellFormed = true) (h : validate task args = .ok v) :
    v.wellFormed = true := by
  unfold validate at h
  split at h
  · cases h
  · rename_i model hm
    obtain ⟨hfield, hcheck⟩ := registry_sound hm
    unfold ArgModel.validate at h
    simp only at h
    split at h
    · cases h
    · rename_i w hw
      split at h
      · cases h
        obtain ⟨p, hp, hpw⟩ := Option.bind_eq_some_iff.mp hw
        rw [Json.wellFormed, Bool.and_eq_true, Json.wellFormedMembers_iff] at hargs
        have := hcheck _ _ (hargs.2 p (List.mem_of_find?_eq_some hp)).2 hpw
        simp [Json.wellFormed, Json.wellFormedMembers, hfield, this]
      · cases h

end GreyQueue
