import Mathlib.Algebra.Order.BigOperators.Group.List
import GreyQueue.Executors

/-!
# Which results the coordinator accepts

The dict that the executor returns is accepted when the merged body keeps the worker's own
`worker_id` and `token`, parses as a `Completion`, fits a request, and carries a failure that
the executor marked as retryable as a retryable one.  Then the first `/finish` is not answered
with a status of `REJECTED`, and the fallback of the worker is not taken.

Not every behaviour leads there: the executor passes on the keys and the error that a task
process prints, takes over NUL characters of a stream or of an exception, puts a prefix before
a message that is already of full length, and does not ask for an object as output.

## Main results

* `executor_result_accepted` — the results of exactly the reportable behaviours are accepted.
-/

namespace GreyQueue

open Lib

/-- The bound of `BoundRequests`, in bytes. -/
def requestLimit : ℕ := 131072

/-- The members of a dict that are written as JSON. -/
def Dict.written (d : Dict) : List (Text × Json) :=
  d.members.filterMap fun m =>
    match m.2 with
    | .json v _ => some (m.1, v)
    | _ => none

/-- A dict without an object that `json.dumps` refuses. -/
def Dict.Serialisable (d : Dict) : Prop := ∀ m ∈ d.members, ∃ v h, m.2 = .json v h

/-- The executor marked a failure as retryable. -/
def Dict.MarkedRetryable (d : Dict) : Prop :=
  (∃ t, d.get? errorKey = some (.str t)) ∧ d.get? retryableKey = some (.bool true)

/-- What the coordinator does with the result of an assignment: the body keeps the worker id and
the token, parses, fits a request (its ASCII text is at least as long as what is sent), and is
retryable if the executor says so. -/
structure Accepted (a : Assignment) (result : Dict) : Prop where
  names : (a.ownership.merge result).Names a
  serialisable : (a.ownership.merge result).Serialisable
  valid : ∃ c, Completion.validate a (a.ownership.merge result) = some c
  fits : (Json.obj (a.ownership.merge result).written).render.length ≤ requestLimit
  retryable : result.MarkedRetryable →
    ∃ c, Completion.validate a (a.ownership.merge result) = some c ∧ c.error.isSome = true ∧
      c.retryable = true

/-! ## Reportable behaviours -/

/-- A text that can be an error: no surrogates, and no NUL in the eyes of `storable`. -/
def Clean (t : Text) : Prop := t.unicode = true ∧ ¬ escapedNul <:+: (Json.str t).render

/-- The message of an exception fits behind `Executor failed: `. -/
def Exc.Reportable (e : Exc) : Prop := Clean (message e) ∧ (message e).length ≤ 3983

/-- Every member is the given one, a boolean `retryable`, or repeats the worker's own. -/
def Dict.Plain (a : Assignment) (key : Text) (d : Dict) : Prop :=
  ∀ m ∈ d.members, m.1 = key ∨
    (m.1 = retryableKey ∧ ∃ v h b, m.2 = .json v h ∧ boolean v = some b) ∨
    a.ownership.get? m.1 = some m.2

/-- A dict with one of an output and an error: its output is replaced by `bounded`, or is an object
without surrogates; its error is a text that can be reported; and there is nothing else in it. -/
def Dict.Reportable (a : Assignment) (d : Dict) : Prop :=
  match d.get? outputKey with
  | some .unserialisable => True
  | some (.raising e) => e.Reportable
  | some (.json v _) => outputLimit < v.render.length ∨ escapedNul <:+: v.render ∨
      (v.unicode = true ∧ ∃ o, v = .obj o) ∧ d.Plain a outputKey
  | none => (∃ t, d.get? errorKey = some (.str t) ∧ Clean t ∧ 1 ≤ t.length ∧ t.length ≤ 4000) ∧
      d.Plain a errorKey

/-- A task process whose result is accepted. -/
def ProcessRun.Reportable [JsonDecoder] (a : Assignment) (timedOut : Bool) : ProcessRun → Prop
  | .failed e => e.Reportable
  | .exited returncode stdout stderr => timedOut = true ∨
      if returncode.val ≠ 0 then Clean (tail stderr)
      else match JsonDecoder.loads stdout with
        | .invalid => True
        | .raised e => e.Reportable
        | .other => True
        | .dict d => d.has outputKey = d.has errorKey ∨ d.Reportable a

/-- A pool callable whose result is accepted. -/
def PoolRun.Reportable (a : Assignment) (timedOut : Bool) : PoolRun → Prop
  | .failed e => e.Reportable
  | .executed (.ok output) => timedOut = true ∨ (Dict.output output).Reportable a
  | .executed (.error e) =>
      match e.kind with
      | .other => e.Reportable
      | _ => timedOut = true ∨ Clean (message e)

/-- A behaviour whose result is accepted; the sleep on the event loop always is. -/
def Behaviour.Reportable [JsonDecoder] (a : Assignment) (strategy : Strategy) (job : Job)
    (b : Behaviour) : Prop :=
  if strategy = .subprocess then b.process.Reportable a b.timedOut
  else if strategy = .hybrid ∧ job.task = "sleep" then True
  else b.pool.Reportable a b.timedOut

/-! ## What the coordinator parses -/

theorem ownership_get?_of_ne {a : Assignment} {key : Text} (hw : key ≠ workerIdKey)
    (ht : key ≠ tokenKey) : a.ownership.get? key = none := by
  simp [Dict.get?, Assignment.ownership, hw, ht]

theorem merge_get?_field {a : Assignment} {r : Dict} {key : Text} (hw : key ≠ workerIdKey)
    (ht : key ≠ tokenKey) : (a.ownership.merge r).get? key = r.get? key := by
  rw [Dict.get?_merge, ownership_get?_of_ne hw ht, Option.or_none]

@[simp] theorem merge_get?_output (a : Assignment) (r : Dict) :
    (a.ownership.merge r).get? outputKey = r.get? outputKey :=
  merge_get?_field (by decide) (by decide)
@[simp] theorem merge_get?_error (a : Assignment) (r : Dict) :
    (a.ownership.merge r).get? errorKey = r.get? errorKey :=
  merge_get?_field (by decide) (by decide)
@[simp] theorem merge_get?_retryable (a : Assignment) (r : Dict) :
    (a.ownership.merge r).get? retryableKey = r.get? retryableKey :=
  merge_get?_field (by decide) (by decide)

/-- Every member is a field of the result or repeats the worker's own. -/
def Dict.Lawful (a : Assignment) (d : Dict) : Prop :=
  ∀ m ∈ d.members, m.1 ∈ [outputKey, errorKey, retryableKey] ∨ a.ownership.get? m.1 = some m.2

/-- The merged body names the assignment and has no other fields when the result is lawful. -/
theorem names_merge_iff {a : Assignment} {r : Dict} :
    (a.ownership.merge r).Names a ∧
      (∀ m ∈ (a.ownership.merge r).members, m.1 ∈ completionFields) ↔ r.Lawful a := by
  have hworker : a.ownership.get? workerIdKey = some (.str (.ofString a.workerId)) := rfl
  have htoken : a.ownership.get? tokenKey = some (.str (.ofChars (uuidText a.token))) := rfl
  have hown : ∀ {key x}, (key, x) ∈ a.ownership.members → key = workerIdKey ∨ key = tokenKey := by
    intro key x h
    simp only [Assignment.ownership, List.mem_cons, List.not_mem_nil, or_false, Prod.mk.injEq] at h
    exact h.imp And.left And.left
  constructor
  · rintro ⟨⟨hw, ht⟩, hfields⟩ ⟨key, x⟩ hm
    have hget : r.get? key = some x := Dict.get?_eq_some_iff.mpr hm
    have hfield := hfields (key, x) (List.mem_append_right _ hm)
    simp only [completionFields, List.mem_cons, List.not_mem_nil, or_false] at hfield ⊢
    rcases hfield with rfl | rfl | h
    · rw [Dict.get?_merge, hget, Option.some_or, Option.bind_some,
        Object.text?_eq_some_iff] at hw
      exact .inr (hw ▸ hworker)
    · rw [Dict.get?_merge, hget, Option.some_or, Option.bind_some,
        Object.text?_eq_some_iff] at ht
      exact .inr (ht ▸ htoken)
    · exact .inl h
  · intro h
    have hkeep : ∀ {key t}, key ∉ [outputKey, errorKey, retryableKey] →
        a.ownership.get? key = some (.str t) →
        ((a.ownership.merge r).get? key).bind Object.text? = some t := by
      intro key t hkey hget
      rw [Dict.get?_merge]
      cases hr : r.get? key with
      | none => rw [Option.none_or, hget]; rfl
      | some x =>
          have hx := (h (key, x) (Dict.get?_eq_some_iff.mp hr)).resolve_left hkey
          rw [Option.some_or, ← hx, hget]
          rfl
    refine ⟨⟨hkeep (by decide) hworker, hkeep (by decide) htoken⟩, ?_⟩
    rintro ⟨key, x⟩ hm
    rcases List.mem_append.mp hm with hm | hm
    · rcases hown (List.mem_of_mem_filter hm) with rfl | rfl <;> simp [completionFields]
    · rcases h (key, x) hm with hkey | hkey
      · exact List.mem_cons_of_mem _ (List.mem_cons_of_mem _ hkey)
      · rcases hown (Dict.get?_eq_some_iff.mp hkey) with rfl | rfl <;> simp [completionFields]

/-- With one of an output and an error, a lawful result with a boolean `retryable` is plain. -/
theorem lawful_iff_plain {a : Assignment} {r : Dict} {key other : Text}
    (hkey : key ≠ retryableKey) (hother : r.get? other = none)
    (hfields : ∀ k, k ∈ [outputKey, errorKey, retryableKey] ↔
      k = key ∨ k = other ∨ k = retryableKey) :
    (r.Lawful a ∧ ∃ b, retryableField (r.get? retryableKey) = some b) ↔ r.Plain a key := by
  constructor
  · rintro ⟨hlawful, b, hb⟩ ⟨k, x⟩ hm
    have hget : r.get? k = some x := Dict.get?_eq_some_iff.mpr hm
    rcases hlawful (k, x) hm with hk | hk
    · rcases (hfields k).mp hk with rfl | rfl | rfl
      · exact .inl rfl
      · rw [hother] at hget
        cases hget
      · rw [hget] at hb
        cases x with
        | json v h => exact .inr (.inl ⟨rfl, v, h, b, rfl, hb⟩)
        | unserialisable => cases hb
        | raising e => cases hb
    · exact .inr (.inr hk)
  · intro h
    refine ⟨fun m hm => ?_, ?_⟩
    · rcases h m hm with hk | ⟨hk, -⟩ | hk
      · exact .inl ((hfields m.1).mpr (.inl hk))
      · exact .inl ((hfields m.1).mpr (.inr (.inr hk)))
      · exact .inr hk
    · cases hget : r.get? retryableKey with
      | none => exact ⟨false, rfl⟩
      | some x =>
          rcases h _ (Dict.get?_eq_some_iff.mp hget) with hk | ⟨-, v, hv, b, rfl, hb⟩ | hk
          · exact absurd hk.symm hkey
          · exact ⟨b, hb⟩
          · have hnone : a.ownership.get? retryableKey = none :=
              ownership_get?_of_ne (by decide) (by decide)
            rw [hnone] at hk
            cases hk

theorem storable_isOk_iff {v : Json} {limit : ℕ} (label : String) :
    (storable v limit label).isOk = true ↔
      v.render.length ≤ limit ∧ ¬ escapedNul <:+: v.render := by
  unfold storable escapedNul
  dsimp only
  split_ifs <;> simp_all [Except.isOk, Except.toBool]

theorem outputField_eq_some_iff {x : Object} {o : List (Text × Json)} :
    outputField (some x) = some (some o) ↔
      ∃ h, x = .json (.obj o) h ∧ (Json.obj o).unicode = true := by
  constructor
  · intro h
    unfold outputField at h
    split at h
    · cases h
    · cases h
    · rename_i o' hd heq
      cases heq
      split at h
      · cases h
        exact ⟨hd, rfl, ‹_›⟩
      · cases h
    · cases h
  · rintro ⟨h, rfl, hu⟩
    exact if_pos hu

theorem errorField_eq_some_iff {x : Object} {e : String} :
    errorField (some x) = some (some e) ↔
      ∃ t, x = .str t ∧ t.unicode = true ∧ e = .ofList t.chars := by
  constructor
  · intro h
    unfold errorField at h
    split at h
    · cases h
    · cases h
    · rename_i t hd heq
      cases heq
      split at h
      · cases h
        exact ⟨t, rfl, ‹_›, rfl⟩
      · cases h
    · cases h
  · rintro ⟨t, rfl, hu, rfl⟩
    exact if_pos hu

theorem output_completion_iff {o : List (Text × Json)} {workerId : String} {token : Uuid} :
    (∃ c, (Report.output o).completion workerId token = some c) ↔ (Json.obj o).wellFormed = true ∧
      (Json.obj o).render.length ≤ outputLimit ∧ ¬ escapedNul <:+: (Json.obj o).render := by
  rw [← storable_isOk_iff "Output", Report.completion]
  split <;> simp_all

theorem error_completion_iff {e : String} {retryable : Bool} {workerId : String} {token : Uuid} :
    (∃ c, (Report.error e retryable).completion workerId token = some c) ↔
      (1 ≤ e.length ∧ e.length ≤ 4000) ∧
        (storable (textOrNull (some e.toList)) textLimit "Error").isOk = true := by
  rw [Report.completion]
  split <;> simp_all

/-- An error of at most the full length is storable when it is clean. -/
theorem clean_error_iff {t : Text} (hu : t.unicode = true) {retryable : Bool} {workerId : String}
    {token : Uuid} :
    (∃ c, (Report.error (.ofList t.chars) retryable).completion workerId token = some c) ↔
      Clean t ∧ 1 ≤ t.length ∧ t.length ≤ 4000 := by
  have htext : textOrNull (some (String.ofList t.chars).toList) = .str t := by
    simp [textOrNull, Text.ofChars_chars hu]
  have hlength : (String.ofList t.chars).length = t.length := by simp
  rw [error_completion_iff, storable_isOk_iff, htext, hlength, Clean]
  have hbound := t.literal_length_le
  have hrender : (Json.str t).render.length = t.literal.length := rfl
  constructor
  · rintro ⟨⟨h₁, h₂⟩, -, hnul⟩
    exact ⟨⟨hu, hnul⟩, h₁, h₂⟩
  · rintro ⟨⟨-, hnul⟩, h₁, h₂⟩
    refine ⟨⟨h₁, h₂⟩, ?_, hnul⟩
    rw [hrender, textLimit]
    omega

/-- What a parsed body is. -/
theorem Completion.validate_inv {a : Assignment} {body : Dict} {c : Completion}
    (h : Completion.validate a body = some c) :
    (body.Names a ∧ ∀ m ∈ body.members, m.1 ∈ completionFields) ∧
      retryableField (body.get? retryableKey) = some c.retryable ∧
      ((∃ o, outputField (body.get? outputKey) = some (some o) ∧
          errorField (body.get? errorKey) = some none ∧
          ∃ c', (Report.output o).completion a.workerId a.token = some c') ∨
        (outputField (body.get? outputKey) = some none ∧
          ∃ e, errorField (body.get? errorKey) = some (some e) ∧ c.error = some e ∧
            (Report.error e c.retryable).completion a.workerId a.token = some c)) := by
  unfold Completion.validate at h
  split at h
  · rename_i hnames
    refine ⟨hnames, ?_⟩
    split at h
    · rename_i o b ho he hb
      obtain ⟨c', hc', rfl⟩ := Option.map_eq_some_iff.mp h
      exact ⟨hb, .inl ⟨o, ho, he, c', hc'⟩⟩
    · rename_i e b ho he hb
      have hc := h
      rw [Report.completion] at h
      split at h
      · cases h
        exact ⟨hb, .inr ⟨ho, e, he, rfl, hc⟩⟩
      · cases h
    · cases h
  · cases h

/-- A result with an output parses when it is plain and the output is an object that is storable. -/
theorem validate_output_iff {a : Assignment} {r : Dict} {x : Object}
    (ho : r.get? outputKey = some x) (he : r.get? errorKey = none) :
    (∃ c, Completion.validate a (a.ownership.merge r) = some c) ↔
      r.Plain a outputKey ∧ ∃ o h, x = .json (.obj o) h ∧ (Json.obj o).unicode = true ∧
        (Json.obj o).render.length ≤ outputLimit ∧ ¬ escapedNul <:+: (Json.obj o).render := by
  rw [← lawful_iff_plain (by decide) he (by simp), ← names_merge_iff]
  constructor
  · rintro ⟨c, hc⟩
    obtain ⟨hnames, hb, hcase⟩ := Completion.validate_inv hc
    rw [merge_get?_retryable] at hb
    rw [merge_get?_output, merge_get?_error, ho, he] at hcase
    rcases hcase with ⟨o, hfield, -, hstored⟩ | ⟨-, e, hfield, -⟩
    · obtain ⟨h, rfl, hu⟩ := outputField_eq_some_iff.mp hfield
      exact ⟨⟨hnames, _, hb⟩, o, h, rfl, hu, (output_completion_iff.mp hstored).2⟩
    · cases hfield
  · rintro ⟨⟨hnames, b, hb⟩, o, h, rfl, hu, hstored⟩
    obtain ⟨c, hc⟩ : ∃ c, (Report.output o).completion a.workerId a.token = some c :=
      output_completion_iff.mpr ⟨Json.wellFormed_of_unicode h hu, hstored⟩
    rw [Completion.validate, if_pos hnames, merge_get?_output, merge_get?_error,
      merge_get?_retryable, ho, he, hb, outputField_eq_some_iff.mpr ⟨h, rfl, hu⟩]
    exact ⟨_, Option.map_eq_some_iff.mpr ⟨c, hc, rfl⟩⟩

/-- A result with an error parses when it is plain and the error is a clean text. -/
theorem validate_error_iff {a : Assignment} {r : Dict} {x : Object}
    (ho : r.get? outputKey = none) (he : r.get? errorKey = some x) :
    (∃ c, Completion.validate a (a.ownership.merge r) = some c) ↔
      r.Plain a errorKey ∧ ∃ t, x = .str t ∧ Clean t ∧ 1 ≤ t.length ∧ t.length ≤ 4000 := by
  rw [← lawful_iff_plain (by decide) ho (by simp; tauto), ← names_merge_iff]
  constructor
  · rintro ⟨c, hc⟩
    obtain ⟨hnames, hb, hcase⟩ := Completion.validate_inv hc
    rw [merge_get?_retryable] at hb
    rw [merge_get?_output, merge_get?_error, ho, he] at hcase
    rcases hcase with ⟨o, hfield, -⟩ | ⟨-, e, hfield, -, hstored⟩
    · cases hfield
    · obtain ⟨t, rfl, hu, rfl⟩ := errorField_eq_some_iff.mp hfield
      exact ⟨⟨hnames, _, hb⟩, t, rfl, (clean_error_iff hu).mp ⟨c, hstored⟩⟩
  · rintro ⟨⟨hnames, b, hb⟩, t, rfl, hclean⟩
    rw [Completion.validate, if_pos hnames, merge_get?_output, merge_get?_error,
      merge_get?_retryable, ho, he, hb, errorField_eq_some_iff.mpr ⟨t, rfl, hclean.1.1, rfl⟩]
    exact (clean_error_iff hclean.1.1).mpr hclean

/-! ## The size of a body -/

/-- The characters that a field of a parsed body takes at most. -/
def fieldBound (key : Text) : ℕ :=
  if key = workerIdKey then 1202
  else if key = tokenKey then 434
  else if key = outputKey then 64000
  else if key = errorKey then 48002
  else 62

theorem boolean_length_le {v : Json} {b : Bool} (h : boolean v = some b) :
    v.render.length ≤ 62 := by
  cases v with
  | bool b => cases b <;> decide
  | int n =>
      simp only [boolean] at h
      split_ifs at h with h₀ h₁
      · subst h₀
        decide
      · subst h₁
        decide
  | float x =>
      simp only [boolean] at h
      split_ifs at h with h₀ h₁
      · obtain ⟨neg, digits, exp, hcanonical⟩ := x
        cases h₀
        obtain ⟨-, rfl⟩ := hcanonical.resolve_left (by simp)
        change (FloatRepr.repr ⟨neg, 0, 0, .inr ⟨rfl, rfl⟩⟩).length ≤ 62
        cases neg <;> decide +kernel
      · subst h₁
        decide +kernel
  | str t =>
      have hwords : ∀ w ∈ falseWords ++ trueWords, w.length ≤ 5 := by decide +kernel
      have hlower : (lower t).length = t.length := List.length_map _
      have hword : lower t ∈ falseWords ++ trueWords := by
        simp only [boolean] at h
        split_ifs at h with h₀ h₁
        · exact List.mem_append_left _ h₀
        · exact List.mem_append_right _ h₁
      have hlength := hwords _ hword
      have hbound := t.literal_length_le
      have hrender : (Json.str t).render.length = t.literal.length := rfl
      omega
  | null => cases h
  | arr l => cases h
  | obj l => cases h

theorem outputField_length_le {x : Object} {o : Option (List (Text × Json))}
    (h : outputField (some x) = some o)
    (hlimit : ∀ o', o = some o' → (Json.obj o').render.length ≤ outputLimit) :
    ∃ v h, x = .json v h ∧ v.render.length ≤ 64000 := by
  unfold outputField at h
  split at h
  · rename_i heq
    cases heq
  · rename_i hd heq
    cases heq
    exact ⟨.null, hd, rfl, by decide⟩
  · rename_i o' hd heq
    cases heq
    split at h
    · cases h
      exact ⟨.obj o', hd, rfl, hlimit o' rfl⟩
    · cases h
  · cases h

theorem errorField_length_le {x : Object} {e : Option String} (h : errorField (some x) = some e)
    (hlimit : ∀ e', e = some e' → e'.length ≤ 4000) :
    ∃ v h, x = .json v h ∧ v.render.length ≤ 48002 := by
  unfold errorField at h
  split at h
  · rename_i heq
    cases heq
  · rename_i hd heq
    cases heq
    exact ⟨.null, hd, rfl, by decide⟩
  · rename_i t hd heq
    cases heq
    split at h
    · cases h
      have hlength := hlimit _ rfl
      have hbound := t.literal_length_le
      have hrender : (Json.str t).render.length = t.literal.length := rfl
      have hchars : (String.ofList t.chars).length = t.length := by simp
      exact ⟨.str t, hd, rfl, by omega⟩
    · cases h
  · cases h

/-- Every field of a parsed body is written within its bound. -/
theorem Completion.validate_bounds {a : Assignment} (ha : a.workerId.length ≤ 100) {body : Dict}
    {c : Completion} (h : Completion.validate a body = some c) :
    ∀ m ∈ body.members, ∃ v h, m.2 = .json v h ∧ v.render.length ≤ fieldBound m.1 := by
  obtain ⟨⟨⟨hworker, htoken⟩, hfields⟩, hretry, hcase⟩ := Completion.validate_inv h
  rintro ⟨key, x⟩ hm
  have hget : body.get? key = some x := Dict.get?_eq_some_iff.mpr hm
  have hstr : ∀ {t : Text} {n : ℕ}, x.text? = some t → t.length ≤ n →
      ∃ v h, x = .json v h ∧ v.render.length ≤ 12 * n + 2 := by
    intro t n hx hn
    have hbound := t.literal_length_le
    have hrender : (Json.str t).render.length = t.literal.length := rfl
    exact ⟨.str t, rfl, Object.text?_eq_some_iff.mp hx, by omega⟩
  have hkey := hfields (key, x) hm
  simp only [completionFields, List.mem_cons, List.not_mem_nil, or_false] at hkey
  rcases hkey with rfl | rfl | rfl | rfl | rfl
  · rw [hget, Option.bind_some] at hworker
    exact hstr hworker (by simpa [Text.ofString, Text.ofChars, String.length_toList] using ha)
  · rw [hget, Option.bind_some] at htoken
    have hlength : (Text.ofChars (uuidText a.token)).length ≤ 36 := by
      simp [Text.ofChars, length_uuidText]
    exact hstr htoken hlength
  · rw [hget] at hcase
    rcases hcase with ⟨o, ho, -, hstored⟩ | ⟨ho, -⟩
    · refine outputField_length_le ho ?_
      rintro o' ⟨⟩
      exact (output_completion_iff.mp hstored).2.1
    · exact outputField_length_le ho (by simp)
  · rw [hget] at hcase
    rcases hcase with ⟨o, -, he, -⟩ | ⟨-, e, he, -, hstored⟩
    · exact errorField_length_le he (by simp)
    · refine errorField_length_le he ?_
      rintro e' ⟨⟩
      exact (error_completion_iff.mp ⟨c, hstored⟩).1.2
  · rw [hget] at hretry
    cases x with
    | json v hv => exact ⟨v, hv, rfl, boolean_length_le hretry⟩
    | unserialisable => cases hretry
    | raising e => cases hretry

/-- Distinct keys among some fields weigh no more than all the fields. -/
theorem sum_le_of_nodup {l fields : List Text} (w : Text → ℕ) (hnodup : l.Nodup)
    (hsub : l ⊆ fields) : (l.map w).sum ≤ (fields.map w).sum := by
  obtain ⟨l', hperm, hsublist⟩ := List.subperm_of_subset hnodup hsub
  rw [← (hperm.map w).sum_eq]
  exact (hsublist.map w).sum_le_sum (by simp)

theorem Dict.map_fst_written {d : Dict} (h : d.Serialisable) :
    d.written.map Prod.fst = d.members.map Prod.fst := by
  rw [Dict.written, List.map_filterMap, ← List.filterMap_eq_map]
  refine List.filterMap_congr fun m hm => ?_
  obtain ⟨v, hv, hx⟩ := h m hm
  simp [hx]

theorem Dict.mem_written {d : Dict} {key : Text} {v : Json} (h : (key, v) ∈ d.written) :
    ∃ hv, (key, .json v hv) ∈ d.members := by
  obtain ⟨⟨key', x⟩, hm, hx⟩ := List.mem_filterMap.mp h
  cases x with
  | json v' hv =>
      cases hx
      exact ⟨hv, hm⟩
  | unserialisable => cases hx
  | raising e => cases hx

/-- A parsed body fits a request. -/
theorem Completion.validate_fits {a : Assignment} (ha : a.workerId.length ≤ 100) {body : Dict}
    {c : Completion} (h : Completion.validate a body = some c) :
    body.Serialisable ∧ (Json.obj body.written).render.length ≤ requestLimit := by
  have hbounds := Completion.validate_bounds ha h
  have hfields := (Completion.validate_inv h).1.2
  have hserialisable : body.Serialisable := by
    intro m hm
    obtain ⟨v, hv, hx, -⟩ := hbounds m hm
    exact ⟨v, hv, hx⟩
  let weight : Text → ℕ := fun key => key.literal.length + fieldBound key + 4
  have hkeys := Dict.map_fst_written hserialisable
  have hnodup : (body.written.map Prod.fst).Nodup := hkeys ▸ body.nodup
  have hsub : body.written.map Prod.fst ⊆ completionFields := by
    rw [hkeys]
    intro key hkey
    obtain ⟨m, hm, rfl⟩ := List.mem_map.mp hkey
    exact hfields m hm
  have hmember : ∀ m ∈ body.written, Json.memberLength m ≤ weight m.1 := by
    rintro ⟨key, v⟩ hm
    obtain ⟨hv, hmem⟩ := Dict.mem_written hm
    obtain ⟨v', hv', hx, hle⟩ := hbounds _ hmem
    cases hx
    change v.render.length ≤ fieldBound key at hle
    simp only [Json.memberLength, weight]
    omega
  refine ⟨hserialisable, ?_⟩
  have htotal : (completionFields.map weight).sum + 2 ≤ requestLimit := by decide +kernel
  calc (Json.obj body.written).render.length
      ≤ (body.written.map Json.memberLength).sum + 2 := Json.render_obj_length_le _
    _ ≤ (body.written.map fun m => weight m.1).sum + 2 :=
        Nat.add_le_add_right (List.sum_le_sum hmember) 2
    _ = ((body.written.map Prod.fst).map weight).sum + 2 := by
        rw [List.map_map]
        rfl
    _ ≤ (completionFields.map weight).sum + 2 :=
        Nat.add_le_add_right (sum_le_of_nodup weight hnodup hsub) 2
    _ ≤ requestLimit := htotal

/-- A result is accepted when the merged body parses: the rest follows. -/
theorem accepted_iff_validates {a : Assignment} (ha : a.workerId.length ≤ 100) {r : Dict} :
    Accepted a r ↔ ∃ c, Completion.validate a (a.ownership.merge r) = some c := by
  constructor
  · exact fun h => h.valid
  · rintro ⟨c, hc⟩
    obtain ⟨hnames, hretry, hcase⟩ := Completion.validate_inv hc
    obtain ⟨hserialisable, hfits⟩ := Completion.validate_fits ha hc
    refine ⟨hnames.1, hserialisable, ⟨c, hc⟩, hfits, ?_⟩
    rintro ⟨⟨t, ht⟩, hmarked⟩
    rw [merge_get?_retryable, hmarked] at hretry
    rw [merge_get?_error, ht] at hcase
    refine ⟨c, hc, ?_, (Option.some.inj hretry).symm⟩
    rcases hcase with ⟨o, -, hnone, -⟩ | ⟨-, e, -, he, -⟩
    · exfalso
      simp only [errorField, Object.str] at hnone
      split at hnone <;> cases hnone
    · simp [he]

/-! ## What the executor returns -/

theorem clean_append_iff {s t : Text} (hs : s.plain = true) : Clean (s ++ t) ↔ Clean t := by
  have hinfix : escapedNul <:+: (Json.str (s ++ t)).render ↔ escapedNul <:+: (Json.str t).render :=
    Text.literal_infix_append hs
  simp only [Clean, hinfix, Text.unicode_append, Text.unicode_of_plain hs, Bool.true_and]

theorem plain_intRepr (n : ℤ) : (Text.ofChars (intRepr n)).plain = true := by
  rw [Text.plain, Text.ofChars, List.all_map, List.all_eq_true]
  intro c hc
  have hnumeric := numeric_intRepr hc
  simp only [numeric, Bool.or_eq_true, beq_iff_eq, or_assoc] at hnumeric
  rcases hnumeric with hdigit | rfl | rfl | rfl | rfl
  · have hrange : 48 ≤ c.toNat ∧ c.toNat ≤ 57 := by
      simp only [Char.isDigit, Bool.and_eq_true, decide_eq_true_eq, ge_iff_le,
        UInt32.le_iff_toNat_le] at hdigit
      exact hdigit
    have hval : (Fin.ofNat 0x110000 c.toNat).val = c.toNat := Nat.mod_eq_of_lt (by omega)
    simp only [Function.comp, hval, decide_eq_true_eq]
    omega
  all_goals decide

/-- A failure is accepted when its text is. -/
theorem accepted_failure_iff {a : Assignment} (ha : a.workerId.length ≤ 100) {t : Text} {b : Bool} :
    Accepted a (.failure t b) ↔ Clean t ∧ 1 ≤ t.length ∧ t.length ≤ 4000 := by
  have houtput : (Dict.failure t b).get? outputKey = none := rfl
  have herror : (Dict.failure t b).get? errorKey = some (.str t) := rfl
  have hplain : (Dict.failure t b).Plain a errorKey := by
    intro m hm
    simp only [Dict.failure, List.mem_cons, List.not_mem_nil, or_false] at hm
    rcases hm with rfl | rfl
    · exact .inl rfl
    · exact .inr (.inl ⟨rfl, .bool b, rfl, b, rfl, rfl⟩)
  rw [accepted_iff_validates ha, validate_error_iff houtput herror]
  constructor
  · rintro ⟨-, t', ht, h⟩
    cases ht
    exact h
  · exact fun h => ⟨hplain, t, rfl, h⟩

/-- The texts of the executor itself are accepted. -/
theorem accepted_failure {a : Assignment} (ha : a.workerId.length ≤ 100) {t : Text} {b : Bool}
    (hplain : t.plain = true) (hlength : 1 ≤ t.length ∧ t.length ≤ 4000) :
    Accepted a (.failure t b) := by
  refine (accepted_failure_iff ha).mpr ⟨?_, hlength⟩
  have hnil : Clean [] := ⟨rfl, by decide⟩
  simpa using (clean_append_iff (t := []) hplain).mpr hnil

theorem accepted_executorFailure_iff {a : Assignment} (ha : a.workerId.length ≤ 100) {e : Exc} :
    Accepted a (executorFailure e) ↔ e.Reportable := by
  have hlength : (Text.ofString "Executor failed: " ++ message e).length =
      17 + (message e).length := by
    rw [List.length_append]
    rfl
  rw [executorFailure, accepted_failure_iff ha, clean_append_iff (by decide), hlength,
    Exc.Reportable]
  constructor
  · rintro ⟨hclean, -, hle⟩
    exact ⟨hclean, by omega⟩
  · rintro ⟨hclean, hle⟩
    exact ⟨hclean, by omega, by omega⟩

/-- `Executor.run` on what the dispatch returns. -/
def reported (r : Except Exc Dict) : Dict :=
  match r >>= bounded with
  | .ok result => result
  | .error e => executorFailure e

/-- A dict with one of an output and an error is accepted, once bounded, when it is reportable. -/
theorem accepted_reported_iff {a : Assignment} (ha : a.workerId.length ≤ 100) {d : Dict}
    (h : d.has outputKey ≠ d.has errorKey) : Accepted a (reported (.ok d)) ↔ d.Reportable a := by
  change Accepted a (match bounded d with
    | .ok result => result
    | .error e => executorFailure e) ↔ _
  unfold bounded Dict.Reportable
  cases ho : d.get? outputKey with
  | none =>
      obtain ⟨x, hx⟩ : ∃ x, d.get? errorKey = some x := by
        rw [← Option.ne_none_iff_exists']
        simpa [Dict.has, ho] using h
      simp only
      rw [accepted_iff_validates ha, validate_error_iff ho hx, hx, and_comm]
      simp only [Option.some.injEq]
  | some x =>
      have he : d.get? errorKey = none := by simpa [Dict.has, ho] using h
      cases x with
      | unserialisable => exact iff_of_true (accepted_failure ha (by decide) (by decide)) trivial
      | raising e => exact accepted_executorFailure_iff ha
      | json v hv =>
          by_cases hlong : outputLimit < v.render.length
          · simp only [hlong, if_true, true_or, iff_true]
            exact accepted_failure ha (by decide) (by decide)
          · by_cases hnul : escapedNul <:+: v.render
            · simp only [hlong, hnul, if_true, if_false, true_or, or_true, iff_true]
              exact accepted_failure ha (by decide) (by decide)
            · simp only [hlong, hnul, if_false, false_or]
              rw [accepted_iff_validates ha, validate_output_iff ho he]
              constructor
              · rintro ⟨hplain, o, h', heq, hu, -⟩
                cases heq
                exact ⟨⟨hu, o, rfl⟩, hplain⟩
              · rintro ⟨⟨hu, o, rfl⟩, hplain⟩
                exact ⟨hplain, o, hv, rfl, hu, by omega, hnul⟩

theorem accepted_parseOutput_iff [JsonDecoder] {a : Assignment} (ha : a.workerId.length ≤ 100)
    {stdout : List UInt8} : Accepted a (reported (parseOutput stdout)) ↔
      match JsonDecoder.loads stdout with
      | .invalid => True
      | .raised e => e.Reportable
      | .other => True
      | .dict d => d.has outputKey = d.has errorKey ∨ d.Reportable a := by
  have hinvalid : Accepted a (reported (.ok invalidOutput)) :=
    accepted_failure ha (by decide) (by decide)
  unfold parseOutput
  cases JsonDecoder.loads stdout with
  | invalid => exact iff_of_true hinvalid trivial
  | raised e => exact accepted_executorFailure_iff ha
  | other => exact iff_of_true hinvalid trivial
  | dict d =>
      dsimp only
      split
      · exact iff_of_true hinvalid (.inl ‹_›)
      · rename_i hkeys
        rw [accepted_reported_iff ha hkeys]
        exact (or_iff_right hkeys).symm

theorem length_intRepr_le {n : ℤ} (h : n.natAbs < 2 ^ 32) : (intRepr n).length ≤ 11 := by
  have hdigits : (Nat.toDigits 10 n.natAbs).length ≤ 10 :=
    (Nat.length_toDigits_le_iff (by decide) (by decide)).mpr (by omega)
  unfold intRepr
  split
  · rw [List.length_cons]
    omega
  · omega

/-- The text of a failed process is accepted when the end of its error stream is clean. -/
theorem accepted_exit_iff {a : Assignment} (ha : a.workerId.length ≤ 100) (returncode : ReturnCode)
    (stderr : List UInt8) :
    Accepted a (.failure (.ofString "Task process exited " ++ .ofChars (intRepr returncode.val) ++
      .ofString ": " ++ tail stderr) true) ↔ Clean (tail stderr) := by
  have hprefix : Text.plain (.ofString "Task process exited " ++
      .ofChars (intRepr returncode.val) ++ .ofString ": ") = true := by
    have hcode := plain_intRepr returncode.val
    rw [Text.plain] at hcode ⊢
    rw [List.all_append, List.all_append, hcode]
    decide
  have htail : (tail stderr).length ≤ 1000 := by
    simp only [tail, List.length_drop]
    omega
  have hcode := length_intRepr_le returncode.property
  have hlength : (Text.ofString "Task process exited " ++ .ofChars (intRepr returncode.val) ++
      .ofString ": " ++ tail stderr).length = 22 + (intRepr returncode.val).length +
        (tail stderr).length := by
    have h₁ : (Text.ofString "Task process exited ").length = 20 := by decide
    have h₂ : (Text.ofString ": ").length = 2 := by decide
    have h₃ : (Text.ofChars (intRepr returncode.val)).length = (intRepr returncode.val).length :=
      List.length_map _
    simp only [List.length_append, h₁, h₂, h₃]
    omega
  rw [accepted_failure_iff ha, clean_append_iff hprefix, hlength]
  exact and_iff_left ⟨by omega, by omega⟩

theorem accepted_subprocess_iff [JsonDecoder] {a : Assignment} (ha : a.workerId.length ≤ 100)
    {b : Behaviour} : Accepted a (reported (Executor.subprocess b)) ↔
      b.process.Reportable a b.timedOut := by
  unfold Executor.subprocess ProcessRun.Reportable
  cases b.process with
  | failed e => exact accepted_executorFailure_iff ha
  | exited returncode stdout stderr =>
      dsimp only
      by_cases htime : b.timedOut = true
      · simp only [htime, if_true, true_or, iff_true]
        exact accepted_failure ha (by decide) (by decide)
      · simp only [htime, Bool.false_eq_true, if_false, false_or]
        split
        · exact accepted_exit_iff ha returncode stderr
        · exact accepted_parseOutput_iff ha

theorem has_output (x : Object) : (Dict.output x).has outputKey ≠ (Dict.output x).has errorKey := by
  have houtput : (Dict.output x).has outputKey = true := rfl
  have herror : (Dict.output x).has errorKey = false := rfl
  simp [houtput, herror]

/-- The sleep on the event loop reports an object. -/
theorem accepted_sleep {a : Assignment} (ha : a.workerId.length ≤ 100) {job : Job} {b : Behaviour} :
    Accepted a (reported (Executor.sleep job b)) := by
  have hnumber : ∀ n : Num, ∃ v h, n.object = .json v h ∧ v.unicode = true ∧ ∃ o, v = .obj o := by
    intro n
    cases n with
    | int n => exact ⟨_, _, rfl, rfl, _, rfl⟩
    | float x => exact ⟨_, _, rfl, rfl, _, rfl⟩
  unfold Executor.sleep
  split
  · refine (accepted_executorFailure_iff ha).mpr ⟨⟨by decide, by decide⟩, by decide⟩
  · rename_i seconds _
    split
    · exact accepted_failure ha (by decide) (by decide)
    · obtain ⟨v, h, hobject, hu, o, ho⟩ := hnumber seconds
      rw [accepted_reported_iff ha (has_output _), Dict.Reportable]
      simp only [Dict.output, Dict.get?, List.lookup_cons_self, hobject]
      refine .inr (.inr ⟨⟨hu, o, ho⟩, ?_⟩)
      intro m hm
      exact .inl (by simpa using congrArg Prod.fst (List.mem_singleton.mp hm))

theorem length_message (e : Exc) : 1 ≤ (message e).length ∧ (message e).length ≤ 4000 := by
  have htext : (if e.text = [] then e.name else e.text) ≠ [] := by
    split
    · exact e.named
    · assumption
  have hpos := List.length_pos_iff.mpr htext
  simp only [message, List.length_take]
  omega

theorem accepted_message_iff {a : Assignment} (ha : a.workerId.length ≤ 100) {e : Exc} {b : Bool} :
    Accepted a (.failure (message e) b) ↔ Clean (message e) := by
  rw [accepted_failure_iff ha]
  exact and_iff_left (length_message e)

theorem accepted_pool_iff {a : Assignment} (ha : a.workerId.length ≤ 100) {b : Behaviour} :
    Accepted a (reported (Executor.pool b)) ↔ b.pool.Reportable a b.timedOut := by
  -- what comes too late is replaced, unless it is an exception
  have hlate : ∀ {d : Dict} {p : Prop}, (Accepted a (reported (.ok d)) ↔ p) →
      (Accepted a (reported (if b.timedOut = true then
        .ok (.failure (.ofString "Task execution timeout (pool callable drained)") true)
        else .ok d)) ↔ b.timedOut = true ∨ p) := by
    intro d p hd
    by_cases htime : b.timedOut = true
    · simp only [htime, if_true, true_or, iff_true]
      exact accepted_failure ha (by decide) (by decide)
    · simpa only [htime, Bool.false_eq_true, if_false, false_or] using hd
  unfold Executor.pool
  cases b.pool with
  | failed e => exact accepted_executorFailure_iff ha
  | executed result =>
      cases result with
      | ok output => exact hlate (accepted_reported_iff ha (has_output output))
      | error e =>
          simp only [invoke, PoolRun.Reportable]
          cases e.kind with
          | retryable => exact hlate (accepted_message_iff ha)
          | value => exact hlate (accepted_message_iff ha)
          | other => exact accepted_executorFailure_iff ha

/-- The results of exactly the reportable behaviours are accepted by the coordinator. -/
theorem executor_result_accepted [JsonDecoder] (registration : Registration) (token : Uuid)
    (strategy : Strategy) (job : Job) (b : Behaviour) :
    Accepted ⟨registration.workerId, token⟩ (Executor.run strategy job b) ↔
      b.Reportable ⟨registration.workerId, token⟩ strategy job := by
  have ha : registration.workerId.length ≤ 100 := registration.workerId_length.2
  change Accepted _ (reported (Executor.dispatch strategy job b)) ↔ _
  unfold Executor.dispatch Behaviour.Reportable
  split
  · exact accepted_subprocess_iff ha
  · split
    · exact iff_of_true (accepted_sleep ha) trivial
    · exact accepted_pool_iff ha

/-- A task process that exits with status 1 after a NUL byte on its error stream. -/
def Behaviour.nulOnStderr : Behaviour where
  timedOut := false
  process := .exited ⟨1, by decide⟩ [] [0]
  pool := .failed keyError

/-- Its failure is marked as retryable, and is not accepted. -/
theorem executor_result_with_nul : letI : JsonDecoder := ⟨fun _ => .invalid⟩
    (Executor.run .subprocess (newJob 5 .flaky (.obj []) "" 0) .nulOnStderr).MarkedRetryable ∧
      ¬ Accepted ⟨"w1", 307⟩
        (Executor.run .subprocess (newJob 5 .flaky (.obj []) "" 0) .nulOnStderr) := by
  refine ⟨⟨⟨_, rfl⟩, rfl⟩, fun h => ?_⟩
  have hclean : Clean (tail [0]) := (accepted_exit_iff (by decide) ⟨1, by decide⟩ [0]).mp h
  exact hclean.2 (by decide)

end GreyQueue
