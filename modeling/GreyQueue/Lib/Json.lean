import GreyQueue.Lib.Text
import Mathlib.Data.List.Sort

/-!
# JSON values, their equalities and their canonical text

A value is what a JSON decoder returns: integers and floats are different
constructors, and an object is the list of its members in source order.

`render` writes a value as ASCII text with the separators `", "` and `": "`, and
`dumps` does so after sorting the members of every object by key.  Two equalities
compare values member by member, regardless of order: `same` keeps the type of a
number, `pyEq` compares booleans, integers and floats by their exact value.  `jsonb` is what
a column gives back that keeps every number as a decimal.

## Main results

* `same_of_sorted_eq`, `sorted_eq_of_same` — well-formed values are the same up to the order
  of members exactly when they are equal once sorted.
-/

namespace Lib

/-- A decoded JSON value. -/
inductive Json
  | null
  | bool (b : Bool)
  | int (n : ℤ)
  | float (x : FloatRepr)
  | str (s : Text)
  | arr (elems : List Json)
  | obj (members : List (Text × Json))

namespace Json

mutual
private theorem induct {P : Json → Prop} (hnull : P .null) (hbool : ∀ b, P (.bool b))
    (hint : ∀ n, P (.int n)) (hfloat : ∀ x, P (.float x)) (hstr : ∀ s, P (.str s))
    (harr : ∀ l, (∀ v ∈ l, P v) → P (.arr l))
    (hobj : ∀ l, (∀ m ∈ l, P m.2) → P (.obj l)) : ∀ v, P v
  | .null => hnull
  | .bool b => hbool b
  | .int n => hint n
  | .float x => hfloat x
  | .str s => hstr s
  | .arr l => harr l (inductElems hnull hbool hint hfloat hstr harr hobj l)
  | .obj l => hobj l (inductMembers hnull hbool hint hfloat hstr harr hobj l)

private theorem inductElems {P : Json → Prop} (hnull : P .null) (hbool : ∀ b, P (.bool b))
    (hint : ∀ n, P (.int n)) (hfloat : ∀ x, P (.float x)) (hstr : ∀ s, P (.str s))
    (harr : ∀ l, (∀ v ∈ l, P v) → P (.arr l))
    (hobj : ∀ l, (∀ m ∈ l, P m.2) → P (.obj l)) : ∀ l : List Json, ∀ v ∈ l, P v
  | [] => fun _ h => absurd h List.not_mem_nil
  | w :: l => fun v h => (List.mem_cons.mp h).elim
      (fun e => e ▸ induct hnull hbool hint hfloat hstr harr hobj w)
      (fun h => inductElems hnull hbool hint hfloat hstr harr hobj l v h)

private theorem inductMembers {P : Json → Prop} (hnull : P .null) (hbool : ∀ b, P (.bool b))
    (hint : ∀ n, P (.int n)) (hfloat : ∀ x, P (.float x)) (hstr : ∀ s, P (.str s))
    (harr : ∀ l, (∀ v ∈ l, P v) → P (.arr l))
    (hobj : ∀ l, (∀ m ∈ l, P m.2) → P (.obj l)) :
    ∀ l : List (Text × Json), ∀ m ∈ l, P m.2
  | [] => fun _ h => absurd h List.not_mem_nil
  | (_, w) :: l => fun m h => (List.mem_cons.mp h).elim
      (fun e => e ▸ induct hnull hbool hint hfloat hstr harr hobj w)
      (fun h => inductMembers hnull hbool hint hfloat hstr harr hobj l m h)
end

/-- Induction on values: the elements of an array and the values of an object's
members come with their own hypotheses. -/
@[elab_as_elim]
theorem induction {P : Json → Prop} (null : P .null) (bool : ∀ b, P (.bool b))
    (int : ∀ n, P (.int n)) (float : ∀ x, P (.float x)) (str : ∀ s, P (.str s))
    (arr : ∀ l, (∀ v ∈ l, P v) → P (.arr l))
    (obj : ∀ l, (∀ m ∈ l, P m.2) → P (.obj l)) (v : Json) : P v :=
  induct null bool int float str arr obj v

/-! ## Equalities -/

mutual
/-- Equality up to the order of object members, with scalars compared by `leaf`. -/
def eqBy (leaf : Json → Json → Bool) : Json → Json → Bool
  | .arr l, .arr m => eqElems leaf l m
  | .obj l, .obj m => l.length == m.length && eqMembers leaf l m
  | v, w => leaf v w

/-- Elementwise equality of arrays. -/
def eqElems (leaf : Json → Json → Bool) : List Json → List Json → Bool
  | [], [] => true
  | v :: l, w :: m => eqBy leaf v w && eqElems leaf l m
  | _, _ => false

/-- Every member on the left has a member with its key and an equal value on the
right. -/
def eqMembers (leaf : Json → Json → Bool) : List (Text × Json) → List (Text × Json) → Bool
  | [], _ => true
  | (k, v) :: l, m => (m.any fun p => p.1 == k && eqBy leaf v p.2) && eqMembers leaf l m
end

/-- Scalars of one type with one value. -/
def sameScalar : Json → Json → Bool
  | .null, .null => true
  | .bool a, .bool b => a == b
  | .int m, .int n => m == n
  | .float x, .float y => x == y
  | .str s, .str t => s == t
  | _, _ => false

/-- The number a scalar counts as; booleans are numbers. -/
def number? : Json → Option ℚ
  | .bool b => some (if b then 1 else 0)
  | .int n => some n
  | .float x => some x.exact
  | _ => none

/-- Scalars equal under `==`: numbers by value, whatever their type. -/
def pyScalar : Json → Json → Bool
  | .null, .null => true
  | .str s, .str t => s == t
  | v, w => match number? v, number? w with
    | some p, some q => p == q
    | _, _ => false

/-- Equal as JSON values, up to the order of members; `1`, `1.0` and `true` differ. -/
def same : Json → Json → Bool := eqBy sameScalar

/-- Equal under `==`; `1`, `1.0` and `true` are equal. -/
def pyEq : Json → Json → Bool := eqBy pyScalar

mutual
/-- What a column returns that keeps every number as a decimal: a float whose text has an
exponent comes back as an integer when its decimal has no fraction. -/
def jsonb : Json → Json
  | .float x => if 16 < x.point ∧ 0 ≤ x.exp then
      .int ((if x.neg then -1 else 1) * (x.digits * 10 ^ x.exp.toNat))
    else .float x
  | .arr l => .arr (jsonbElems l)
  | .obj l => .obj (jsonbMembers l)
  | v => v

/-- The elements of an array, as they are returned. -/
def jsonbElems : List Json → List Json
  | [] => []
  | v :: l => jsonb v :: jsonbElems l

/-- The members of an object, as they are returned. -/
def jsonbMembers : List (Text × Json) → List (Text × Json)
  | [] => []
  | (k, v) :: l => (k, jsonb v) :: jsonbMembers l
end

example : pyEq (.float (.ofInt (10 ^ 23))) (.int 99999999999999991611392) = true ∧
    (Json.float (.ofInt (10 ^ 23))).jsonb.pyEq (.float (.ofInt (10 ^ 23))) = false := by
  decide +kernel

theorem eqElems_iff {leaf : Json → Json → Bool} {l m : List Json} :
    eqElems leaf l m = true ↔ List.Forall₂ (fun v w => eqBy leaf v w = true) l m := by
  induction l generalizing m with
  | nil => cases m <;> simp [eqElems]
  | cons v l ih => cases m <;> simp [eqElems, ih]

theorem eqMembers_iff {leaf : Json → Json → Bool} {l m : List (Text × Json)} :
    eqMembers leaf l m = true ↔
      ∀ p ∈ l, ∃ q ∈ m, q.1 = p.1 ∧ eqBy leaf p.2 q.2 = true := by
  induction l with
  | nil => simp [eqMembers]
  | cons p l ih => simp [eqMembers, ih]

theorem eqBy_refl {leaf : Json → Json → Bool} (hleaf : ∀ v, (∀ l, v ≠ .arr l) →
    (∀ l, v ≠ .obj l) → leaf v v = true) (v : Json) : eqBy leaf v v = true := by
  induction v using Json.induction with
  | null => exact hleaf _ (by simp) (by simp)
  | bool b => exact hleaf _ (by simp) (by simp)
  | int n => exact hleaf _ (by simp) (by simp)
  | float x => exact hleaf _ (by simp) (by simp)
  | str s => exact hleaf _ (by simp) (by simp)
  | arr l ih =>
      rw [eqBy, eqElems_iff]
      exact List.forall₂_same.mpr ih
  | obj l ih =>
      rw [eqBy, Bool.and_eq_true, eqMembers_iff]
      exact ⟨beq_self_eq_true _, fun p hp => ⟨p, hp, rfl, ih p hp⟩⟩

@[simp] theorem same_refl (v : Json) : same v v = true := by
  refine eqBy_refl (fun v ha ho => ?_) v
  cases v with
  | arr l => exact absurd rfl (ha l)
  | obj l => exact absurd rfl (ho l)
  | _ => simp [sameScalar]

/-- A coarser equality of scalars gives a coarser equality of values. -/
theorem eqBy_mono {leaf leaf' : Json → Json → Bool}
    (hleaf : ∀ v w, leaf v w = true → leaf' v w = true) {v w : Json}
    (h : eqBy leaf v w = true) : eqBy leaf' v w = true := by
  induction v using Json.induction generalizing w with
  | arr l ih =>
      cases w with
      | arr m =>
          rw [eqBy, eqElems_iff] at h ⊢
          induction h with
          | nil => exact List.Forall₂.nil
          | @cons a b l m hab _ ihl =>
              exact List.Forall₂.cons (ih a List.mem_cons_self hab)
                (ihl fun u hu => ih u (List.mem_cons_of_mem _ hu))
      | _ => exact hleaf _ _ h
  | obj l ih =>
      cases w with
      | obj m =>
          rw [eqBy, Bool.and_eq_true, eqMembers_iff] at h ⊢
          refine ⟨h.1, fun p hp => ?_⟩
          obtain ⟨q, hq, hk, hv⟩ := h.2 p hp
          exact ⟨q, hq, hk, ih p hp hv⟩
      | _ => exact hleaf _ _ h
  | _ => cases w <;> exact hleaf _ _ h

/-- Values of the same types are equal under `==`. -/
theorem pyEq_of_same {v w : Json} (h : same v w = true) : pyEq v w = true := by
  refine eqBy_mono (fun v w h => ?_) h
  cases v <;> cases w <;> simp_all [sameScalar, pyScalar, number?]

/-- Between lists with the same distinct keys in one order, a member is matched by the one
at its position. -/
private theorem members_zip {R : Json → Json → Prop} {l m : List (Text × Json)}
    (hl : (l.map Prod.fst).Nodup) (hkeys : m.map Prod.fst = l.map Prod.fst) :
    (∀ p ∈ l, ∃ q ∈ m, q.1 = p.1 ∧ R p.2 q.2) ↔ List.Forall₂ (fun p q => R p.2 q.2) l m := by
  induction l generalizing m with
  | nil => cases m <;> simp_all
  | cons p l ih =>
      cases m with
      | nil => simp at hkeys
      | cons q m =>
          simp only [List.map_cons, List.nodup_cons, List.cons.injEq] at hl hkeys
          rw [List.forall₂_cons, ← ih hl.2 hkeys.2]
          have hq : ∀ r ∈ l, q.1 ≠ r.1 := fun r hr h =>
            hl.1 (hkeys.1 ▸ h ▸ List.mem_map_of_mem hr)
          have hp : ∀ r ∈ m, r.1 ≠ p.1 := fun r hr h =>
            hl.1 (hkeys.2 ▸ h ▸ List.mem_map_of_mem hr)
          constructor
          · intro h
            obtain ⟨r, hr, hrk, hrs⟩ := h p List.mem_cons_self
            rcases List.mem_cons.mp hr with rfl | hr
            · refine ⟨hrs, fun s hs => ?_⟩
              obtain ⟨t, ht, htk, hts⟩ := h s (List.mem_cons_of_mem _ hs)
              rcases List.mem_cons.mp ht with rfl | ht
              · exact absurd htk (hq s hs)
              · exact ⟨t, ht, htk, hts⟩
            · exact absurd hrk (hp r hr)
          · rintro ⟨hpq, hrest⟩ s hs
            rcases List.mem_cons.mp hs with rfl | hs
            · exact ⟨q, List.mem_cons_self, hkeys.1, hpq⟩
            · obtain ⟨t, ht, htk, hts⟩ := hrest s hs
              exact ⟨t, List.mem_cons_of_mem _ ht, htk, hts⟩

/-- Objects that list the same distinct keys in one order are compared value by value. -/
theorem same_obj_iff {l m : List (Text × Json)} (hl : (l.map Prod.fst).Nodup)
    (hkeys : m.map Prod.fst = l.map Prod.fst) :
    same (.obj l) (.obj m) = true ↔ List.Forall₂ (fun p q => same p.2 q.2 = true) l m := by
  have hlen : l.length = m.length := by simpa using (congrArg List.length hkeys).symm
  have hzip := members_zip (R := fun v w => eqBy sameScalar v w = true) hl hkeys
  rw [same, eqBy, Bool.and_eq_true, eqMembers_iff, ← hzip]
  simp [hlen]

/-! ## Text -/

mutual
/-- The text of a value, members in the order they are listed.  CPython refuses to write an
integer of more than 4300 digits; no decoder lets one in. -/
def render : Json → List Char
  | .null => ['n', 'u', 'l', 'l']
  | .bool true => ['t', 'r', 'u', 'e']
  | .bool false => ['f', 'a', 'l', 's', 'e']
  | .int n => intRepr n
  | .float x => x.repr
  | .str s => s.literal
  | .arr [] => ['[', ']']
  | .arr (v :: l) => '[' :: (render v ++ renderElems l ++ [']'])
  | .obj [] => ['\x7b', '\x7d']
  | .obj ((k, v) :: l) =>
      '\x7b' :: (k.literal ++ ':' :: ' ' :: (render v ++ renderMembers l ++ ['\x7d']))

/-- The elements after the first. -/
def renderElems : List Json → List Char
  | [] => []
  | v :: l => ',' :: ' ' :: (render v ++ renderElems l)

/-- The members after the first. -/
def renderMembers : List (Text × Json) → List Char
  | [] => []
  | (k, v) :: l => ',' :: ' ' :: (k.literal ++ ':' :: ' ' :: (render v ++ renderMembers l))
end

mutual
/-- How deep a value is nested. -/
def depth : Json → ℕ
  | .arr l => depthElems l + 1
  | .obj l => depthMembers l + 1
  | _ => 1

/-- The depth of the deepest element. -/
def depthElems : List Json → ℕ
  | [] => 0
  | v :: l => max (depth v) (depthElems l)

/-- The depth of the deepest member. -/
def depthMembers : List (Text × Json) → ℕ
  | [] => 0
  | (_, v) :: l => max (depth v) (depthMembers l)
end

mutual
/-- Every object's members sorted by key. -/
def sorted : Json → Json
  | .arr l => .arr (sortedElems l)
  | .obj l => .obj ((sortedMembers l).insertionSort fun p q => p.1 ≤ q.1)
  | v => v

/-- Sort below every element. -/
def sortedElems : List Json → List Json
  | [] => []
  | v :: l => sorted v :: sortedElems l

/-- Sort below every member. -/
def sortedMembers : List (Text × Json) → List (Text × Json)
  | [] => []
  | (k, v) :: l => (k, sorted v) :: sortedMembers l
end

/-- The canonical text: `json.dumps(v, sort_keys=True)`. -/
def dumps (v : Json) : List Char := v.sorted.render

/-! ## Well-formedness -/

mutual
/-- What a decoder produces: distinct keys in every object, and no text with a
high surrogate directly before a low one. -/
def wellFormed : Json → Bool
  | .str s => s.wellPaired
  | .arr l => wellFormedElems l
  | .obj l => (l.map Prod.fst).Nodup && wellFormedMembers l
  | _ => true

/-- Every element is well-formed. -/
def wellFormedElems : List Json → Bool
  | [] => true
  | v :: l => wellFormed v && wellFormedElems l

/-- Every key and every value is well-formed. -/
def wellFormedMembers : List (Text × Json) → Bool
  | [] => true
  | (k, v) :: l => k.wellPaired && wellFormed v && wellFormedMembers l
end

theorem sortedElems_eq (l : List Json) : sortedElems l = l.map sorted := by
  induction l with
  | nil => rfl
  | cons v l ih => simp [sortedElems, ih]

theorem sortedMembers_eq (l : List (Text × Json)) :
    sortedMembers l = l.map fun p => (p.1, p.2.sorted) := by
  induction l with
  | nil => rfl
  | cons p l ih => simp [sortedMembers, ih]

theorem wellFormedElems_iff {l : List Json} :
    wellFormedElems l = true ↔ ∀ v ∈ l, v.wellFormed = true := by
  induction l with
  | nil => simp [wellFormedElems]
  | cons v l ih => simp [wellFormedElems, ih]

theorem wellFormedMembers_iff {l : List (Text × Json)} :
    wellFormedMembers l = true ↔
      ∀ p ∈ l, p.1.wellPaired = true ∧ p.2.wellFormed = true := by
  induction l with
  | nil => simp [wellFormedMembers]
  | cons p l ih => simp [wellFormedMembers, ih, and_assoc]

/-! ## The canonical text -/

private theorem sorted_perm (l : List (Text × Json)) :
    ((sortedMembers l).insertionSort fun p q => p.1 ≤ q.1).Perm
      (l.map fun p => (p.1, p.2.sorted)) := by
  rw [sortedMembers_eq]
  exact List.perm_insertionSort _ _

theorem wellFormed_sorted {v : Json} (h : v.wellFormed = true) : v.sorted.wellFormed = true := by
  induction v using Json.induction with
  | arr l ih =>
      rw [wellFormed, wellFormedElems_iff] at h
      rw [sorted, wellFormed, wellFormedElems_iff, sortedElems_eq]
      intro v hv
      obtain ⟨u, hu, rfl⟩ := List.mem_map.mp hv
      exact ih u hu (h u hu)
  | obj l ih =>
      rw [wellFormed, Bool.and_eq_true, wellFormedMembers_iff, decide_eq_true_eq] at h
      rw [sorted, wellFormed, Bool.and_eq_true, wellFormedMembers_iff, decide_eq_true_eq]
      have hp := sorted_perm l
      refine ⟨?_, fun p hpm => ?_⟩
      · rw [(hp.map Prod.fst).nodup_iff, List.map_map]
        exact h.1
      · obtain ⟨q, hq, rfl⟩ := List.mem_map.mp (hp.mem_iff.mp hpm)
        exact ⟨(h.2 q hq).1, ih q hq (h.2 q hq).2⟩
  | _ => simpa [sorted] using h

theorem same_of_sorted_eq {v w : Json} (h : v.sorted = w.sorted) : same v w = true := by
  induction v using Json.induction generalizing w with
  | arr l ih =>
      cases w with
      | arr m =>
          simp only [sorted, Json.arr.injEq, sortedElems_eq] at h
          rw [same, eqBy, eqElems_iff]
          induction l generalizing m with
          | nil =>
              cases m with
              | nil => exact List.Forall₂.nil
              | cons w m => simp at h
          | cons v l ihl =>
              cases m with
              | nil => simp at h
              | cons w m =>
                  simp only [List.map_cons, List.cons.injEq] at h
                  exact List.Forall₂.cons (ih v List.mem_cons_self h.1)
                    (ihl (fun u hu => ih u (List.mem_cons_of_mem _ hu)) m h.2)
      | _ => simp [sorted] at h
  | obj l ih =>
      cases w with
      | obj m =>
          simp only [sorted, Json.obj.injEq] at h
          have hperm := (sorted_perm l).symm.trans (h ▸ sorted_perm m)
          rw [same, eqBy, Bool.and_eq_true, eqMembers_iff, beq_iff_eq]
          refine ⟨by simpa using hperm.length_eq, fun p hp => ?_⟩
          have hmem := hperm.mem_iff.mp (List.mem_map_of_mem hp)
          obtain ⟨q, hq, heq⟩ := List.mem_map.mp hmem
          obtain ⟨hk, hv⟩ := Prod.mk.inj heq
          exact ⟨q, hq, hk, ih p hp hv.symm⟩
      | _ => simp [sorted] at h
  | _ => cases w <;> simp_all [sorted, same, eqBy, sameScalar]

theorem sorted_eq_of_same {v w : Json} (hv : v.wellFormed = true) (hw : w.wellFormed = true)
    (h : same v w = true) : v.sorted = w.sorted := by
  induction v using Json.induction generalizing w with
  | arr l ih =>
      cases w with
      | arr m =>
          rw [same, eqBy, eqElems_iff] at h
          rw [wellFormed, wellFormedElems_iff] at hv hw
          simp only [sorted, sortedElems_eq, Json.arr.injEq]
          induction h with
          | nil => rfl
          | @cons a b l m hab _ ihl =>
              rw [List.map_cons, List.map_cons,
                ih a List.mem_cons_self (hv a List.mem_cons_self) (hw b List.mem_cons_self) hab,
                ihl (fun u hu => ih u (List.mem_cons_of_mem _ hu))
                  (fun u hu => hv u (List.mem_cons_of_mem _ hu))
                  (fun u hu => hw u (List.mem_cons_of_mem _ hu))]
      | _ => simp [same, eqBy, sameScalar] at h
  | obj l ih =>
      cases w with
      | obj m =>
          rw [same, eqBy, Bool.and_eq_true, eqMembers_iff, beq_iff_eq] at h
          rw [wellFormed, Bool.and_eq_true, wellFormedMembers_iff, decide_eq_true_eq] at hv hw
          have hkeys : ∀ n : List (Text × Json),
              (n.map fun p => (p.1, p.2.sorted)).map Prod.fst = n.map Prod.fst := by
            intro n; rw [List.map_map]; rfl
          -- distinct keys make the inclusion of members a permutation
          have hsub : (l.map fun p => (p.1, p.2.sorted)) ⊆ m.map fun p => (p.1, p.2.sorted) := by
            intro x hx
            obtain ⟨p, hp, rfl⟩ := List.mem_map.mp hx
            obtain ⟨q, hq, hk, hs⟩ := h.2 p hp
            refine List.mem_map.mpr ⟨q, hq, ?_⟩
            rw [hk, ih p hp (hv.2 p hp).2 (hw.2 q hq).2 hs]
          have hnd : (l.map fun p => (p.1, p.2.sorted)).Nodup :=
            List.Nodup.of_map Prod.fst (by rw [hkeys]; exact hv.1)
          have hperm := (List.subperm_of_subset hnd hsub).perm_of_length_le (by simp [h.1])
          simp only [sorted, Json.obj.injEq]
          refine List.Perm.eq_of_pairwise (fun a b ha hb hab hba => ?_)
            (List.pairwise_insertionSort _ _) (List.pairwise_insertionSort _ _)
            ((sorted_perm l).trans (hperm.trans (sorted_perm m).symm))
          have hndm : ((m.map fun p => (p.1, p.2.sorted)).map Prod.fst).Nodup := by
            rw [hkeys]; exact hw.1
          exact List.inj_on_of_nodup_map hndm
            (hperm.mem_iff.mp ((sorted_perm l).mem_iff.mp ha)) ((sorted_perm m).mem_iff.mp hb)
            (le_antisymm hab hba)
      | _ => simp [same, eqBy, sameScalar] at h
  | _ => cases w <;> simp_all [same, eqBy, sameScalar]

end Json
end Lib
