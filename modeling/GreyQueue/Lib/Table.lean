import Mathlib.Data.List.Nodup
import Mathlib.Data.List.Count
import Mathlib.Algebra.BigOperators.Group.List.Basic
import Mathlib.Algebra.GroupWithZero.Nat

/-!
# Tables with a primary key

A table is the list of its rows in insertion order, sealed together with the
proof that no two rows share a primary key.  Reading is `find?`, an `UPDATE` by
primary key is `put`, and an `INSERT` is `insert?`, which refuses a key that is
already present.  Key uniqueness is a field, so no later invariant has to carry
it.

## Main definitions

* `Keyed ρ κ` — rows of type `ρ` have a primary key in `κ`.
* `Table ρ` — rows with pairwise distinct keys.
* `Table.find?`, `Table.put`, `Table.insert?`, `Table.add` — read, update, insert.
* `Table.map` — other columns under the same keys.
-/

namespace Lib

/-- Rows that carry a primary key. -/
class Keyed (ρ : Type) (κ : outParam Type) where
  /-- The primary key of a row. -/
  key : ρ → κ

open Keyed

/-- The rows of a table in insertion order, with pairwise distinct keys. -/
structure Table (ρ : Type) {κ : Type} [Keyed ρ κ] where
  rows : List ρ
  nodup : (rows.map key).Nodup

namespace Table

variable {ρ κ : Type} [Keyed ρ κ]

/-- The table without rows. -/
def empty : Table ρ := ⟨[], List.nodup_nil⟩

@[simp] theorem rows_empty : (empty : Table ρ).rows = [] := rfl

@[ext] theorem ext {t u : Table ρ} (h : t.rows = u.rows) : t = u := by
  cases t; cases u
  congr

/-- Two rows of one table with one key are the same row. -/
theorem eq_of_key {t : Table ρ} {r s : ρ} (hr : r ∈ t.rows) (hs : s ∈ t.rows)
    (h : key r = key s) : r = s :=
  List.inj_on_of_nodup_map t.nodup hr hs h

/-! ## Other columns -/

section Map

variable {σ : Type} [Keyed σ κ]

/-- The table with every row rewritten to one with the same key. -/
def map (f : ρ → σ) (hf : ∀ r, key (f r) = key r) (t : Table ρ) : Table σ :=
  ⟨t.rows.map f, by
    have hkeys : key ∘ f = (key : ρ → κ) := funext hf
    rw [List.map_map, hkeys]
    exact t.nodup⟩

@[simp] theorem rows_map (f : ρ → σ) (hf : ∀ r, key (f r) = key r) (t : Table ρ) :
    (t.map f hf).rows = t.rows.map f := rfl

end Map

variable [DecidableEq κ]

/-- The row with the given primary key. -/
def find? (t : Table ρ) (k : κ) : Option ρ := t.rows.find? fun r => decide (key r = k)

theorem find?_eq_some {t : Table ρ} {k : κ} {r : ρ} :
    t.find? k = some r ↔ r ∈ t.rows ∧ key r = k := by
  constructor
  · intro h
    refine ⟨List.mem_of_find?_eq_some h, ?_⟩
    simpa using List.find?_some h
  · rintro ⟨hr, hk⟩
    cases hf : t.find? k with
    | none =>
        have := List.find?_eq_none.mp hf r hr
        simp [hk] at this
    | some s =>
        have hs : s ∈ t.rows := List.mem_of_find?_eq_some hf
        have hks : key s = k := by simpa using List.find?_some hf
        rw [eq_of_key hs hr (hks.trans hk.symm)]

theorem find?_eq_none {t : Table ρ} {k : κ} :
    t.find? k = none ↔ ∀ r ∈ t.rows, key r ≠ k := by
  simp [find?, List.find?_eq_none]

theorem key_of_find? {t : Table ρ} {k : κ} {r : ρ} (h : t.find? k = some r) : key r = k :=
  (find?_eq_some.mp h).2

theorem mem_of_find? {t : Table ρ} {k : κ} {r : ρ} (h : t.find? k = some r) : r ∈ t.rows :=
  (find?_eq_some.mp h).1

theorem find?_of_mem {t : Table ρ} {r : ρ} (h : r ∈ t.rows) : t.find? (key r) = some r :=
  find?_eq_some.mpr ⟨h, rfl⟩

/-- A row is found under every key of the table. -/
theorem exists_find?_iff {t : Table ρ} {k : κ} :
    (∃ r, t.find? k = some r) ↔ k ∈ t.rows.map key := by
  simp only [find?_eq_some, List.mem_map]

/-- The rows are what is found under the keys. -/
theorem rows_eq_filterMap (t : Table ρ) : t.rows = (t.rows.map key).filterMap t.find? := by
  rw [List.filterMap_map]
  have hsome : ∀ r ∈ t.rows, (t.find? ∘ key) r = some r := fun r hr => find?_of_mem hr
  rw [List.filterMap_congr hsome, List.filterMap_some]

/-- Tables with the same keys in the same order are equal if they find the same rows. -/
theorem ext_find? {t u : Table ρ} (hkeys : t.rows.map key = u.rows.map key)
    (h : ∀ k, t.find? k = u.find? k) : t = u := by
  refine ext ?_
  rw [t.rows_eq_filterMap, u.rows_eq_filterMap, hkeys, funext h]

/-- The rows of a table with the keys of another one, found row by row. -/
theorem rows_eq_map_find? {t u : Table ρ} (h : u.rows.map key = t.rows.map key) :
    u.rows = t.rows.map fun r => (u.find? (key r)).getD r := by
  have hsome : ∀ r ∈ t.rows, (u.find? ∘ key) r = some ((u.find? (key r)).getD r) := by
    intro r hr
    obtain ⟨s, hs⟩ := exists_find?_iff.mpr (h ▸ List.mem_map_of_mem (f := key) hr)
    simp [hs]
  rw [← List.filterMap_eq_map', ← List.filterMap_congr hsome, ← List.filterMap_map, ← h]
  exact u.rows_eq_filterMap

@[simp] theorem find?_empty (k : κ) : (empty : Table ρ).find? k = none := rfl

/-! ## Update -/

/-- Replacing by key leaves the column of keys as it is. -/
private theorem map_key_replace (l : List ρ) (r : ρ) :
    (l.map fun x => if key x = key r then r else x).map key = l.map key := by
  rw [List.map_map]
  refine List.map_congr_left fun x _ => ?_
  simp only [Function.comp]
  split
  · rename_i h; exact h.symm
  · rfl

/-- Overwrite the row with the key of `r`; a table without such a row is unchanged. -/
def put (t : Table ρ) (r : ρ) : Table ρ :=
  ⟨t.rows.map fun x => if key x = key r then r else x, by
    rw [map_key_replace]; exact t.nodup⟩

theorem rows_put (t : Table ρ) (r : ρ) :
    (t.put r).rows = t.rows.map fun x => if key x = key r then r else x := rfl

@[simp] theorem keys_put (t : Table ρ) (r : ρ) :
    (t.put r).rows.map key = t.rows.map key := map_key_replace t.rows r

theorem mem_put {t : Table ρ} {r x : ρ} :
    x ∈ (t.put r).rows ↔
      (x ∈ t.rows ∧ key x ≠ key r) ∨ (x = r ∧ ∃ y ∈ t.rows, key y = key r) := by
  rw [rows_put, List.mem_map]
  constructor
  · rintro ⟨y, hy, rfl⟩
    split
    · rename_i h; exact Or.inr ⟨rfl, y, hy, h⟩
    · rename_i h; exact Or.inl ⟨hy, h⟩
  · rintro (⟨hx, hk⟩ | ⟨rfl, y, hy, hk⟩)
    · exact ⟨x, hx, if_neg hk⟩
    · exact ⟨y, hy, if_pos hk⟩

theorem find?_put_self {t : Table ρ} {r x : ρ} (h : t.find? (key r) = some x) :
    (t.put r).find? (key r) = some r := by
  rw [find?_eq_some, mem_put]
  exact ⟨Or.inr ⟨rfl, x, mem_of_find? h, key_of_find? h⟩, rfl⟩

theorem find?_put_ne (t : Table ρ) {r : ρ} {k : κ} (h : key r ≠ k) :
    (t.put r).find? k = t.find? k := by
  cases hf : t.find? k with
  | none =>
      rw [find?_eq_none] at hf ⊢
      intro x hx
      rcases mem_put.mp hx with ⟨hx, _⟩ | ⟨rfl, _⟩
      · exact hf x hx
      · exact h
  | some x =>
      rw [find?_eq_some] at hf ⊢
      exact ⟨mem_put.mpr (Or.inl ⟨hf.1, by rw [hf.2]; exact h.symm⟩), hf.2⟩

/-- The row found after an update: the new version, or an untouched row. -/
theorem find?_put_eq_some {t : Table ρ} {r x : ρ} {k : κ} (h : (t.put r).find? k = some x) :
    (key r = k ∧ x = r) ∨ (key r ≠ k ∧ t.find? k = some x) := by
  by_cases hk : key r = k
  · obtain ⟨hx, hxk⟩ := find?_eq_some.mp h
    rcases mem_put.mp hx with ⟨_, hne⟩ | ⟨rfl, _⟩
    · exact absurd (hxk.trans hk.symm) hne
    · exact Or.inl ⟨hk, rfl⟩
  · exact Or.inr ⟨hk, find?_put_ne t hk ▸ h⟩

/-- Overwriting a row loses no key. -/
theorem exists_find?_put {t : Table ρ} (r : ρ) {k : κ} (h : ∃ x, t.find? k = some x) :
    ∃ x, (t.put r).find? k = some x := by
  rw [exists_find?_iff] at h ⊢
  rw [keys_put]
  exact h

/-- Writing a row back changes nothing. -/
theorem put_self {t : Table ρ} {r : ρ} (h : t.find? (key r) = some r) : t.put r = t := by
  apply ext
  rw [rows_put]
  refine (List.map_congr_left fun x hx => ?_).trans (List.map_id _)
  split
  · exact (eq_of_key hx (mem_of_find? h) ‹_›).symm
  · rfl

/-- Only the last of two updates of one row is seen. -/
theorem put_put (t : Table ρ) {r s : ρ} (h : key r = key s) : (t.put r).put s = t.put s := by
  apply ext
  rw [rows_put, rows_put, rows_put, List.map_map]
  refine List.map_congr_left fun x _ => ?_
  simp only [Function.comp, h]
  by_cases hx : key x = key s
  · simp [hx, h]
  · simp [hx]

/-! ## Insert -/

/-- Append a row; `none` when its key is taken. -/
def insert? (t : Table ρ) (r : ρ) : Option (Table ρ) :=
  if h : key r ∈ t.rows.map key then none
  else some ⟨t.rows ++ [r], by
    rw [List.map_append, List.map_singleton]
    exact t.nodup.append (List.nodup_singleton _) (by simpa using h)⟩

theorem insert?_eq_some {t u : Table ρ} {r : ρ} :
    t.insert? r = some u ↔ t.find? (key r) = none ∧ u.rows = t.rows ++ [r] := by
  rw [find?_eq_none]
  unfold insert?
  split
  · rename_i h
    obtain ⟨x, hx, hk⟩ := List.mem_map.mp h
    simp only [reduceCtorEq, false_iff, not_and]
    exact fun hall => absurd hk (hall x hx)
  · rename_i h
    have hall : ∀ x ∈ t.rows, key x ≠ key r := fun x hx hk => h (hk ▸ List.mem_map_of_mem hx)
    simp only [Option.some.injEq]
    constructor
    · rintro rfl; exact ⟨hall, rfl⟩
    · rintro ⟨_, hu⟩; exact ext hu.symm

theorem insert?_isSome {t : Table ρ} {r : ρ} (h : t.find? (key r) = none) :
    ∃ u, t.insert? r = some u := by
  unfold insert?
  split
  · rename_i hm
    obtain ⟨x, hx, hk⟩ := List.mem_map.mp hm
    exact absurd hk (find?_eq_none.mp h x hx)
  · exact ⟨_, rfl⟩

/-- Append a row whose key is free; a taken key leaves the table as it is. -/
def add (t : Table ρ) (r : ρ) : Table ρ := (t.insert? r).getD t

/-- An insert that succeeds is `add`. -/
theorem eq_add_of_insert? {t u : Table ρ} {r : ρ} (h : t.insert? r = some u) : u = t.add r := by
  rw [add, h, Option.getD_some]

theorem rows_add {t : Table ρ} {r : ρ} (h : t.find? (key r) = none) :
    (t.add r).rows = t.rows ++ [r] := by
  obtain ⟨u, hu⟩ := insert?_isSome h
  rw [← eq_add_of_insert? hu, (insert?_eq_some.mp hu).2]

theorem mem_add {t : Table ρ} {r x : ρ} (h : t.find? (key r) = none) :
    x ∈ (t.add r).rows ↔ x ∈ t.rows ∨ x = r := by
  rw [rows_add h]; simp

theorem find?_add_self {t : Table ρ} {r : ρ} (h : t.find? (key r) = none) :
    (t.add r).find? (key r) = some r :=
  find?_of_mem ((mem_add h).mpr (Or.inr rfl))

theorem find?_add_ne (t : Table ρ) {r : ρ} {k : κ} (hk : key r ≠ k) :
    (t.add r).find? k = t.find? k := by
  unfold add
  cases hu : t.insert? r with
  | none => rfl
  | some u => simp [find?, (insert?_eq_some.mp hu).2, List.find?_append, hk]

/-- The row found after an insert: the new row, or one that was there. -/
theorem find?_add_eq_some {t : Table ρ} {r x : ρ} {k : κ} (hr : t.find? (key r) = none)
    (h : (t.add r).find? k = some x) : (key r = k ∧ x = r) ∨ t.find? k = some x := by
  by_cases hk : key r = k
  · subst hk
    rw [find?_add_self hr, Option.some.injEq] at h
    exact Or.inl ⟨rfl, h.symm⟩
  · exact Or.inr (find?_add_ne t hk ▸ h)

/-! ## Counting -/

/-- An update moves a count by what it says of the row; another predicate may count
afterwards, if it agrees on the other rows. -/
theorem countP_put {t : Table ρ} {r s : ρ} (p q : ρ → Bool) (hrow : t.find? (key r) = some r)
    (hk : key s = key r) (hpq : ∀ x ∈ t.rows, key x ≠ key r → q x = p x) :
    (t.put s).rows.countP q + (if p r then 1 else 0) = t.rows.countP p + if q s then 1 else 0 := by
  obtain ⟨l, l', hl⟩ := List.append_of_mem (mem_of_find? hrow)
  have hnodup := t.nodup
  rw [hl, List.map_append, List.map_cons, List.nodup_append, List.nodup_cons] at hnodup
  -- the rows on both sides have other keys
  have hside : ∀ x ∈ l ++ l', x ∈ t.rows ∧ key x ≠ key r := by
    intro x hx
    rcases List.mem_append.mp hx with hx | hx
    · refine ⟨by rw [hl]; exact List.mem_append_left _ hx, ?_⟩
      exact hnodup.2.2 _ (List.mem_map_of_mem hx) _ List.mem_cons_self
    · refine ⟨by rw [hl]; exact List.mem_append_right _ (List.mem_cons_of_mem _ hx), ?_⟩
      exact fun h => hnodup.2.1.1 (h ▸ List.mem_map_of_mem hx)
  have hsame : ∀ m : List ρ, (∀ x ∈ m, x ∈ t.rows ∧ key x ≠ key r) →
      (m.map fun x => if key x = key s then s else x).countP q = m.countP p := by
    intro m hm
    rw [List.countP_map]
    refine List.countP_congr fun x hx => ?_
    obtain ⟨hxt, hxk⟩ := hm x hx
    simp [hk, hxk, hpq x hxt hxk]
  rw [rows_put, hl, List.map_append, List.map_cons, if_pos hk.symm, List.countP_append,
    List.countP_append, List.countP_cons, List.countP_cons,
    hsame l fun x hx => hside x (List.mem_append_left _ hx),
    hsame l' fun x hx => hside x (List.mem_append_right _ hx)]
  omega

/-- An update that does not newly satisfy `p` adds no row to the count. -/
theorem countP_put_le {t : Table ρ} {r s : ρ} (p : ρ → Bool) (hrow : t.find? (key r) = some r)
    (hk : key s = key r) (hp : p s = true → p r = true) :
    (t.put s).rows.countP p ≤ t.rows.countP p := by
  rw [rows_put, List.countP_map]
  refine List.countP_mono_left fun x hx => ?_
  simp only [Function.comp]
  split
  · rename_i hxs
    rw [eq_of_key hx (mem_of_find? hrow) (hxs.trans hk)]
    exact hp
  · exact id

theorem countP_add {t : Table ρ} {r : ρ} (p : ρ → Bool) (h : t.find? (key r) = none) :
    (t.add r).rows.countP p = t.rows.countP p + if p r then 1 else 0 := by
  rw [rows_add h, List.countP_append, List.countP_singleton]

/-- Entries that refer to rows of a table are counted row by row. -/
theorem countP_groups {α : Type} (t : Table ρ) (f : α → κ) (p : α → Bool) {l : List α}
    (hl : ∀ x ∈ l, ∃ r, t.find? (f x) = some r) :
    l.countP p = (t.rows.map fun r => (l.filter fun x => decide (f x = key r)).countP p).sum := by
  induction l with
  | nil => simp
  | cons x l ih =>
      obtain ⟨r, hr⟩ := hl x List.mem_cons_self
      -- the new entry counts in the group of its own row only
      have hone : (t.rows.map fun s => if f x = key s then (if p x then 1 else 0) else 0).sum =
          if p x then 1 else 0 := by
        have hcount : (t.rows.map key).count (f x) = 1 := by
          refine List.count_eq_one_of_mem t.nodup ?_
          rw [← key_of_find? hr]
          exact List.mem_map_of_mem (mem_of_find? hr)
        have hsum := List.sum_map_eq_nsmul_single (l := t.rows.map key) (f x)
          (fun k => if f x = k then (if p x then 1 else 0) else 0)
          fun k hk _ => if_neg (Ne.symm hk)
        rw [hcount, List.map_map] at hsum
        simpa [Function.comp_def] using hsum
      have hsplit : (t.rows.map fun s => ((x :: l).filter fun y => decide (f y = key s)).countP p) =
          t.rows.map fun s => (l.filter fun y => decide (f y = key s)).countP p +
            if f x = key s then (if p x then 1 else 0) else 0 := by
        refine List.map_congr_left fun s _ => ?_
        by_cases hk : f x = key s <;> simp [hk, List.countP_cons]
      rw [hsplit, List.sum_map_add, ← ih fun y hy => hl y (List.mem_cons_of_mem x hy), hone,
        List.countP_cons]

/-! ## Reading other columns -/

theorem find?_map {σ : Type} [Keyed σ κ] (f : ρ → σ) (hf : ∀ r, key (f r) = key r)
    {t : Table ρ} {k : κ} {r : ρ} (h : t.find? k = some r) : (t.map f hf).find? k = some (f r) := by
  obtain ⟨hr, hk⟩ := find?_eq_some.mp h
  exact find?_eq_some.mpr ⟨List.mem_map_of_mem hr, (hf r).trans hk⟩

/-! ## Evolution -/

/-- Every row is still there, in a version related by `R`. -/
def Evolves (R : ρ → ρ → Prop) (t u : Table ρ) : Prop :=
  ∀ k x, t.find? k = some x → ∃ y, u.find? k = some y ∧ R x y

variable {R : ρ → ρ → Prop} {t u v : Table ρ}

theorem Evolves.refl (hR : ∀ x, R x x) (t : Table ρ) : Evolves R t t :=
  fun _ x h => ⟨x, h, hR x⟩

theorem Evolves.trans (hR : ∀ {x y z}, R x y → R y z → R x z) (h : Evolves R t u)
    (h' : Evolves R u v) : Evolves R t v := by
  intro k x hx
  obtain ⟨y, hy, hxy⟩ := h k x hx
  obtain ⟨z, hz, hyz⟩ := h' k y hy
  exact ⟨z, hz, hR hxy hyz⟩

theorem Evolves.put (hR : ∀ x, R x x) {r s : ρ} (hrow : t.find? (key r) = some r)
    (hk : key s = key r) (hrs : R r s) : Evolves R t (t.put s) := by
  intro k x hx
  by_cases hks : key s = k
  · subst hks
    rw [hk, hrow, Option.some.injEq] at hx
    exact ⟨s, find?_put_self (hk ▸ hrow), hx ▸ hrs⟩
  · exact ⟨x, (find?_put_ne t hks).trans hx, hR x⟩

theorem Evolves.add (hR : ∀ x, R x x) {r : ρ} (hr : t.find? (key r) = none) :
    Evolves R t (t.add r) := by
  intro k x hx
  refine ⟨x, (find?_add_ne t ?_).trans hx, hR x⟩
  rintro rfl
  rw [hr] at hx
  simp at hx

/-- Rows that satisfy what is never lost: those that did before, and those that did not. -/
theorem Evolves.countP_eq (h : Evolves R t u) {p : ρ → Bool}
    (hp : ∀ x y, R x y → p x = true → p y = true) : u.rows.countP p =
      t.rows.countP p + u.rows.countP fun y => p y && !((t.find? (key y)).any p) := by
  have hsplit : ∀ l : List ρ, l.countP p =
      (l.countP fun y => p y && (t.find? (key y)).any p) +
        l.countP fun y => p y && !((t.find? (key y)).any p) := by
    intro l
    induction l with
    | nil => rfl
    | cons y l ih =>
        simp only [List.countP_cons, ih]
        cases p y <;> cases (t.find? (key y)).any p <;> simp <;> omega
  -- the rows that did before are counted by their keys
  have hkeys : ((u.rows.filter fun y => p y && (t.find? (key y)).any p).map key).Perm
      ((t.rows.filter p).map key) := by
    refine (List.perm_ext_iff_of_nodup (u.nodup.sublist (List.filter_sublist.map key))
      (t.nodup.sublist (List.filter_sublist.map key))).mpr fun k => ?_
    simp only [List.mem_map, List.mem_filter, Bool.and_eq_true, Option.any_eq_true]
    constructor
    · rintro ⟨y, ⟨-, -, x, hx, hpx⟩, rfl⟩
      exact ⟨x, ⟨mem_of_find? hx, hpx⟩, key_of_find? hx⟩
    · rintro ⟨x, ⟨hx, hpx⟩, rfl⟩
      have hfind := find?_of_mem hx
      obtain ⟨y, hy, hxy⟩ := h (key x) x hfind
      have hkey := key_of_find? hy
      exact ⟨y, ⟨mem_of_find? hy, hp x y hxy hpx, x, by rw [hkey]; exact hfind, hpx⟩, hkey⟩
  have hcount := hkeys.length_eq
  rw [List.length_map, List.length_map, ← List.countP_eq_length_filter,
    ← List.countP_eq_length_filter] at hcount
  rw [hsplit, hcount]

/-- Every row of `u` comes from a row of `t` under its key, related by `R`. -/
def Derives (R : ρ → ρ → Prop) (t u : Table ρ) : Prop :=
  ∀ k y, u.find? k = some y → ∃ x, t.find? k = some x ∧ R x y

theorem Derives.refl (hR : ∀ x, R x x) (t : Table ρ) : Derives R t t := fun _ y h => ⟨y, h, hR y⟩

/-- A row that is replaced by one that its own origin is related to. -/
theorem Derives.put (h : Derives R t u) {r s : ρ} (hrow : u.find? (key r) = some r)
    (hk : key s = key r) (hrs : ∀ x, R x r → R x s) : Derives R t (u.put s) := by
  intro k y hy
  rcases find?_put_eq_some hy with ⟨rfl, rfl⟩ | ⟨-, hy⟩
  · obtain ⟨x, hx, hxr⟩ := h (key r) r hrow
    exact ⟨x, hk ▸ hx, hrs x hxr⟩
  · exact h k y hy

end Table
end Lib
