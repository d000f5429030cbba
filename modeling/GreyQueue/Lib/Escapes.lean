import GreyQueue.Lib.Unicode

/-!
# Escapes in JSON texts

Where the escape `\u0000` occurs in the text of a value.  It is written for a NUL character, but
the same six characters also arise when a string holds a backslash in front of `u0000`: the
backslash is written twice, and the second one is followed by these characters.

## Main definitions

* `Json.texts` — the strings and keys anywhere in a value.
* `Json.HasNul`, `Json.SpellsNul` — a NUL character, or the text of its escape, in one of them.

## Main results

* `Json.infix_render_iff` — what starts with a backslash is found inside one literal.
* `Json.escapedNul_iff` — the escape is found exactly for these two kinds of values.
-/

namespace Lib

/-- What is found in two texts of which the second starts with another character is found in
one of them. -/
theorem infix_append_iff_or {α : Type} {p l r : List α} (hp : p ≠ [])
    (hr : ∀ c ∈ r.head?, c ∉ p) : p <:+: l ++ r ↔ p <:+: l ∨ p <:+: r := by
  refine ⟨fun h => ?_, fun h => h.elim (fun h => h.trans (List.prefix_append l r).isInfix)
    fun h => h.trans (List.suffix_append l r).isInfix⟩
  induction l with
  | nil => exact Or.inr h
  | cons a l ih =>
      rw [List.cons_append, List.infix_cons_iff] at h
      rcases h with h | h
      · left
        rw [← List.cons_append] at h
        rcases List.prefix_or_prefix_of_prefix h (List.prefix_append (a :: l) r) with hpre | hpre
        · exact hpre.isInfix
        · -- the pattern would go on into the second text
          obtain ⟨q, rfl⟩ := hpre
          obtain ⟨s, hs⟩ := h
          rw [List.append_assoc, List.append_cancel_left_eq] at hs
          cases q with
          | nil => simp
          | cons c q =>
              rw [← hs] at hr
              exact absurd (by simp) (hr c rfl)
      · exact (ih h).imp (fun h => List.infix_cons_iff.mpr (Or.inr h)) id

theorem infix_cons_iff_of_ne {α : Type} {c d : α} {p l : List α} (h : c ≠ d) :
    c :: p <:+: d :: l ↔ c :: p <:+: l := by
  rw [List.infix_cons_iff, List.cons_prefix_cons]
  exact or_iff_right fun hcons => h hcons.1

namespace Text

/-! ## Escapes of one text -/

/-- The escape of a NUL character. -/
def nulEscape : List Char := ['\\', 'u', '0', '0', '0', '0']

/-- Code units that stand for themselves in a literal. -/
private def Plain (u : ℕ) : Prop := 0x20 ≤ u ∧ u ≤ 0x7e ∧ u ≠ 0x22 ∧ u ≠ 0x5c

private theorem toNat_char {u : ℕ} (h : u ≤ 0x7e) : (Char.ofNat u).toNat = u := by
  rw [Char.ofNat, dif_pos (Or.inl (by omega))]
  rfl

/-- The three kinds of escapes: the character itself, a backslash before one character, and a
backslash before four digits. -/
private theorem escape_cases (u : ℕ) :
    (Plain u ∧ escape u = [Char.ofNat u]) ∨
    (¬ Plain u ∧ u ≠ 0 ∧ ∃ c, escape u = ['\\', c] ∧ c ≠ 'u' ∧ (c = '\\' ↔ u = 0x5c)) ∨
    (¬ Plain u ∧ u ≠ 0x5c ∧ escape u = '\\' :: 'u' :: hex4 u) := by
  have hpair : ∀ {v : ℕ} {c : Char}, u = v → ¬ Plain v → v ≠ 0 → c ≠ 'u' →
      (c = '\\' ↔ v = 0x5c) → ¬ Plain u ∧ u ≠ 0 ∧
        ∃ d, ['\\', c] = ['\\', d] ∧ d ≠ 'u' ∧ (d = '\\' ↔ u = 0x5c) := by
    rintro v c rfl hplain hzero hu hslash
    exact ⟨hplain, hzero, c, rfl, hu, hslash⟩
  have hnot : ∀ {v : ℕ}, v < 0x20 ∨ v = 0x22 ∨ v = 0x5c → ¬ Plain v :=
    fun h hp => by unfold Plain at hp; omega
  unfold escape
  repeat' split
  case _ h => exact Or.inr (Or.inl (hpair h (hnot (by omega)) (by decide) (by decide) (by decide)))
  case _ h => exact Or.inr (Or.inl (hpair h (hnot (by omega)) (by decide) (by decide) (by decide)))
  case _ h => exact Or.inr (Or.inl (hpair h (hnot (by omega)) (by decide) (by decide) (by decide)))
  case _ h => exact Or.inr (Or.inl (hpair h (hnot (by omega)) (by decide) (by decide) (by decide)))
  case _ h => exact Or.inr (Or.inl (hpair h (hnot (by omega)) (by decide) (by decide) (by decide)))
  case _ h => exact Or.inr (Or.inl (hpair h (hnot (by omega)) (by decide) (by decide) (by decide)))
  case _ h => exact Or.inr (Or.inl (hpair h (hnot (by omega)) (by decide) (by decide) (by decide)))
  case _ h22 h5c _ _ _ _ _ h => exact Or.inl ⟨⟨h.1, h.2, h22, h5c⟩, rfl⟩
  case _ h22 h5c _ _ _ _ _ h => exact Or.inr (Or.inr ⟨fun hp => h ⟨hp.1, hp.2.1⟩, h5c, rfl⟩)

/-- Plain characters are found in front of an escaped text exactly as in the text. -/
private theorem prefix_escapes {us q : List ℕ} (hq : ∀ x ∈ q, Plain x) :
    q.map Char.ofNat <+: us.flatMap escape ↔ q <+: us := by
  induction q generalizing us with
  | nil => simp
  | cons x q ih =>
      have hx := hq x List.mem_cons_self
      have hne : Char.ofNat x ≠ '\\' := by
        intro h
        have hval := congrArg Char.toNat h
        rw [toNat_char hx.2.1] at hval
        exact hx.2.2.2 hval
      cases us with
      | nil => simp
      | cons u us =>
          rw [List.flatMap_cons, List.map_cons, List.cons_prefix_cons]
          rcases escape_cases u with ⟨hu, he⟩ | ⟨hu, -, c, he, -⟩ | ⟨hu, -, he⟩
          · have hchar : Char.ofNat x = Char.ofNat u ↔ x = u := by
              refine ⟨fun h => ?_, fun h => h ▸ rfl⟩
              have hval := congrArg Char.toNat h
              rwa [toNat_char hx.2.1, toNat_char hu.2.1] at hval
            rw [he, List.singleton_append, List.cons_prefix_cons, hchar,
              ih fun y hy => hq y (List.mem_cons_of_mem _ hy)]
          · rw [he, List.cons_append, List.cons_prefix_cons]
            exact iff_of_false (fun h => hne h.1) fun h => hu (h.1 ▸ hx)
          · rw [he, List.cons_append, List.cons_prefix_cons]
            exact iff_of_false (fun h => hne h.1) fun h => hu (h.1 ▸ hx)

private theorem digitChar_zero {n : ℕ} (h : n < 16) : '0' = Nat.digitChar n ↔ n = 0 := by
  interval_cases n <;> decide

private theorem digitChar_ne {n : ℕ} (h : n < 16) : '\\' ≠ Nat.digitChar n := by
  interval_cases n <;> decide

/-- The escape of a NUL character is found where there is one, or behind a backslash. -/
private theorem nulEscape_infix_escapes {us : List ℕ} (hus : ∀ u ∈ us, u < 0x10000) :
    nulEscape <:+: us.flatMap escape ↔
      0 ∈ us ∨ [0x5c, 0x75, 0x30, 0x30, 0x30, 0x30] <:+: us := by
  induction us with
  | nil => simp [nulEscape]
  | cons u us ih =>
      have ih := ih fun v hv => hus v (List.mem_cons_of_mem _ hv)
      have hlt := hus u List.mem_cons_self
      rw [List.flatMap_cons, List.mem_cons]
      rcases escape_cases u with ⟨hu, he⟩ | ⟨hu, hzero, c, he, hc, hslash⟩ | ⟨hu, h5c, he⟩
      · -- the character itself is no backslash and no NUL
        have hne : '\\' ≠ Char.ofNat u := by
          intro h
          have hval := congrArg Char.toNat h
          rw [toNat_char hu.2.1] at hval
          exact hu.2.2.2 hval.symm
        have hzero : 0 ≠ u := fun h => absurd hu.1 (by omega)
        rw [he, List.singleton_append, nulEscape, infix_cons_iff_of_ne hne, ← nulEscape, ih,
          infix_cons_iff_of_ne hu.2.2.2.symm]
        simp [hzero]
      · -- the escape may start at the second of two backslashes only
        have hfirst : ¬ nulEscape <+: '\\' :: c :: us.flatMap escape := by
          rw [nulEscape, List.cons_prefix_cons, List.cons_prefix_cons]
          exact fun h => hc h.2.1.symm
        rw [he, List.cons_append, List.singleton_append, List.infix_cons_iff, or_iff_right hfirst]
        by_cases h5c : u = 0x5c
        · obtain rfl := hslash.mpr h5c
          subst h5c
          have hplain : ∀ x ∈ [0x75, 0x30, 0x30, 0x30, 0x30], Plain x := by
            intro x hx
            simp only [List.mem_cons, List.not_mem_nil, or_false] at hx
            unfold Plain
            omega
          have hspelled : ['u', '0', '0', '0', '0'] <+: us.flatMap escape ↔
            [0x75, 0x30, 0x30, 0x30, 0x30] <+: us := prefix_escapes hplain
          rw [List.infix_cons_iff, ih, List.infix_cons_iff, nulEscape, List.cons_prefix_cons,
            List.cons_prefix_cons, hspelled]
          simp only [true_and]
          rw [or_iff_right (by decide : ¬ 0 = 92), or_left_comm]
        · rw [nulEscape, infix_cons_iff_of_ne fun h => h5c (hslash.mp h.symm), ← nulEscape, ih,
            infix_cons_iff_of_ne (Ne.symm h5c)]
          simp [hzero.symm]
      · -- the four digits are zeros for NUL only
        have hmod : ∀ n : ℕ, n % 16 < 16 := fun n => Nat.mod_lt n (by decide)
        have hrest : '\\' ∉ 'u' :: hex4 u := by simp [hex4, digitChar_ne, hmod]
        have hdigits : ['0', '0', '0', '0'] <+: hex4 u ++ us.flatMap escape ↔ 0 = u := by
          simp only [hex4, List.cons_append, List.cons_prefix_cons, digitChar_zero (hmod _),
            List.nil_prefix, and_true]
          omega
        rw [he, List.cons_append, List.infix_cons_iff, nulEscape, infix_append_iff hrest,
          ← nulEscape, ih, infix_cons_iff_of_ne (Ne.symm h5c), nulEscape, List.cons_append,
          List.cons_prefix_cons, List.cons_prefix_cons, hdigits]
        simp only [true_and]
        exact or_assoc.symm

/-- Basic code points below the surrogates are found in the code units as in the text. -/
private theorem prefix_units {s q : Text} (hq : ∀ c ∈ q, c.val < 0xd800) :
    q.map Fin.val <+: s.flatMap units ↔ q <+: s := by
  induction q generalizing s with
  | nil => simp
  | cons x q ih =>
      have hx := hq x List.mem_cons_self
      cases s with
      | nil => simp
      | cons c s =>
          rw [List.flatMap_cons, List.map_cons, List.cons_prefix_cons]
          by_cases hc : c.val < 0x10000
          · rw [units, if_pos hc, List.singleton_append, List.cons_prefix_cons,
              ih fun y hy => hq y (List.mem_cons_of_mem _ hy), Fin.ext_iff]
          · rw [units, if_neg hc, List.cons_append, List.cons_prefix_cons]
            refine iff_of_false (fun h => by omega) fun h => ?_
            rw [h.1] at hx
            omega

private theorem infix_units {s q : Text} (hne : q ≠ []) (hq : ∀ c ∈ q, c.val < 0xd800) :
    q.map Fin.val <:+: s.flatMap units ↔ q <:+: s := by
  obtain ⟨x, q, rfl⟩ := List.exists_cons_of_ne_nil hne
  have hx := hq x List.mem_cons_self
  induction s with
  | nil => simp
  | cons c s ih =>
      have ih : (x :: q).map Fin.val <:+: s.flatMap units ↔ x :: q <:+: s := ih
      have hprefix : (x :: q).map Fin.val <+: (c :: s).flatMap units ↔ x :: q <+: c :: s :=
        prefix_units hq
      rw [List.flatMap_cons] at hprefix ⊢
      rw [List.infix_cons_iff, ← ih, ← hprefix]
      by_cases hc : c.val < 0x10000
      · rw [units, if_pos hc, List.singleton_append, List.infix_cons_iff]
      · rw [units, if_neg hc, List.cons_append, List.cons_append, List.nil_append, List.map_cons,
          infix_cons_iff_of_ne (by omega), infix_cons_iff_of_ne (by omega), List.cons_prefix_cons]
        exact (or_iff_right fun h => by omega).symm

private theorem zero_mem_units {s : Text} : 0 ∈ s.flatMap units ↔ 0 ∈ s.map Fin.val := by
  rw [List.mem_flatMap, List.mem_map]
  constructor
  · rintro ⟨c, hc, hzero⟩
    refine ⟨c, hc, ?_⟩
    unfold units at hzero
    split at hzero
    · exact (List.mem_singleton.mp hzero).symm
    · simp only [List.mem_cons, List.not_mem_nil, or_false] at hzero
      omega
  · rintro ⟨c, hc, hzero⟩
    exact ⟨c, hc, by simp [units, hzero]⟩

/-- The characters of the escape, as a text of its own. -/
def nulSpelling : Text := .ofChars nulEscape

/-- The escape of a NUL character is found in the literal of a text that has one, or that spells
the escape. -/
theorem nulEscape_infix_literal (s : Text) :
    nulEscape <:+: s.literal ↔ 0 ∈ s.map Fin.val ∨ nulSpelling <:+: s := by
  have hunits : ∀ u ∈ s.flatMap units, u < 0x10000 := by
    intro u hu
    obtain ⟨c, -, hc⟩ := List.mem_flatMap.mp hu
    exact units_lt hc
  have hlow : ∀ c ∈ nulSpelling, c.val < 0xd800 := by
    intro c hc
    obtain ⟨d, hd, rfl⟩ := List.mem_map.mp hc
    simp only [nulEscape, List.mem_cons, List.not_mem_nil, or_false] at hd
    rcases hd with rfl | rfl | rfl | rfl | rfl | rfl <;> decide
  have hspelling : nulSpelling.map Fin.val <:+: s.flatMap units ↔ nulSpelling <:+: s :=
    infix_units (by simp [nulSpelling, ofChars, nulEscape]) hlow
  have hmap : nulSpelling.map Fin.val = [0x5c, 0x75, 0x30, 0x30, 0x30, 0x30] := rfl
  have hquote : ¬ nulEscape <:+: ['"'] := by decide
  have hhead : ∀ c ∈ ['"'].head?, c ∉ nulEscape := by simp [nulEscape]
  rw [literal, nulEscape, infix_cons_iff_of_ne (by decide), ← nulEscape,
    infix_append_iff_or (by decide) hhead, or_iff_left hquote,
    nulEscape_infix_escapes hunits, zero_mem_units, ← hspelling, hmap]

end Text

namespace Json

/-! ## Escapes in a value -/

mutual
/-- The strings and keys anywhere in a value. -/
def texts : Json → List Text
  | .str s => [s]
  | .arr l => textsElems l
  | .obj l => textsMembers l
  | _ => []

/-- The strings and keys in the elements. -/
def textsElems : List Json → List Text
  | [] => []
  | v :: l => texts v ++ textsElems l

/-- The keys, and the strings and keys in their values. -/
def textsMembers : List (Text × Json) → List Text
  | [] => []
  | (k, v) :: l => k :: texts v ++ textsMembers l
end

/-- The characters between the tokens of a JSON text. -/
def punctuation : List Char := ['"', ',', ':', ' ', '[', ']', '\x7b', '\x7d']

section Infix

variable {p : List Char} (hp : ∀ c ∈ p, c ∉ punctuation)

include hp

private theorem infix_separator {c : Char} (hc : c ∈ punctuation) {l r : List Char} :
    '\\' :: p <:+: l ++ c :: r ↔ '\\' :: p <:+: l ∨ '\\' :: p <:+: r := by
  have hne : '\\' ≠ c := by
    rintro rfl
    exact absurd hc (by decide)
  have hhead : ∀ d ∈ (c :: r).head?, d ∉ '\\' :: p := by
    intro d hd hmem
    obtain rfl := Option.some.inj hd
    exact (List.mem_cons.mp hmem).elim (fun h => hne h.symm) fun h => hp _ h hc
  rw [infix_append_iff_or (by simp) hhead, infix_cons_iff_of_ne hne]

omit hp in
private theorem absent_of_not_mem {l : List Char} (h : '\\' ∉ l) : ¬ '\\' :: p <:+: l :=
  fun hin => h (hin.subset List.mem_cons_self)

omit hp in
private theorem absent_of_numeric {l : List Char} (h : ∀ c ∈ l, numeric c = true) :
    ¬ '\\' :: p <:+: l :=
  absent_of_not_mem fun hmem => absurd (h _ hmem) (by decide)

/-- A text before one that starts with a comma. -/
private theorem infix_comma {l r : List Char} (hr : ∀ c ∈ r.head?, c = ',') :
    '\\' :: p <:+: l ++ r ↔ '\\' :: p <:+: l ∨ '\\' :: p <:+: r := by
  cases r with
  | nil => simp
  | cons c r =>
      obtain rfl := hr c rfl
      rw [infix_separator hp (by decide), infix_cons_iff_of_ne (by decide)]

omit hp in
private theorem head_elems (l : List Json) : ∀ c ∈ (renderElems l).head?, c = ',' := by
  intro c hc
  cases l with
  | nil => cases hc
  | cons v l => exact (Option.some.inj hc).symm

omit hp in
private theorem head_members (l : List (Text × Json)) :
    ∀ c ∈ (renderMembers l).head?, c = ',' := by
  intro c hc
  cases l with
  | nil => cases hc
  | cons m l => exact (Option.some.inj hc).symm

private theorem infix_elems {l : List Json}
    (ih : ∀ v ∈ l, ('\\' :: p <:+: v.render ↔ ∃ s ∈ v.texts, '\\' :: p <:+: s.literal)) :
    '\\' :: p <:+: renderElems l ↔ ∃ s ∈ textsElems l, '\\' :: p <:+: s.literal := by
  induction l with
  | nil => simp [renderElems, textsElems]
  | cons v l ihl =>
      rw [renderElems, infix_cons_iff_of_ne (by decide), infix_cons_iff_of_ne (by decide),
        infix_comma hp (head_elems l), ih v List.mem_cons_self,
        ihl fun u hu => ih u (List.mem_cons_of_mem _ hu)]
      simp only [textsElems, List.mem_append, or_and_right, exists_or]

private theorem infix_member {k : Text} {v : Json} {r : List Char} (hr : ∀ c ∈ r.head?, c = ',')
    (ih : '\\' :: p <:+: v.render ↔ ∃ s ∈ v.texts, '\\' :: p <:+: s.literal) :
    '\\' :: p <:+: k.literal ++ ':' :: ' ' :: (v.render ++ r) ↔
      (∃ s ∈ k :: v.texts, '\\' :: p <:+: s.literal) ∨ '\\' :: p <:+: r := by
  rw [infix_separator hp (by decide), infix_cons_iff_of_ne (by decide), infix_comma hp hr, ih,
    ← or_assoc]
  simp only [List.mem_cons, or_and_right, exists_or, exists_eq_left]

private theorem infix_members {l : List (Text × Json)}
    (ih : ∀ m ∈ l, ('\\' :: p <:+: m.2.render ↔ ∃ s ∈ m.2.texts, '\\' :: p <:+: s.literal)) :
    '\\' :: p <:+: renderMembers l ↔ ∃ s ∈ textsMembers l, '\\' :: p <:+: s.literal := by
  induction l with
  | nil => simp [renderMembers, textsMembers]
  | cons m l ihl =>
      obtain ⟨k, v⟩ := m
      rw [renderMembers, infix_cons_iff_of_ne (by decide), infix_cons_iff_of_ne (by decide),
        infix_member hp (head_members l) (ih (k, v) List.mem_cons_self),
        ihl fun u hu => ih u (List.mem_cons_of_mem _ hu)]
      simp only [textsMembers, List.cons_append, List.mem_cons, List.mem_append, or_and_right,
        exists_or, or_assoc]

/-- What starts with a backslash and has no punctuation is found in the text of a value exactly
when it is found in one of its literals. -/
theorem infix_render_iff (v : Json) :
    '\\' :: p <:+: v.render ↔ ∃ s ∈ v.texts, '\\' :: p <:+: s.literal := by
  induction v using Json.induction with
  | null => exact iff_of_false (absent_of_not_mem (by decide)) (by simp [texts])
  | bool b => cases b <;> exact iff_of_false (absent_of_not_mem (by decide)) (by simp [texts])
  | int n =>
      exact iff_of_false (absent_of_numeric fun c hc => numeric_intRepr hc) (by simp [texts])
  | float x =>
      exact iff_of_false (absent_of_numeric fun c hc => numeric_floatRepr hc) (by simp [texts])
  | str s => simp [render, texts]
  | arr l ih =>
      cases l with
      | nil => exact iff_of_false (absent_of_not_mem (by decide)) (by simp [texts, textsElems])
      | cons v l =>
          have helems := infix_elems hp ih
          rw [renderElems, infix_cons_iff_of_ne (by decide), infix_cons_iff_of_ne (by decide)]
            at helems
          rw [render, infix_cons_iff_of_ne (by decide), infix_separator hp (by decide), helems,
            texts]
          exact or_iff_left (absent_of_not_mem (by simp))
  | obj l ih =>
      cases l with
      | nil => exact iff_of_false (absent_of_not_mem (by decide)) (by simp [texts, textsMembers])
      | cons m l =>
          obtain ⟨k, v⟩ := m
          have hmembers := infix_members hp ih
          rw [renderMembers, infix_cons_iff_of_ne (by decide), infix_cons_iff_of_ne (by decide)]
            at hmembers
          have hassoc : k.literal ++ ':' :: ' ' :: (v.render ++ renderMembers l ++ ['\x7d']) =
              (k.literal ++ ':' :: ' ' :: (v.render ++ renderMembers l)) ++ ['\x7d'] := by simp
          rw [render, infix_cons_iff_of_ne (by decide), hassoc, infix_separator hp (by decide),
            hmembers, texts]
          exact or_iff_left (absent_of_not_mem (by simp))

end Infix

/-- Some string or key has a NUL character. -/
def HasNul (v : Json) : Prop := ∃ s ∈ v.texts, 0 ∈ s.map Fin.val

/-- Some string or key has a backslash in front of `u0000`. -/
def SpellsNul (v : Json) : Prop := ∃ s ∈ v.texts, Text.nulSpelling <:+: s

instance HasNul.decidable : DecidablePred HasNul := fun v =>
  inferInstanceAs (Decidable (∃ s ∈ v.texts, 0 ∈ s.map Fin.val))
instance SpellsNul.decidable : DecidablePred SpellsNul := fun v =>
  inferInstanceAs (Decidable (∃ s ∈ v.texts, Text.nulSpelling <:+: s))

/-- The escape of a NUL character is found in the text of a value exactly when the value has a
NUL character or spells its escape. -/
theorem escapedNul_iff (v : Json) :
    Text.nulEscape <:+: v.render ↔ v.HasNul ∨ v.SpellsNul := by
  rw [Text.nulEscape, infix_render_iff (by simp [punctuation]), ← Text.nulEscape]
  simp only [Text.nulEscape_infix_literal, and_or_left, exists_or, HasNul, SpellsNul]

end Json

end Lib
