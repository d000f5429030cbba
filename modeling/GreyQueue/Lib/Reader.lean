import GreyQueue.Lib.Json

/-!
# Reading JSON

`decode` reads a JSON text: values separated by commas, with whitespace between any two tokens.
In an object the last value of a key wins.  The numbers that are no JSON numbers, which some
decoders accept, are rejected.

A reader takes the text in front of it and returns what it has read and the rest.  `fuel` bounds
the number of values it reads inside each other and after each other; the length of the text
is enough.

## Main results

* `decode_render` — the text of a well-formed value decodes to the value.
* `dumps_eq_iff` — well-formed values have the same canonical text exactly when
  they are the same up to the order of object members at any depth.
-/

namespace Lib.Json

/-- Whitespace between tokens. -/
def isSpace (c : Char) : Bool := c == ' ' || c == '\n' || c == '\r' || c == '\t'

/-- The text without leading whitespace. -/
def skip (l : List Char) : List Char := l.dropWhile isSpace

/-- Give a member its value: in its place if there is one, else at the end. -/
def assign (l : List (Text × Json)) (m : Text × Json) : List (Text × Json) :=
  if l.any fun p => decide (p.1 = m.1) then l.map fun p => if p.1 = m.1 then m else p
  else l ++ [m]

/-- The members of an object, assigned one after the other. -/
def members (l : List (Text × Json)) : List (Text × Json) := l.foldl assign []

/-- Read a name or a number. -/
def readScalar (l : List Char) : Option (Json × List Char) :=
  if l.head? = some 'n' then
    if l.take 4 = ['n', 'u', 'l', 'l'] then some (.null, l.drop 4) else none
  else if l.head? = some 't' then
    if l.take 4 = ['t', 'r', 'u', 'e'] then some (.bool true, l.drop 4) else none
  else if l.head? = some 'f' then
    if l.take 5 = ['f', 'a', 'l', 's', 'e'] then some (.bool false, l.drop 5) else none
  else (readNumber l).map fun p => (p.1.elim .int .float, p.2)

mutual
/-- Read a value. -/
def readValue : ℕ → List Char → Option (Json × List Char)
  | 0, _ => none
  | fuel + 1, l =>
      let l := skip l
      if l.head? = some '"' then (Text.readLiteral l.tail).map fun p => (.str p.1, p.2)
      else if l.head? = some '[' then
        if (skip l.tail).head? = some ']' then some (.arr [], (skip l.tail).tail)
        else (readValue fuel l.tail).bind fun p =>
          (readElems fuel p.2).map fun q => (.arr (p.1 :: q.1), q.2)
      else if l.head? = some '\x7b' then
        if (skip l.tail).head? = some '\x7d' then some (.obj [], (skip l.tail).tail)
        else (readMember fuel l.tail).bind fun p =>
          (readMembers fuel p.2).map fun q => (.obj (members (p.1 :: q.1)), q.2)
      else readScalar l

/-- Read the elements after the first, and the closing bracket. -/
def readElems : ℕ → List Char → Option (List Json × List Char)
  | 0, _ => none
  | fuel + 1, l =>
      let l := skip l
      if l.head? = some ']' then some ([], l.tail)
      else if l.head? = some ',' then
        (readValue fuel l.tail).bind fun p =>
          (readElems fuel p.2).map fun q => (p.1 :: q.1, q.2)
      else none

/-- Read the members after the first, and the closing brace. -/
def readMembers : ℕ → List Char → Option (List (Text × Json) × List Char)
  | 0, _ => none
  | fuel + 1, l =>
      let l := skip l
      if l.head? = some '\x7d' then some ([], l.tail)
      else if l.head? = some ',' then
        (readMember fuel l.tail).bind fun p =>
          (readMembers fuel p.2).map fun q => (p.1 :: q.1, q.2)
      else none

/-- Read a member: a literal, a colon and a value. -/
def readMember : ℕ → List Char → Option ((Text × Json) × List Char)
  | 0, _ => none
  | fuel + 1, l =>
      let l := skip l
      if l.head? = some '"' then
        (Text.readLiteral l.tail).bind fun p =>
          if (skip p.2).head? = some ':' then
            (readValue fuel (skip p.2).tail).map fun q => ((p.1, q.1), q.2)
          else none
      else none
end

/-- Decode a text that holds one value. -/
def decode (l : List Char) : Option Json :=
  (readValue (l.length + 1) l).bind fun p => if skip p.2 = [] then some p.1 else none

/-! ## Texts of values read back -/

theorem skip_eq {l : List Char} (h : ∀ c ∈ l.head?, isSpace c = false) : skip l = l := by
  cases l with
  | nil => rfl
  | cons c l => simp [skip, h c rfl]

@[simp] theorem skip_space (l : List Char) : skip (' ' :: l) = skip l := rfl

private theorem foldl_assign {l : List (Text × Json)} (acc : List (Text × Json))
    (h : ((acc ++ l).map Prod.fst).Nodup) : l.foldl assign acc = acc ++ l := by
  induction l generalizing acc with
  | nil => simp
  | cons m l ih =>
      have hsplit : acc ++ m :: l = (acc ++ [m]) ++ l := by simp
      have hnew : ¬ (acc.any fun p => decide (p.1 = m.1)) = true := by
        rw [List.map_append, List.map_cons, List.nodup_append] at h
        intro hany
        obtain ⟨p, hp, heq⟩ := List.any_eq_true.mp hany
        exact h.2.2 _ (List.mem_map_of_mem hp) _ List.mem_cons_self (of_decide_eq_true heq)
      rw [List.foldl_cons, assign, if_neg hnew, hsplit]
      exact ih _ (hsplit ▸ h)

/-- Members with distinct keys stay as they are. -/
theorem members_eq {l : List (Text × Json)} (h : (l.map Prod.fst).Nodup) : members l = l :=
  foldl_assign [] h

private theorem numeric_of_isSpace {c : Char} (h : isSpace c = true) : numeric c = false := by
  simp only [isSpace, Bool.or_eq_true, beq_iff_eq] at h
  rcases h with ((rfl | rfl) | rfl) | rfl <;> decide

/-- A text that starts like a number is read as one. -/
private theorem readValue_number {l : List Char} (fuel : ℕ)
    (h : ∃ c, l.head? = some c ∧ numeric c = true) :
    readValue (fuel + 1) l = (readNumber l).map fun p => (p.1.elim .int .float, p.2) := by
  obtain ⟨c, hc, hnum⟩ := h
  have hne : ∀ d, numeric d = false → l.head? ≠ some d := by
    rintro d hd heq
    obtain rfl := Option.some.inj (hc.symm.trans heq)
    rw [hnum] at hd
    cases hd
  have hskip : skip l = l := by
    refine skip_eq fun d hd => ?_
    obtain rfl := Option.some.inj (hc.symm.trans hd)
    cases hspace : isSpace c with
    | false => rfl
    | true => exact absurd (hnum.symm.trans (numeric_of_isSpace hspace)) (by decide)
  rw [readValue]
  simp only [hskip]
  rw [if_neg (hne '"' (by decide)), if_neg (hne '[' (by decide)), if_neg (hne '\x7b' (by decide)),
    readScalar, if_neg (hne 'n' (by decide)), if_neg (hne 't' (by decide)),
    if_neg (hne 'f' (by decide))]

/-- The value is read from its text, whatever follows. -/
private def Reads (v : Json) : Prop :=
  ∀ (fuel : ℕ) (r : List Char), v.wellFormed = true → Ends r → v.render.length < fuel →
    readValue fuel (v.render ++ r) = some (v, r)

private theorem ends_cons {c : Char} (h : numeric c = false ∧ c ≠ 'E') (r : List Char) :
    Ends (c :: r) := by
  intro d hd
  obtain rfl := Option.some.inj hd
  exact h

private theorem ends_elems (l : List Json) (r : List Char) : Ends (renderElems l ++ ']' :: r) := by
  cases l with
  | nil => exact ends_cons (by decide) _
  | cons v l => exact ends_cons (by decide) _

private theorem ends_members (l : List (Text × Json)) (r : List Char) :
    Ends (renderMembers l ++ '\x7d' :: r) := by
  cases l with
  | nil => exact ends_cons (by decide) _
  | cons m l => exact ends_cons (by decide) _

/-- A space in front of a text is skipped. -/
private theorem readValue_space (fuel : ℕ) (l : List Char) :
    readValue fuel (' ' :: l) = readValue fuel l := by
  cases fuel with
  | zero => rfl
  | succ fuel => rfl

private theorem readElems_render {l : List Json} (ih : ∀ v ∈ l, Reads v)
    (hl : ∀ v ∈ l, v.wellFormed = true) (fuel : ℕ) (r : List Char)
    (hfuel : (renderElems l).length < fuel) :
    readElems fuel (renderElems l ++ ']' :: r) = some (l, r) := by
  induction l generalizing fuel with
  | nil =>
      cases fuel with
      | zero => omega
      | succ fuel => rfl
  | cons v l ihl =>
      cases fuel with
      | zero => omega
      | succ fuel =>
          simp only [renderElems, List.length_cons, List.length_append] at hfuel
          have hv := ih v List.mem_cons_self fuel (renderElems l ++ ']' :: r)
            (hl v List.mem_cons_self) (ends_elems l r) (by omega)
          have hrest := ihl (fun u hu => ih u (List.mem_cons_of_mem _ hu))
            (fun u hu => hl u (List.mem_cons_of_mem _ hu)) fuel (by omega)
          have hskip : ∀ t, skip (',' :: t) = ',' :: t := fun _ => rfl
          simp [renderElems, readElems, hskip, readValue_space, hv, hrest]

private theorem readMember_render {k : Text} {v : Json} (hk : k.wellPaired = true) (hv : Reads v)
    (hwf : v.wellFormed = true) (fuel : ℕ) {r : List Char} (hr : Ends r)
    (hfuel : (k.literal ++ ':' :: ' ' :: v.render).length < fuel) :
    readMember fuel (k.literal ++ ':' :: ' ' :: (v.render ++ r)) = some ((k, v), r) := by
  cases fuel with
  | zero => omega
  | succ fuel =>
      rw [List.length_append, List.length_cons, List.length_cons] at hfuel
      have hkey := Text.readLiteral_literal hk (':' :: ' ' :: (v.render ++ r))
      have hvalue := hv fuel r hwf hr (by omega)
      have hquote : ∀ t, skip (k.literal ++ t) = k.literal ++ t := fun _ => rfl
      have hcolon : ∀ t, skip (':' :: t) = ':' :: t := fun _ => rfl
      have hhead : ∀ t, (k.literal ++ t).head? = some '"' := fun _ => rfl
      simp [readMember, hquote, hhead, hkey, hcolon, readValue_space, hvalue]

private theorem readMember_space (fuel : ℕ) (l : List Char) :
    readMember fuel (' ' :: l) = readMember fuel l := by
  cases fuel with
  | zero => rfl
  | succ fuel => rfl

private theorem readMembers_render {l : List (Text × Json)} (ih : ∀ p ∈ l, Reads p.2)
    (hl : ∀ p ∈ l, p.1.wellPaired = true ∧ p.2.wellFormed = true) (fuel : ℕ) (r : List Char)
    (hfuel : (renderMembers l).length < fuel) :
    readMembers fuel (renderMembers l ++ '\x7d' :: r) = some (l, r) := by
  induction l generalizing fuel with
  | nil =>
      cases fuel with
      | zero => omega
      | succ fuel => rfl
  | cons p l ihl =>
      obtain ⟨k, v⟩ := p
      cases fuel with
      | zero => omega
      | succ fuel =>
          simp only [renderMembers, List.length_cons, List.length_append] at hfuel
          have hp := hl (k, v) List.mem_cons_self
          have hmember := readMember_render hp.1 (ih (k, v) List.mem_cons_self) hp.2 fuel
            (ends_members l r) (by simp only [List.length_append, List.length_cons]; omega)
          have hrest := ihl (fun q hq => ih q (List.mem_cons_of_mem _ hq))
            (fun q hq => hl q (List.mem_cons_of_mem _ hq)) fuel (by omega)
          have hskip : ∀ t, skip (',' :: t) = ',' :: t := fun _ => rfl
          simp [renderMembers, readMembers, hskip, readMember_space, hmember, hrest]

/-- The first character of a text is no space and closes nothing. -/
private theorem render_head (v : Json) {r : List Char} (hr : Ends r) :
    ∃ c, (v.render ++ r).head? = some c ∧ isSpace c = false ∧ c ≠ ']' := by
  have hnumber : ∀ {n}, readNumber (v.render ++ r) = some (n, r) →
      ∃ c, (v.render ++ r).head? = some c ∧ isSpace c = false ∧ c ≠ ']' := by
    intro n h
    obtain ⟨c, hc, hnum⟩ := head_of_readNumber h
    refine ⟨c, hc, ?_, ?_⟩
    · cases hspace : isSpace c with
      | false => rfl
      | true => exact absurd (hnum.symm.trans (numeric_of_isSpace hspace)) (by decide)
    · rintro rfl
      exact absurd hnum (by decide)
  cases v with
  | int n => exact hnumber (readNumber_intRepr n hr)
  | float x => exact hnumber (readNumber_repr x hr)
  | bool b => cases b <;> exact ⟨_, rfl, by decide, by decide⟩
  | arr l => cases l <;> exact ⟨_, rfl, by decide, by decide⟩
  | obj l => cases l <;> exact ⟨_, rfl, by decide, by decide⟩
  | null => exact ⟨_, rfl, by decide, by decide⟩
  | str s => exact ⟨_, rfl, by decide, by decide⟩

/-- A value is read from its text, whatever follows. -/
private theorem readValue_render (v : Json) : Reads v := by
  induction v using Json.induction with
  | null =>
      intro fuel r _ _ hfuel
      cases fuel with
      | zero => omega
      | succ fuel => rfl
  | bool b =>
      intro fuel r _ _ hfuel
      cases fuel with
      | zero => omega
      | succ fuel => cases b <;> rfl
  | int n =>
      intro fuel r _ hr hfuel
      cases fuel with
      | zero => omega
      | succ fuel =>
          have hread := readNumber_intRepr n hr
          rw [render, readValue_number fuel (head_of_readNumber hread), hread]
          rfl
  | float x =>
      intro fuel r _ hr hfuel
      cases fuel with
      | zero => omega
      | succ fuel =>
          have hread := readNumber_repr x hr
          rw [render, readValue_number fuel (head_of_readNumber hread), hread]
          rfl
  | str s =>
      intro fuel r hwf _ hfuel
      cases fuel with
      | zero => omega
      | succ fuel =>
          have hread := Text.readLiteral_literal (by simpa [wellFormed] using hwf) r
          have hquote : skip (s.literal ++ r) = s.literal ++ r := rfl
          have hhead : (s.literal ++ r).head? = some '"' := rfl
          simp [render, readValue, hquote, hhead, hread]
  | arr l ih =>
      intro fuel r hwf _ hfuel
      rw [wellFormed, wellFormedElems_iff] at hwf
      have hskip : ∀ t, skip ('[' :: t) = '[' :: t := fun _ => rfl
      cases fuel with
      | zero => omega
      | succ fuel =>
          cases l with
          | nil => rfl
          | cons v l =>
              simp only [render, List.length_cons, List.length_append] at hfuel
              have hends := ends_elems l r
              obtain ⟨c, hc, hspace, hclose⟩ := render_head v hends
              have hfirst : skip (v.render ++ (renderElems l ++ ']' :: r)) =
                  v.render ++ (renderElems l ++ ']' :: r) :=
                skip_eq fun d hd => by rwa [← Option.some.inj (hc.symm.trans hd)]
              have hv := ih v List.mem_cons_self fuel _ (hwf v List.mem_cons_self) hends (by omega)
              have hrest := readElems_render (fun u hu => ih u (List.mem_cons_of_mem _ hu))
                (fun u hu => hwf u (List.mem_cons_of_mem _ hu)) fuel r (by omega)
              simp [render, readValue, hskip, hfirst, hc, hclose, hv, hrest]
  | obj l ih =>
      intro fuel r hwf _ hfuel
      rw [wellFormed, Bool.and_eq_true, decide_eq_true_eq, wellFormedMembers_iff] at hwf
      have hskip : ∀ t, skip ('\x7b' :: t) = '\x7b' :: t := fun _ => rfl
      cases fuel with
      | zero => omega
      | succ fuel =>
          cases l with
          | nil => rfl
          | cons p l =>
              obtain ⟨k, v⟩ := p
              simp only [render, List.length_cons, List.length_append] at hfuel
              have hp := hwf.2 (k, v) List.mem_cons_self
              have hquote : ∀ t, skip (k.literal ++ t) = k.literal ++ t := fun _ => rfl
              have hhead : ∀ t, (k.literal ++ t).head? = some '"' := fun _ => rfl
              have hmember := readMember_render hp.1 (ih (k, v) List.mem_cons_self) hp.2 fuel
                (ends_members l r) (by simp only [List.length_append, List.length_cons]; omega)
              have hrest := readMembers_render (fun q hq => ih q (List.mem_cons_of_mem _ hq))
                (fun q hq => hwf.2 q (List.mem_cons_of_mem _ hq)) fuel r (by omega)
              have hkeep := members_eq hwf.1
              simp [render, readValue, hskip, hquote, hhead, hmember, hrest, hkeep]

/-- The text of a well-formed value decodes to the value. -/
theorem decode_render {v : Json} (h : v.wellFormed = true) : decode v.render = some v := by
  have hread := readValue_render v (v.render.length + 1) [] h (by simp [Ends]) (Nat.lt_succ_self _)
  rw [List.append_nil] at hread
  rw [decode, hread]
  rfl

/-- Well-formed values with one text are equal. -/
theorem eq_of_render {v w : Json} (hv : v.wellFormed = true) (hw : w.wellFormed = true)
    (h : v.render = w.render) : v = w :=
  Option.some.inj ((decode_render hv).symm.trans ((congrArg decode h).trans (decode_render hw)))

/-- Well-formed values have one canonical text exactly when they are the same up to
the order of object members. -/
theorem dumps_eq_iff {v w : Json} (hv : v.wellFormed = true) (hw : w.wellFormed = true) :
    v.dumps = w.dumps ↔ same v w = true := by
  constructor
  · intro h
    exact same_of_sorted_eq (eq_of_render (wellFormed_sorted hv) (wellFormed_sorted hw) h)
  · intro h
    rw [dumps, dumps, sorted_eq_of_same hv hw h]

end Lib.Json
