import GreyQueue.Lib.Json
import GreyQueue.Lib.Stamp
import Mathlib.Data.List.Infix

/-!
# Texts without surrogates

A text may hold lone surrogates, but a list of characters cannot, and neither can a text
that is encoded in UTF-8.  This file reads UTF-8 with replacement of what is malformed,
turns texts without surrogates into characters, and bounds the length of JSON texts.

## Main definitions

* `Text.unicode`, `Json.unicode` — no surrogate in the text, or anywhere in the value.
* `Json.distinct` — the keys of every object are distinct.
* `encodeUtf8`, `decodeUtf8`, `decodeReplace` — UTF-8, also with errors replaced.

## Main results

* `Json.wellFormed_of_unicode` — without surrogates, distinct keys make a value well-formed.
* `Text.literal_infix_append` — what starts with a backslash is not found in a plain text.
* `Json.render_obj_length_le` — the length of an object's text by its members.
-/

namespace Lib

namespace Text

/-- No surrogates. -/
def unicode (t : Text) : Bool := t.all fun c => !(isHigh c || isLow c)

/-- The characters of a text without surrogates. -/
def chars (t : Text) : List Char := t.map fun c => Char.ofNat c.val

@[simp] theorem length_chars (t : Text) : t.chars.length = t.length := List.length_map _

theorem ofChars_chars {t : Text} (h : t.unicode = true) : ofChars t.chars = t := by
  rw [ofChars, chars, List.map_map]
  refine (List.map_congr_left fun c hc => ?_).trans (List.map_id t)
  have hs := List.all_eq_true.mp h c hc
  have hlt := c.isLt
  have hvalid : c.val.isValidChar := by
    simp only [isHigh, isLow, Bool.not_eq_true', Bool.or_eq_false_iff, Bool.and_eq_false_iff,
      decide_eq_false_iff_not] at hs
    rw [Nat.isValidChar]
    omega
  have hval : (Char.ofNat c.val).toNat = c.val := by
    rw [Char.ofNat, dif_pos hvalid]
    rfl
  apply Fin.ext
  simp [hval]

theorem wellPaired_of_unicode {t : Text} (h : t.unicode = true) : t.wellPaired = true := by
  rw [← ofChars_chars h]
  exact wellPaired_ofChars _

@[simp] theorem unicode_append (s t : Text) :
    unicode (s ++ t) = (unicode s && unicode t) := List.all_append

/-! ## Literals -/

theorem escape_length_le (u : ℕ) : (escape u).length ≤ 6 := by
  unfold escape hex4
  split_ifs <;> simp

/-- A literal takes at most twelve characters for each code point. -/
theorem literal_length_le (t : Text) : t.literal.length ≤ 12 * t.length + 2 := by
  have hunits : ∀ c : CodePoint, ((units c).flatMap escape).length ≤ 12 := by
    intro c
    unfold units
    split
    · have := escape_length_le c.val
      simp only [List.flatMap_cons, List.flatMap_nil, List.append_nil]
      omega
    · simp only [List.flatMap_cons, List.flatMap_nil, List.append_nil, List.length_append]
      have h₁ := escape_length_le (0xd800 + (c.val - 0x10000) / 0x400)
      have h₂ := escape_length_le (0xdc00 + (c.val - 0x10000) % 0x400)
      omega
  have hbody : ((t.flatMap units).flatMap escape).length ≤ 12 * t.length := by
    induction t with
    | nil => simp
    | cons c t ih =>
        have := hunits c
        simp only [List.flatMap_cons, List.flatMap_append, List.length_append, List.length_cons]
        omega
  simp only [literal, List.length_cons, List.length_append, List.length_nil]
  omega

/-- Characters that stand for themselves in a literal. -/
def plain (t : Text) : Bool := t.all fun c => decide (0x20 ≤ c.val ∧ c.val ≤ 0x7e ∧
  c.val ≠ 0x22 ∧ c.val ≠ 0x5c)

theorem unicode_of_plain {t : Text} (h : t.plain = true) : t.unicode = true := by
  rw [unicode, List.all_eq_true]
  intro c hc
  have hp := List.all_eq_true.mp h c hc
  simp only [decide_eq_true_eq] at hp
  simp only [isHigh, isLow, Bool.not_eq_true', Bool.or_eq_false_iff, Bool.and_eq_false_iff,
    decide_eq_false_iff_not]
  omega

private theorem plain_escape {c : CodePoint}
    (h : 0x20 ≤ c.val ∧ c.val ≤ 0x7e ∧ c.val ≠ 0x22 ∧ c.val ≠ 0x5c) :
    '\\' ∉ (units c).flatMap escape := by
  have hlow : c.val < 0x10000 := by omega
  have hkeep : escape c.val = [Char.ofNat c.val] := by
    unfold escape
    rw [if_neg (by omega), if_neg (by omega), if_neg (by omega), if_neg (by omega),
      if_neg (by omega), if_neg (by omega), if_neg (by omega), if_pos (by omega)]
  simp only [units, hlow, if_true, List.flatMap_cons, List.flatMap_nil, List.append_nil, hkeep,
    List.mem_singleton]
  intro hc
  have hval : (Char.ofNat c.val).toNat = c.val := by
    rw [Char.ofNat, dif_pos (Or.inl (by omega))]
    rfl
  have := congrArg Char.toNat hc
  rw [hval] at this
  exact h.2.2.2 this.symm

/-- What starts with a character that the first part lacks is in the second part. -/
theorem infix_append_iff {α : Type} {c : α} {p l m : List α} (h : c ∉ l) :
    c :: p <:+: l ++ m ↔ c :: p <:+: m := by
  induction l with
  | nil => rfl
  | cons a l ih =>
      have hne : ¬ c :: p <+: a :: (l ++ m) := by
        rintro ⟨r, hr⟩
        simp only [List.cons_append, List.cons.injEq] at hr
        exact h (by simp [hr.1])
      rw [List.cons_append, List.infix_cons_iff, ih fun hc => h (List.mem_cons_of_mem a hc)]
      exact or_iff_right hne

/-- What starts with a backslash is found in the literal of a text behind a plain one exactly
when it is found in the literal of that text. -/
theorem literal_infix_append {s t : Text} {p : List Char} (hs : s.plain = true) :
    '\\' :: p <:+: (s ++ t).literal ↔ '\\' :: p <:+: t.literal := by
  have hbody : '\\' ∉ (s.flatMap units).flatMap escape := by
    rw [List.flatMap_assoc, List.mem_flatMap]
    rintro ⟨c, hc, hmem⟩
    have hp := List.all_eq_true.mp hs c hc
    exact plain_escape (by simpa using hp) hmem
  have hquote : ∀ m : List Char, '\\' :: p <:+: '"' :: m ↔ '\\' :: p <:+: m := fun m =>
    infix_append_iff (l := ['"']) (by decide)
  simp only [literal, hquote, List.flatMap_append, List.append_assoc, infix_append_iff hbody]

end Text

namespace Json

/-! ## Values -/

mutual
/-- Every string and key passes `p`, and the keys of every object pass `q`. -/
def holds (p : Text → Bool) (q : List Text → Bool) : Json → Bool
  | .str s => p s
  | .arr l => holdsElems p q l
  | .obj l => q (l.map Prod.fst) && holdsMembers p q l
  | _ => true

/-- Every element does. -/
def holdsElems (p : Text → Bool) (q : List Text → Bool) : List Json → Bool
  | [] => true
  | v :: l => holds p q v && holdsElems p q l

/-- Every key and every value does. -/
def holdsMembers (p : Text → Bool) (q : List Text → Bool) : List (Text × Json) → Bool
  | [] => true
  | (k, v) :: l => p k && holds p q v && holdsMembers p q l
end

/-- No surrogates in the strings and keys. -/
def unicode (v : Json) : Bool := v.holds Text.unicode fun _ => true

/-- The keys of every object are distinct. -/
def distinct (v : Json) : Bool := v.holds (fun _ => true) fun keys => decide keys.Nodup

theorem holdsElems_iff {p : Text → Bool} {q : List Text → Bool} {l : List Json} :
    holdsElems p q l = true ↔ ∀ v ∈ l, v.holds p q = true := by
  induction l with
  | nil => simp [holdsElems]
  | cons v l ih => simp [holdsElems, ih]

theorem holdsMembers_iff {p : Text → Bool} {q : List Text → Bool} {l : List (Text × Json)} :
    holdsMembers p q l = true ↔ ∀ m ∈ l, p m.1 = true ∧ m.2.holds p q = true := by
  induction l with
  | nil => simp [holdsMembers]
  | cons m l ih => simp [holdsMembers, ih, and_assoc]

theorem wellFormed_of_unicode {v : Json} (hd : v.distinct = true) (hu : v.unicode = true) :
    v.wellFormed = true := by
  induction v using Json.induction with
  | null => rfl
  | bool b => rfl
  | int n => rfl
  | float x => rfl
  | str s => exact Text.wellPaired_of_unicode hu
  | arr l ih =>
      rw [distinct, holds, holdsElems_iff] at hd
      rw [unicode, holds, holdsElems_iff] at hu
      rw [wellFormed, wellFormedElems_iff]
      exact fun v hv => ih v hv (hd v hv) (hu v hv)
  | obj l ih =>
      rw [distinct, holds, Bool.and_eq_true, holdsMembers_iff] at hd
      rw [unicode, holds, Bool.and_eq_true, holdsMembers_iff] at hu
      rw [wellFormed, Bool.and_eq_true, wellFormedMembers_iff]
      refine ⟨hd.1, fun m hm => ⟨?_, ih m hm (hd.2 m hm).2 (hu.2 m hm).2⟩⟩
      exact Text.wellPaired_of_unicode (hu.2 m hm).1

/-- The characters of a member of an object, with its separators. -/
def memberLength (m : Text × Json) : ℕ := m.1.literal.length + m.2.render.length + 4

/-- The length of an object's text by its members. -/
theorem render_obj_length_le (l : List (Text × Json)) :
    (Json.obj l).render.length ≤ (l.map memberLength).sum + 2 := by
  have hrest : ∀ l : List (Text × Json), (renderMembers l).length = (l.map memberLength).sum := by
    intro l
    induction l with
    | nil => rfl
    | cons m l ih =>
        simp only [renderMembers, List.length_cons, List.length_append, ih, List.map_cons,
          List.sum_cons, memberLength]
        omega
  cases l with
  | nil => decide
  | cons m l =>
      have := hrest l
      simp only [render, List.length_cons, List.length_append, List.length_nil, List.map_cons,
        List.sum_cons, memberLength]
      omega

end Json

/-! ## UUIDs -/

theorem length_hexDigits (width n : ℕ) : (hexDigits width n).length = width := by
  induction width generalizing n with
  | zero => rfl
  | succ width ih => simp [hexDigits, ih]

theorem length_uuidText (u : Uuid) : (uuidText u).length = 36 := by
  simp [uuidText, length_hexDigits]

/-! ## UTF-8 -/

/-- `text.encode()`, of a text without surrogates. -/
def encodeUtf8 (l : List Char) : List UInt8 := l.flatMap String.utf8EncodeChar

/-- The code point with the given number. -/
def codePoint (n : ℕ) : CodePoint := ⟨n % 0x110000, Nat.mod_lt n (by decide)⟩

/-- The replacement character. -/
private def replacement : CodePoint := codePoint 0xfffd

/-- A byte in a range. -/
private def inRange (lo hi : ℕ) (b : UInt8) : Bool := decide (lo ≤ b.toNat) && decide (b.toNat ≤ hi)

/-- A continuation byte. -/
private def continues (b : UInt8) : Bool := inRange 0x80 0xbf b

/-- The second bytes that may follow a first byte of a longer sequence: no overlong forms, no
surrogates and nothing beyond the last code point. -/
private def second (a b : UInt8) : Bool :=
  inRange (if a.toNat = 0xe0 then 0xa0 else if a.toNat = 0xf0 then 0x90 else 0x80)
    (if a.toNat = 0xed then 0x9f else if a.toNat = 0xf4 then 0x8f else 0xbf) b

/-- `bytes.decode(errors="replace")`: every maximal part of a malformed sequence becomes one
replacement character. -/
def decodeReplace : List UInt8 → Text
  | [] => []
  | a :: rest =>
    if a.toNat < 0x80 then codePoint a.toNat :: decodeReplace rest
    else if inRange 0xc2 0xdf a then
      match rest with
      | b :: rest' =>
          if continues b then
            codePoint ((a.toNat - 0xc0) * 64 + (b.toNat - 0x80)) :: decodeReplace rest'
          else replacement :: decodeReplace (b :: rest')
      | [] => [replacement]
    else if inRange 0xe0 0xef a then
      match rest with
      | b :: c :: rest' =>
          if second a b then
            if continues c then
              codePoint ((a.toNat - 0xe0) * 4096 + (b.toNat - 0x80) * 64 + (c.toNat - 0x80)) ::
                decodeReplace rest'
            else replacement :: decodeReplace (c :: rest')
          else replacement :: decodeReplace (b :: c :: rest')
      | [b] => if second a b then [replacement] else replacement :: decodeReplace [b]
      | [] => [replacement]
    else if inRange 0xf0 0xf4 a then
      match rest with
      | b :: c :: d :: rest' =>
          if second a b then
            if continues c then
              if continues d then
                codePoint ((a.toNat - 0xf0) * 262144 + (b.toNat - 0x80) * 4096 +
                  (c.toNat - 0x80) * 64 + (d.toNat - 0x80)) :: decodeReplace rest'
              else replacement :: decodeReplace (d :: rest')
            else replacement :: decodeReplace (c :: d :: rest')
          else replacement :: decodeReplace (b :: c :: d :: rest')
      | [b, c] =>
          if second a b then
            if continues c then [replacement] else replacement :: decodeReplace [c]
          else replacement :: decodeReplace [b, c]
      | [b] => if second a b then [replacement] else replacement :: decodeReplace [b]
      | [] => [replacement]
    else replacement :: decodeReplace rest

end Lib
