import GreyQueue.Lib.Decimal
import Mathlib.Data.List.Lex
import Mathlib.Tactic.IntervalCases

/-!
# Text and its ASCII JSON string literal

A text is a list of code points, surrogates included.  Its ASCII literal escapes
quotes, backslashes and everything outside the printable range; a code point above
the basic plane is written as its UTF-16 surrogate pair.

That pair is also how two lone surrogates in a row are written, so the literal
determines the text only when no high surrogate is directly followed by a low one.
A decoder that joins surrogate pairs produces only such texts.

## Main results

* `readLiteral_literal` — the literal of a well-paired text reads back, whatever follows it.
-/

namespace Lib

/-- A Unicode code point, surrogates included. -/
abbrev CodePoint := Fin 0x110000

/-- A string, as its code points. -/
abbrev Text := List CodePoint

/-- The code points of a list of characters. -/
def Text.ofChars (l : List Char) : Text := l.map fun c => Fin.ofNat 0x110000 c.toNat

/-- The code points of a string. -/
def Text.ofString (s : String) : Text := .ofChars s.toList

namespace Text

/-! ## UTF-16 -/

/-- The UTF-16 code units of a code point. -/
def units (c : CodePoint) : List ℕ :=
  if c.val < 0x10000 then [c.val]
  else [0xd800 + (c.val - 0x10000) / 0x400, 0xdc00 + (c.val - 0x10000) % 0x400]

/-- A high surrogate. -/
def isHigh (c : CodePoint) : Bool := 0xd800 ≤ c.val && c.val < 0xdc00

/-- A low surrogate. -/
def isLow (c : CodePoint) : Bool := 0xdc00 ≤ c.val && c.val < 0xe000

/-- No high surrogate is directly followed by a low one. -/
def wellPaired : Text → Bool
  | a :: b :: rest => !(isHigh a && isLow b) && wellPaired (b :: rest)
  | _ => true

theorem wellPaired_tail {c : CodePoint} {s : Text} (h : wellPaired (c :: s) = true) :
    wellPaired s = true := by
  cases s with
  | nil => rfl
  | cons d s =>
      simp only [wellPaired, Bool.and_eq_true] at h
      exact h.2

theorem units_lt {c : CodePoint} {u : ℕ} (h : u ∈ units c) : u < 0x10000 := by
  have := c.isLt
  unfold units at h
  split at h <;> simp at h <;> omega

/-- Code units as code points; a high surrogate directly before a low one is half of a pair. -/
def joinUnits : List ℕ → Text
  | [] => []
  | [u] => [Fin.ofNat _ u]
  | u :: v :: us =>
      if (0xd800 ≤ u ∧ u < 0xdc00) ∧ 0xdc00 ≤ v ∧ v < 0xe000 then
        Fin.ofNat _ (0x10000 + 0x400 * (u - 0xd800) + (v - 0xdc00)) :: joinUnits us
      else Fin.ofNat _ u :: joinUnits (v :: us)

private theorem ofNat_val (c : CodePoint) : Fin.ofNat 0x110000 c.val = c :=
  Fin.ext (Nat.mod_eq_of_lt c.isLt)

/-- The code units of a well-paired text are joined to the text. -/
theorem joinUnits_units {s : Text} (h : wellPaired s = true) : joinUnits (s.flatMap units) = s := by
  induction s with
  | nil => rfl
  | cons c s ih =>
      have hs := ih (wellPaired_tail h)
      have hlt := c.isLt
      rw [List.flatMap_cons]
      by_cases hc : c.val < 0x10000
      · rw [units, if_pos hc, List.singleton_append]
        cases s with
        | nil => exact congrArg (fun d => [d]) (ofNat_val c)
        | cons d s =>
            -- the first unit of the next code point is no low surrogate after a high one
            obtain ⟨v, us, hunits, hlow⟩ : ∃ v us, (d :: s).flatMap units = v :: us ∧
                (0xdc00 ≤ v ∧ v < 0xe000 → isLow d = true) := by
              by_cases hd : d.val < 0x10000
              · refine ⟨d.val, s.flatMap units, by simp [units, hd], fun hv => ?_⟩
                simp only [isLow, Bool.and_eq_true, decide_eq_true_eq]
                exact hv
              · have := d.isLt
                refine ⟨0xd800 + (d.val - 0x10000) / 0x400,
                  (0xdc00 + (d.val - 0x10000) % 0x400) :: s.flatMap units, by simp [units, hd],
                  fun hv => ?_⟩
                omega
            have hsplit : ¬ ((0xd800 ≤ c.val ∧ c.val < 0xdc00) ∧ 0xdc00 ≤ v ∧ v < 0xe000) := by
              rintro ⟨hhigh, hv⟩
              have hhigh' : isHigh c = true := by
                simp only [isHigh, Bool.and_eq_true, decide_eq_true_eq]
                exact hhigh
              simp [wellPaired, hhigh', hlow hv] at h
            rw [hunits, joinUnits, if_neg hsplit, ← hunits, hs, ofNat_val]
      · rw [units, if_neg hc, List.cons_append, List.cons_append, List.nil_append, joinUnits,
          if_pos (by omega), hs]
        have hvalue : 0x10000 + 0x400 * (0xd800 + (c.val - 0x10000) / 0x400 - 0xd800) +
            (0xdc00 + (c.val - 0x10000) % 0x400 - 0xdc00) = c.val := by omega
        rw [hvalue, ofNat_val]

/-! ## Escapes -/

/-- Four hexadecimal digits of a code unit. -/
def hex4 (u : ℕ) : List Char :=
  [Nat.digitChar (u / 4096 % 16), Nat.digitChar (u / 256 % 16), Nat.digitChar (u / 16 % 16),
    Nat.digitChar (u % 16)]

/-- The ASCII form of one code unit inside a string literal. -/
def escape (u : ℕ) : List Char :=
  if u = 0x22 then ['\\', '"']
  else if u = 0x5c then ['\\', '\\']
  else if u = 0x0a then ['\\', 'n']
  else if u = 0x0d then ['\\', 'r']
  else if u = 0x09 then ['\\', 't']
  else if u = 0x0c then ['\\', 'f']
  else if u = 0x08 then ['\\', 'b']
  else if 0x20 ≤ u ∧ u ≤ 0x7e then [Char.ofNat u]
  else '\\' :: 'u' :: hex4 u

/-- The string literal of a text. -/
def literal (s : Text) : List Char := '"' :: ((s.flatMap units).flatMap escape ++ ['"'])

/-! ## Reading -/

/-- The value of a hexadecimal digit. -/
def hexValue? (c : Char) : Option ℕ :=
  if c.isDigit then some (c.toNat - 48)
  else if 'a' ≤ c ∧ c ≤ 'f' then some (c.toNat - 87)
  else if 'A' ≤ c ∧ c ≤ 'F' then some (c.toNat - 55)
  else none

/-- What a backslash before a character other than `u` stands for. -/
def simpleEscape? (c : Char) : Option ℕ :=
  match c with
  | '"' => some 0x22
  | '\\' => some 0x5c
  | '/' => some 0x2f
  | 'n' => some 0x0a
  | 'r' => some 0x0d
  | 't' => some 0x09
  | 'f' => some 0x0c
  | 'b' => some 0x08
  | _ => none

/-- The code unit that a backslash and the text after it stand for, and the rest. -/
def readEscape : List Char → Option (ℕ × List Char)
  | 'u' :: a :: b :: c :: d :: r => do
      let a ← hexValue? a
      let b ← hexValue? b
      let c ← hexValue? c
      let d ← hexValue? d
      some (4096 * a + 256 * b + 16 * c + d, r)
  | c :: r => (simpleEscape? c).map fun u => (u, r)
  | [] => none

/-- The code units of the escape or the character in front of a text, and the rest; control
characters are not allowed. -/
def readUnit : List Char → Option (List ℕ × List Char)
  | [] => none
  | c :: r =>
      if c = '\\' then (readEscape r).map fun p => ([p.1], p.2)
      else if c.toNat < 0x20 then none
      else some (units (Fin.ofNat _ c.toNat), r)

/-- The code units up to a quote, and what follows it; `fuel` bounds their number. -/
def readUnits : ℕ → List Char → Option (List ℕ × List Char)
  | 0, _ => none
  | fuel + 1, l =>
      if l.head? = some '"' then some ([], l.tail)
      else do
        let (u, r) ← readUnit l
        let (us, r) ← readUnits fuel r
        some (u ++ us, r)

/-- The rest of a string literal after its first quote, and what follows it. -/
def readLiteral (l : List Char) : Option (Text × List Char) :=
  (readUnits l.length l).map fun p => (joinUnits p.1, p.2)

private theorem hexValue?_digitChar {n : ℕ} (h : n < 16) :
    hexValue? (Nat.digitChar n) = some n := by
  interval_cases n <;> decide

private theorem toNat_ofNat {u : ℕ} (h : u ≤ 0x7e) : (Char.ofNat u).toNat = u := by
  have hv : u.isValidChar := Or.inl (by omega)
  rw [Char.ofNat, dif_pos hv]
  rfl

private theorem ofNat_ne {u : ℕ} {c : Char} (h : u ≤ 0x7e) (hc : u ≠ c.toNat) :
    Char.ofNat u ≠ c := by
  rintro rfl
  exact hc (toNat_ofNat h).symm

/-- An escape reads back. -/
theorem readUnit_escape {u : ℕ} (hu : u < 0x10000) (rest : List Char) :
    readUnit (escape u ++ rest) = some ([u], rest) := by
  unfold escape
  repeat' split
  case _ h => subst h; rfl
  case _ h => subst h; rfl
  case _ h => subst h; rfl
  case _ h => subst h; rfl
  case _ h => subst h; rfl
  case _ h => subst h; rfl
  case _ h => subst h; rfl
  case _ h22 h5c _ _ _ _ _ h =>
      have hne : Char.ofNat u ≠ '\\' := ofNat_ne h.2 h5c
      have hvalue := toNat_ofNat h.2
      have hmod : u % 0x110000 = u := Nat.mod_eq_of_lt (by omega)
      rw [List.singleton_append, readUnit, if_neg hne, hvalue, if_neg (by omega), units, if_pos]
      · simp [hmod]
      · simp [hmod, hu]
  case _ =>
      have hdigit : ∀ n, hexValue? (Nat.digitChar (n % 16)) = some (n % 16) :=
        fun n => hexValue?_digitChar (Nat.mod_lt _ (by decide))
      have hvalue : 4096 * (u / 4096 % 16) + 256 * (u / 256 % 16) + 16 * (u / 16 % 16) + u % 16 =
          u := by omega
      rw [hex4, List.cons_append, readUnit, if_pos rfl]
      simp [readEscape, hdigit, hvalue]

private theorem escape_head (u : ℕ) : (escape u).head? ≠ some '"' ∧ escape u ≠ [] := by
  have hplain : 0x20 ≤ u ∧ u ≤ 0x7e → ¬ u = 0x22 → Char.ofNat u ≠ '"' :=
    fun h hne => ofNat_ne h.2 hne
  unfold escape
  repeat' split
  all_goals first
    | exact ⟨fun hhead => hplain ‹_› ‹_› (Option.some.inj hhead), by simp⟩
    | exact ⟨by simp, by simp⟩

private theorem length_le_escape (us : List ℕ) : us.length ≤ (us.flatMap escape).length := by
  induction us with
  | nil => exact Nat.le_refl 0
  | cons u us ih =>
      have hpos := List.length_pos_of_ne_nil (escape_head u).2
      rw [List.flatMap_cons, List.length_append, List.length_cons]
      omega

theorem readUnits_escape {us : List ℕ} (hus : ∀ u ∈ us, u < 0x10000) (rest : List Char) :
    ∀ fuel, us.length < fuel →
      readUnits fuel (us.flatMap escape ++ '"' :: rest) = some (us, rest) := by
  induction us with
  | nil =>
      intro fuel hfuel
      cases fuel with
      | zero => omega
      | succ fuel => rfl
  | cons u us ih =>
      intro fuel hfuel
      cases fuel with
      | zero => omega
      | succ fuel =>
          obtain ⟨hquote, hne⟩ := escape_head u
          have hrest := ih (fun v hv => hus v (List.mem_cons_of_mem _ hv)) fuel
            (by simpa using hfuel)
          rw [List.flatMap_cons, List.append_assoc, readUnits, List.head?_append_of_ne_nil _ hne,
            if_neg hquote, readUnit_escape (hus u List.mem_cons_self)]
          simp [hrest]

/-- The literal of a well-paired text reads back. -/
theorem readLiteral_literal {s : Text} (h : wellPaired s = true) (rest : List Char) :
    readLiteral ((literal s ++ rest).tail) = some (s, rest) := by
  have hunits : ∀ u ∈ s.flatMap units, u < 0x10000 := by
    intro u hu
    obtain ⟨c, -, hc⟩ := List.mem_flatMap.mp hu
    exact units_lt hc
  have htail : (literal s ++ rest).tail = (s.flatMap units).flatMap escape ++ '"' :: rest := by
    simp [literal]
  have hfuel : (s.flatMap units).length <
      ((s.flatMap units).flatMap escape ++ '"' :: rest).length := by
    have hle := length_le_escape (s.flatMap units)
    rw [List.length_append, List.length_cons]
    omega
  rw [htail, readLiteral, readUnits_escape hunits rest _ hfuel, Option.map_some, joinUnits_units h]

end Text
end Lib
