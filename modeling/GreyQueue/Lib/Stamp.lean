import GreyQueue.Lib.Text

/-!
# Texts of timestamps and UUIDs

An aware datetime is a wall-clock reading, counted in microseconds from the start
of year 1 of the proleptic Gregorian calendar, with its offset from UTC.
Converting it to UTC subtracts the offset and fails when the result leaves the
range of years 1 to 9999.  `isoformat` prints a UTC reading.

## Main results

* `civil_injective` — a day has one date.
* `isoformat_injective` — a text has one instant.
* `uuidText_injective` — a text has one UUID.
-/

namespace Lib

/-! ## Dates -/

/-- Days before the first of each month in a year that is or is not leap. -/
def daysBeforeMonth (leap : Bool) (month : ℕ) : ℕ :=
  [0, 0, 31, 59, 90, 120, 151, 181, 212, 243, 273, 304, 334].getD month 0 +
    if leap && 2 < month then 1 else 0

/-- Month and day of the month of a day of the year, counted from zero. -/
def monthDay (leap : Bool) (yday : ℕ) : ℕ × ℕ :=
  let month := (yday + 50) / 32
  let month := if daysBeforeMonth leap month ≤ yday then month else month - 1
  (month, yday - daysBeforeMonth leap month + 1)

/-- Year, month and day of a day counted from 1 January of year 1. -/
def civil (n : ℕ) : ℕ × ℕ × ℕ :=
  let n400 := n / 146097
  let r400 := n % 146097
  let n100 := r400 / 36524
  let r100 := r400 % 36524
  let n4 := r100 / 1461
  let r4 := r100 % 1461
  let n1 := r4 / 365
  let yday := r4 % 365
  let year := n400 * 400 + n100 * 100 + n4 * 4 + n1 + 1
  if n1 = 4 ∨ n100 = 4 then (year - 1, 12, 31)
  else (year, monthDay (n1 = 3 ∧ (n4 ≠ 24 ∨ n100 = 3)) yday)

/-- Days before 1 January of a year. -/
def daysBeforeYear (year : ℕ) : ℕ :=
  (year - 1) * 365 + (year - 1) / 4 - (year - 1) / 100 + (year - 1) / 400

/-- Leap years. -/
def isLeap (year : ℕ) : Bool := year % 4 = 0 ∧ (year % 100 ≠ 0 ∨ year % 400 = 0)

private theorem monthDay_spec (leap : Bool) (yday : ℕ) (h : yday < 365) :
    daysBeforeMonth leap (monthDay leap yday).1 + (monthDay leap yday).2 = yday + 1 := by
  have key : ∀ leap : Bool, ∀ yday : Fin 365,
      daysBeforeMonth leap (monthDay leap yday.val).1 + (monthDay leap yday.val).2 =
        yday.val + 1 := by decide +kernel
  exact key leap ⟨yday, h⟩

private theorem daysBeforeYear_eq {a b c d : ℕ} (hb : b < 4) (hc : c < 25) (hd : d < 4) :
    daysBeforeYear (a * 400 + b * 100 + c * 4 + d + 1) =
      146097 * a + 36524 * b + 1461 * c + 365 * d := by
  have h4 : (a * 400 + b * 100 + c * 4 + d) / 4 = a * 100 + b * 25 + c := by omega
  have h100 : (a * 400 + b * 100 + c * 4 + d) / 100 = a * 4 + b := by omega
  have h400 : (a * 400 + b * 100 + c * 4 + d) / 400 = a := by omega
  simp only [daysBeforeYear, Nat.add_sub_cancel, h4, h100, h400]
  omega

/-- The day is recovered from its date. -/
private theorem ordinal_civil (n : ℕ) :
    daysBeforeYear (civil n).1 + daysBeforeMonth (isLeap (civil n).1) (civil n).2.1 +
      (civil n).2.2 = n + 1 := by
  simp only [civil]
  generalize h400 : n / 146097 = a
  generalize hr400 : n % 146097 = r400
  generalize h100 : r400 / 36524 = b
  generalize hr100 : r400 % 36524 = r100
  generalize h4 : r100 / 1461 = c
  generalize hr4 : r100 % 1461 = r4
  generalize h1 : r4 / 365 = d
  generalize hyd : r4 % 365 = yday
  -- 31 December of a leap year is the day after 365 full days
  have hlast : ∀ b' c', b' < 4 → c' < 25 → (c' ≠ 24 ∨ b' = 3) →
      daysBeforeYear (a * 400 + b' * 100 + c' * 4 + 3 + 1) +
        daysBeforeMonth (isLeap (a * 400 + b' * 100 + c' * 4 + 3 + 1)) 12 + 31 =
        146097 * a + 36524 * b' + 1461 * c' + 1461 := by
    intro b' c' hb' hc' hor
    have hl : isLeap (a * 400 + b' * 100 + c' * 4 + 3 + 1) = true := by
      simp only [isLeap, decide_eq_true_eq]; omega
    rw [hl, daysBeforeYear_eq hb' hc' (by omega)]
    simp only [daysBeforeMonth]
    simp
  split
  · rename_i h
    by_cases hb : b = 4
    · have hy : a * 400 + b * 100 + c * 4 + d + 1 - 1 = a * 400 + 3 * 100 + 24 * 4 + 3 + 1 := by
        omega
      simp only [hy]
      rw [hlast 3 24 (by omega) (by omega) (by omega)]
      omega
    · have hd : d = 4 := h.resolve_right hb
      have hy : a * 400 + b * 100 + c * 4 + d + 1 - 1 = a * 400 + b * 100 + c * 4 + 3 + 1 := by
        omega
      simp only [hy]
      rw [hlast b c (by omega) (by omega) (by omega)]
      omega
  · rename_i h
    have hl : isLeap (a * 400 + b * 100 + c * 4 + d + 1) =
        decide (d = 3 ∧ (c ≠ 24 ∨ b = 3)) := by
      simp only [isLeap, decide_eq_decide]; omega
    have hm := monthDay_spec (decide (d = 3 ∧ (c ≠ 24 ∨ b = 3))) yday (by omega)
    simp only [hl]
    rw [daysBeforeYear_eq (by omega) (by omega) (by omega), Nat.add_assoc, hm]
    omega

/-- A day has one date. -/
theorem civil_injective : Function.Injective civil := by
  intro m n h
  have hm := ordinal_civil m
  rw [h, ordinal_civil n] at hm
  omega

/-! ## Datetimes -/

/-- Microseconds in a day. -/
def dayMicros : ℕ := 86400000000

/-- Microseconds from the start of year 1 to the end of year 9999. -/
def maxMicros : ℕ := 3652059 * dayMicros

/-- An aware datetime: its wall clock and its offset from UTC, in microseconds. -/
structure Datetime where
  micros : ℕ
  offset : ℤ
  micros_lt : micros < maxMicros
  offset_lt : offset.natAbs < dayMicros

/-- The instant a datetime denotes, in microseconds of UTC. -/
def Datetime.instant (d : Datetime) : ℤ := d.micros - d.offset

/-- The wall clock in UTC; `none` when it leaves the range of years 1 to 9999. -/
def Datetime.astimezoneUtc (d : Datetime) : Option ℕ :=
  if 0 ≤ d.instant ∧ d.instant < maxMicros then some d.instant.toNat else none

/-- The text of a UTC wall clock. -/
def isoformat (micros : ℕ) : List Char :=
  let date := civil (micros / dayMicros)
  let second := micros % dayMicros / 1000000
  let us := micros % 1000000
  padded 4 date.1 ++ '-' :: (padded 2 date.2.1 ++ '-' :: (padded 2 date.2.2 ++ 'T' ::
    (padded 2 (second / 3600) ++ ':' :: (padded 2 (second / 60 % 60) ++ ':' ::
      (padded 2 (second % 60) ++
        ((if us = 0 then [] else '.' :: padded 6 us) ++ ['+', '0', '0', ':', '0', '0']))))))

private theorem cut_padded {w m n : ℕ} {a b : Char} {r r' : List Char}
    (ha : a.isDigit = false) (hb : b.isDigit = false)
    (h : padded w m ++ a :: r = padded w n ++ b :: r') : m = n ∧ a = b ∧ r = r' := by
  obtain ⟨h1, h2, h3⟩ := cut_unique (p := fun c => c.isDigit = true)
    (fun c hc => isDigit_padded hc) (fun c hc => isDigit_padded hc) (by simp [ha]) (by simp [hb]) h
  exact ⟨padded_injective w h1, h2, h3⟩

/-- A text has one instant. -/
theorem isoformat_injective : Function.Injective isoformat := by
  intro m n h
  simp only [isoformat] at h
  obtain ⟨hy, -, h⟩ := cut_padded (by decide) (by decide) h
  obtain ⟨hmo, -, h⟩ := cut_padded (by decide) (by decide) h
  obtain ⟨hd, -, h⟩ := cut_padded (by decide) (by decide) h
  obtain ⟨hh, -, h⟩ := cut_padded (by decide) (by decide) h
  obtain ⟨hmi, -, h⟩ := cut_padded (by decide) (by decide) h
  have hrest : m % dayMicros / 1000000 % 60 = n % dayMicros / 1000000 % 60 ∧
      m % 1000000 = n % 1000000 := by
    split at h <;> split at h
    · rename_i h1 h2
      obtain ⟨hs, -, -⟩ := cut_padded (by decide) (by decide) h
      exact ⟨hs, h1.trans h2.symm⟩
    · obtain ⟨-, hc, -⟩ := cut_padded (by decide) (by decide) h
      exact absurd hc (by decide)
    · obtain ⟨-, hc, -⟩ := cut_padded (by decide) (by decide) h
      exact absurd hc (by decide)
    · obtain ⟨hs, -, h⟩ := cut_padded (by decide) (by decide) h
      obtain ⟨hu, -, -⟩ := cut_padded (by decide) (by decide) h
      exact ⟨hs, hu⟩
  have hday : m / dayMicros = n / dayMicros :=
    civil_injective (Prod.ext hy (Prod.ext hmo hd))
  simp only [dayMicros] at *
  omega

/-! ## UUIDs -/

/-- A UUID, as its 128-bit value. -/
abbrev Uuid := Fin (2 ^ 128)

instance Uuid.neZero : NeZero (2 ^ 128 : ℕ) := ⟨by norm_num⟩

/-- The last `width` hexadecimal digits of a number. -/
def hexDigits : ℕ → ℕ → List Char
  | 0, _ => []
  | width + 1, n => hexDigits width (n / 16) ++ [Nat.digitChar (n % 16)]

private theorem digitChar_injective {m n : ℕ} (hm : m < 16) (hn : n < 16)
    (h : Nat.digitChar m = Nat.digitChar n) : m = n := by
  have key : ∀ m n : Fin 16, Nat.digitChar m.val = Nat.digitChar n.val → m = n := by decide
  simpa using key ⟨m, hm⟩ ⟨n, hn⟩ h

private theorem hexDigits_inj {width m n : ℕ} (hm : m < 16 ^ width) (hn : n < 16 ^ width)
    (h : hexDigits width m = hexDigits width n) : m = n := by
  induction width generalizing m n with
  | zero => simp at hm hn; omega
  | succ width ih =>
      obtain ⟨h1, h2⟩ := List.append_inj' h rfl
      have hlast := digitChar_injective (Nat.mod_lt m (by decide)) (Nat.mod_lt n (by decide))
        (List.cons.inj h2).1
      have hinit := ih (m := m / 16) (n := n / 16) (by rw [pow_succ] at hm; omega)
        (by rw [pow_succ] at hn; omega) h1
      omega

private theorem hexDigits_ne_dash {width n : ℕ} {c : Char} (h : c ∈ hexDigits width n) :
    c ≠ '-' := by
  induction width generalizing n with
  | zero => simp [hexDigits] at h
  | succ width ih =>
      rcases List.mem_append.mp h with h | h
      · exact ih h
      · have key : ∀ k : Fin 16, Nat.digitChar k.val ≠ '-' := by decide
        rw [List.mem_singleton.mp h]
        exact key ⟨n % 16, Nat.mod_lt _ (by decide)⟩

/-- The text of a UUID: 32 hexadecimal digits in groups of 8, 4, 4, 4 and 12. -/
def uuidText (u : Uuid) : List Char :=
  let d := hexDigits 32 u.val
  d.take 8 ++ '-' :: ((d.drop 8).take 4 ++ '-' :: ((d.drop 12).take 4 ++ '-' ::
    ((d.drop 16).take 4 ++ '-' :: d.drop 20)))

/-- A text has one UUID. -/
theorem uuidText_injective : Function.Injective uuidText := by
  intro u v h
  have hfilter : ∀ x : Uuid, (uuidText x).filter (· ≠ '-') = hexDigits 32 x.val := by
    intro x
    have hkeep : ∀ l : List Char, (∀ c ∈ l, c ∈ hexDigits 32 x.val) →
        l.filter (· ≠ '-') = l := fun l hl =>
      List.filter_eq_self.mpr fun c hc => by simpa using hexDigits_ne_dash (hl c hc)
    simp only [uuidText, List.filter_append, List.filter_cons]
    rw [hkeep _ fun c hc => List.mem_of_mem_take hc,
      hkeep _ fun c hc => List.mem_of_mem_drop (List.mem_of_mem_take hc),
      hkeep _ fun c hc => List.mem_of_mem_drop (List.mem_of_mem_take hc),
      hkeep _ fun c hc => List.mem_of_mem_drop (List.mem_of_mem_take hc),
      hkeep _ fun c hc => List.mem_of_mem_drop hc]
    have hsplit : ∀ a b : ℕ, ((hexDigits 32 x.val).drop a).take b ++
        (hexDigits 32 x.val).drop (a + b) = (hexDigits 32 x.val).drop a := by
      intro a b
      rw [← List.drop_drop, List.take_append_drop]
    simp only [ne_eq, not_true_eq_false, decide_false, Bool.false_eq_true, if_false]
    rw [hsplit 16 4, hsplit 12 4, hsplit 8 4, List.take_append_drop]
  have hd := (hfilter u).symm.trans ((congrArg _ h).trans (hfilter v))
  have hb : ∀ x : Uuid, x.val < 16 ^ 32 := fun x => by
    have := x.isLt
    norm_num at this ⊢
    exact this
  exact Fin.ext (hexDigits_inj (hb u) (hb v) hd)

/-! ## Texts without surrogates -/

private theorem toNat_lt (c : Char) : c.toNat < 0x110000 := by
  have h := c.valid
  simp only [UInt32.isValidChar, Nat.isValidChar] at h
  change c.val.toNat < _
  omega

theorem Text.ofChars_injective : Function.Injective Text.ofChars := by
  refine List.map_injective_iff.mpr fun a b h => ?_
  have := congrArg Fin.val h
  simp only [Fin.val_ofNat, Nat.mod_eq_of_lt (toNat_lt _)] at this
  exact Char.ext (UInt32.toNat_inj.mp this)

theorem Text.wellPaired_ofChars (l : List Char) : (Text.ofChars l).wellPaired = true := by
  have hhigh : ∀ c : Char, Text.isHigh (Fin.ofNat 0x110000 c.toNat) = false := by
    intro c
    have h := c.valid
    simp only [UInt32.isValidChar, Nat.isValidChar] at h
    change (0xd800 ≤ c.toNat % 0x110000 && c.toNat % 0x110000 < 0xdc00) = false
    rw [Nat.mod_eq_of_lt (toNat_lt c)]
    change c.toNat < _ ∨ _ < c.toNat ∧ _ at h
    simp
    omega
  induction l with
  | nil => rfl
  | cons a l ih =>
      cases l with
      | nil => rfl
      | cons b l =>
          change (!(Text.isHigh _ && _) && Text.wellPaired (Text.ofChars (b :: l))) = true
          rw [hhigh a, ih]
          rfl

end Lib
