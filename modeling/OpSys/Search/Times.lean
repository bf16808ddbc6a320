import Mathlib.Data.List.Lex
import OpSys.Search.Dates

/-!
# Times as texts

The searches compare a time with a date byte by byte.  Both texts have digits of the same
number in the same places and the same bytes between them, so that the first byte in which
they differ belongs to the first number in which they differ.

## Main definitions

* `Tm.InRange` — what `localtime` promises of its fields.
* `Tm.tuple`, `DateText.tuple` — the numbers of a time and of a date.

## Main results

* `strcmp_append_neg_iff`, `strcmp_neg_iff` — the comparison in parts, and of digits.
* `strcmp_text_neg_iff` — dates compare as their numbers do.
* `exists_text_strftime` — the text of a time is that of a date.
* `comparisons_exact` — the three comparisons of a time with a date.

## References

`lab2_file_system/search_dir/utils.c`, `lab3_processes/search_dir_mult_ps/utils.c`.
-/

namespace OpSys
namespace Search

open Stdio

/-- What `localtime` promises of the fields but the year. -/
structure Tm.InRange (tm : Tm) : Prop where
  mon : tm.mon ≤ 11
  mday : 1 ≤ tm.mday ∧ tm.mday ≤ 31
  hour : tm.hour ≤ 23
  min : tm.min ≤ 59
  sec : tm.sec ≤ 60

/-- The year, the month and the other numbers of a time, as they are written. -/
def Tm.tuple (tm : Tm) : List ℕ :=
  [(tm.year + 1900).toNat, tm.mon + 1, tm.mday, tm.hour, tm.min, tm.sec]

/-- The numbers written in a date. -/
def DateText.tuple (d : DateText) : List ℕ :=
  [digitsVal d.year, digitsVal d.mon, digitsVal d.mday, digitsVal d.hour, digitsVal d.min,
    digitsVal d.sec]

/-! ### Comparing strings -/

theorem strcmp_eq_zero {as bs : List UInt8} (h : strcmp as bs = 0) : as = bs := by
  induction as generalizing bs with
  | nil =>
    cases bs with
    | nil => rfl
    | cons b bs => cases h
  | cons a as ih =>
    cases bs with
    | nil => cases h
    | cons b bs =>
      rw [strcmp] at h
      by_cases hab : a = b
      · rw [if_pos hab] at h
        rw [hab, ih h]
      · rw [if_neg hab] at h
        split at h <;> cases h

theorem strcmp_comm (as bs : List UInt8) : strcmp bs as = -strcmp as bs := by
  induction as generalizing bs with
  | nil => cases bs <;> rfl
  | cons a as ih =>
    cases bs with
    | nil => rfl
    | cons b bs =>
      rw [strcmp, strcmp]
      by_cases hab : a = b
      · rw [if_pos hab, if_pos hab.symm, ih]
      · rw [if_neg hab, if_neg (Ne.symm hab)]
        have hnat : a.toNat ≠ b.toNat := fun h => hab (UInt8.toNat_inj.mp h)
        simp only [UInt8.lt_iff_toNat_lt]
        by_cases hlt : a.toNat < b.toNat
        · rw [if_pos hlt, if_neg (by omega)]
          rfl
        · rw [if_neg hlt, if_pos (by omega)]

/-- Of two strings with parts of the same length the first parts decide, if they differ. -/
theorem strcmp_append_neg_iff {as bs : List UInt8} (hlen : as.length = bs.length)
    (as' bs' : List UInt8) :
    strcmp (as ++ as') (bs ++ bs') < 0 ↔ strcmp as bs < 0 ∨ as = bs ∧ strcmp as' bs' < 0 := by
  induction as generalizing bs with
  | nil =>
    cases bs with
    | nil => simp [strcmp]
    | cons b bs => cases hlen
  | cons a as ih =>
    cases bs with
    | nil => cases hlen
    | cons b bs =>
      rw [List.cons_append, List.cons_append, strcmp, strcmp]
      by_cases hab : a = b
      · subst hab
        rw [if_pos rfl, if_pos rfl, ih (Nat.succ.inj hlen), List.cons.injEq]
        simp only [true_and]
      · rw [if_neg hab, if_neg hab, List.cons.injEq]
        simp only [hab, false_and, or_false]

/-! ### Comparing numbers -/

theorem foldl_digits (ds : List UInt8) (n : ℕ) :
    ds.foldl (fun n b => 10 * n + (b.toNat - 48)) n = n * 10 ^ ds.length + digitsVal ds := by
  induction ds generalizing n with
  | nil => exact (Nat.mul_one n).symm
  | cons d ds ih =>
    have hds := ih (d.toNat - 48)
    rw [digitsVal, List.foldl_cons, List.foldl_cons, Nat.mul_zero, Nat.zero_add, ih, hds,
      List.length_cons, Nat.pow_succ]
    ring

theorem digitsVal_cons (d : UInt8) (ds : List UInt8) :
    digitsVal (d :: ds) = (d.toNat - 48) * 10 ^ ds.length + digitsVal ds := by
  rw [digitsVal, List.foldl_cons, foldl_digits, Nat.mul_zero, Nat.zero_add]

@[simp] theorem isdigit_iff {b : UInt8} : isdigit b = true ↔ 48 ≤ b.toNat ∧ b.toNat ≤ 57 := by
  simp [isdigit, UInt8.le_iff_toNat_le]

theorem digitsVal_lt {ds : List UInt8} (hds : ∀ b ∈ ds, isdigit b = true) :
    digitsVal ds < 10 ^ ds.length := by
  induction ds with
  | nil => exact Nat.one_pos
  | cons d ds ih =>
    obtain ⟨hd, hds⟩ := List.forall_mem_cons.mp hds
    have hle := isdigit_iff.mp hd
    have hlt := ih hds
    have hmul : (d.toNat - 48) * 10 ^ ds.length ≤ 9 * 10 ^ ds.length :=
      Nat.mul_le_mul_right _ (by omega)
    rw [digitsVal_cons, List.length_cons, Nat.pow_succ]
    omega

/-- A greater leading digit makes up for all that follow. -/
theorem lead_lt {x y v w base : ℕ} (hxy : x < y) (hv : v < base) :
    x * base + v < y * base + w := by
  have hmul : (x + 1) * base ≤ y * base := Nat.mul_le_mul_right _ hxy
  rw [Nat.succ_mul] at hmul
  omega

/-- **Digits compare as their numbers do.** -/
theorem strcmp_neg_iff {k : ℕ} {as bs : List UInt8} (has : Digits k as) (hbs : Digits k bs) :
    strcmp as bs < 0 ↔ digitsVal as < digitsVal bs := by
  induction as generalizing bs k with
  | nil =>
    have hnil : bs = [] := List.length_eq_zero_iff.mp (hbs.1.trans has.1.symm)
    subst hnil
    exact iff_of_false (Int.lt_irrefl 0) (Nat.lt_irrefl _)
  | cons a as ih =>
    cases bs with
    | nil => exact absurd (has.1.trans hbs.1.symm) (Nat.succ_ne_zero _)
    | cons b bs =>
      have hlen : as.length = bs.length := Nat.succ.inj (has.1.trans hbs.1.symm)
      obtain ⟨ha, has'⟩ := List.forall_mem_cons.mp has.2
      obtain ⟨hb, hbs'⟩ := List.forall_mem_cons.mp hbs.2
      have hva := digitsVal_lt has'
      have hvb := digitsVal_lt hbs'
      rw [isdigit_iff] at ha hb
      rw [strcmp, digitsVal_cons, digitsVal_cons, hlen]
      rw [hlen] at hva
      by_cases hab : a = b
      · subst hab
        rw [if_pos rfl, ih ⟨hlen, has'⟩ ⟨rfl, hbs'⟩, Nat.add_lt_add_iff_left]
      · have hne : a.toNat ≠ b.toNat := fun h => hab (UInt8.toNat_inj.mp h)
        rw [if_neg hab]
        by_cases hlt : a.toNat < b.toNat
        · rw [if_pos (UInt8.lt_iff_toNat_lt.mpr hlt)]
          exact iff_of_true (by decide) (lead_lt (by omega) hva)
        · have hgt : (b.toNat - 48) * 10 ^ bs.length + digitsVal bs <
              (a.toNat - 48) * 10 ^ bs.length + digitsVal as := lead_lt (by omega) hvb
          rw [if_neg fun h => hlt (UInt8.lt_iff_toNat_lt.mp h)]
          exact iff_of_false (by decide) (by omega)

/-- Different digits of the same number are different numbers. -/
theorem digitsVal_inj {k : ℕ} {as bs : List UInt8} (has : Digits k as) (hbs : Digits k bs) :
    as = bs ↔ digitsVal as = digitsVal bs := by
  constructor
  · rintro rfl
    rfl
  · intro hval
    have hlt : ¬strcmp as bs < 0 := by
      rw [strcmp_neg_iff has hbs]
      omega
    have hgt : ¬strcmp bs as < 0 := by
      rw [strcmp_neg_iff hbs has]
      omega
    rw [strcmp_comm as bs] at hgt
    exact strcmp_eq_zero (by omega)

/-! ### Comparing dates -/

/-- A number and what follows it. -/
theorem strcmp_part {k : ℕ} {as bs as' bs' : List UInt8} {ms ns : List ℕ} (has : Digits k as)
    (hbs : Digits k bs) (sep : UInt8) (hrest : strcmp as' bs' < 0 ↔ ms < ns) :
    strcmp (as ++ sep :: as') (bs ++ sep :: bs') < 0 ↔
      digitsVal as :: ms < digitsVal bs :: ns := by
  rw [strcmp_append_neg_iff (has.1.trans hbs.1.symm), strcmp_neg_iff has hbs,
    digitsVal_inj has hbs, List.cons_lt_cons_iff, strcmp, if_pos rfl, hrest]

/-- **Dates compare as their numbers do.** -/
theorem strcmp_text_neg_iff (a b : DateText) : strcmp a.text b.text < 0 ↔ a.tuple < b.tuple := by
  have hsec : strcmp a.sec b.sec < 0 ↔ [digitsVal a.sec] < [digitsVal b.sec] := by
    rw [strcmp_neg_iff a.sec_digits b.sec_digits, List.cons_lt_cons_iff]
    simp
  have hmin := strcmp_part a.min_digits b.min_digits 58 hsec
  have hhour := strcmp_part a.hour_digits b.hour_digits 58 hmin
  have hmday := strcmp_part a.mday_digits b.mday_digits 32 hhour
  have hmon := strcmp_part a.mon_digits b.mon_digits 45 hmday
  exact strcmp_part a.year_digits b.year_digits 45 hmon

/-! ### The text of a time -/

theorem digits_digitBytes {n k : ℕ} (hlow : 10 ^ k ≤ n) (hhigh : n < 10 ^ (k + 1)) :
    Digits (k + 1) (digitBytes n) := by
  have hpos : 0 < 10 ^ k := Nat.pow_pos (by decide)
  have hzero : n ≠ 0 := by omega
  refine ⟨?_, fun b hb => isdigit_of_mem hb⟩
  rw [digitBytes, if_neg hzero, List.length_reverse, List.length_map]
  apply Nat.le_antisymm
  · exact (Nat.digits_length_le_iff (by decide) n).mpr hhigh
  · exact (Nat.lt_digits_length_iff (by decide) n).mpr hlow

/-- Two digits for a number below 100. -/
theorem digits_twoDigits {n : ℕ} (hn : n < 100) :
    Digits 2 (twoDigits n) ∧ digitsVal (twoDigits n) = n := by
  by_cases hlt : n < 10
  · have hone : Digits 1 (digitBytes n) := by
      by_cases hzero : n = 0
      · subst hzero
        refine ⟨rfl, fun b hb => isdigit_of_mem hb⟩
      · exact digits_digitBytes (k := 0) (Nat.pos_of_ne_zero hzero) hlt
    rw [twoDigits, if_pos hlt]
    refine ⟨⟨congrArg (· + 1) hone.1, ?_⟩, ?_⟩
    · exact List.forall_mem_cons.mpr ⟨isdigit_digitByte (by decide), hone.2⟩
    · rw [digitsVal_cons, digitByte_toNat (by decide), digitsVal_digitBytes, Nat.sub_self,
        Nat.zero_mul, Nat.zero_add]
  · rw [twoDigits, if_neg hlt]
    exact ⟨digits_digitBytes (k := 1) (Nat.le_of_not_lt hlt) hn, digitsVal_digitBytes n⟩

/-- **The text of a time is that of a date**, with the same numbers. -/
theorem exists_text_strftime {tm : Tm} (hfields : tm.InRange) (hlow : 1000 ≤ tm.year + 1900)
    (hhigh : tm.year + 1900 ≤ 9999) :
    ∃ d : DateText, strftime tm = d.text ∧ d.tuple = tm.tuple := by
  have hyear : Digits 4 (digitBytes (tm.year + 1900).natAbs) :=
    digits_digitBytes (k := 3) (by omega) (by omega)
  have hdecimal : decimal (tm.year + 1900) = digitBytes (tm.year + 1900).natAbs :=
    if_neg (by omega)
  have hnat : (tm.year + 1900).natAbs = (tm.year + 1900).toNat := by omega
  have hmon := hfields.mon
  have hmday := hfields.mday
  have hhour := hfields.hour
  have hmin := hfields.min
  have hsec := hfields.sec
  obtain ⟨hmonDigits, hmonVal⟩ := digits_twoDigits (n := tm.mon + 1) (by omega)
  obtain ⟨hmdayDigits, hmdayVal⟩ := digits_twoDigits (n := tm.mday) (by omega)
  obtain ⟨hhourDigits, hhourVal⟩ := digits_twoDigits (n := tm.hour) (by omega)
  obtain ⟨hminDigits, hminVal⟩ := digits_twoDigits (n := tm.min) (by omega)
  obtain ⟨hsecDigits, hsecVal⟩ := digits_twoDigits (n := tm.sec) (by omega)
  refine ⟨⟨_, _, _, _, _, _, hyear, hmonDigits, hmdayDigits, hhourDigits, hminDigits, hsecDigits⟩,
    ?_, ?_⟩
  · rw [strftime, hdecimal, DateText.text]
    simp only [List.append_assoc]
    rfl
  · rw [DateText.tuple, Tm.tuple, digitsVal_digitBytes, hmonVal, hmdayVal, hhourVal, hminVal,
      hsecVal, hnat]

/-! ### The comparisons -/

theorem strcmp_text_pos_iff (a b : DateText) : 0 < strcmp a.text b.text ↔ b.tuple < a.tuple := by
  rw [← strcmp_text_neg_iff, strcmp_comm a.text b.text]
  omega

theorem strcmp_text_eq_zero_iff (a b : DateText) :
    strcmp a.text b.text = 0 ↔ a.tuple = b.tuple := by
  have hlt := strcmp_text_neg_iff a b
  have hgt := strcmp_text_pos_iff a b
  constructor
  · intro hzero
    apply le_antisymm
    · exact not_lt.mp fun h => absurd hzero (Int.ne_of_gt (hgt.mpr h))
    · exact not_lt.mp fun h => absurd hzero (Int.ne_of_lt (hlt.mpr h))
  · intro heq
    have hle : ¬a.tuple < b.tuple := by
      rw [heq]
      exact lt_irrefl _
    have hge : ¬b.tuple < a.tuple := by
      rw [heq]
      exact lt_irrefl _
    rw [← hlt] at hle
    rw [← hgt] at hge
    omega

/-- **The comparisons of a time with a date are those of their numbers.** -/
theorem comparisons_exact (zone : Zone) (time : ℤ) (d : DateText)
    (hfields : (zone.localtime time).InRange) (hlow : 1000 ≤ (zone.localtime time).year + 1900)
    (hhigh : (zone.localtime time).year + 1900 ≤ 9999) :
    (lessThan (formatTime zone time) d.text = 0 ↔ (zone.localtime time).tuple < d.tuple) ∧
    (greaterThan (formatTime zone time) d.text = 0 ↔ d.tuple < (zone.localtime time).tuple) ∧
    (equal (formatTime zone time) d.text = 0 ↔ (zone.localtime time).tuple = d.tuple) := by
  obtain ⟨t, htext, htuple⟩ := exists_text_strftime hfields hlow hhigh
  -- the text fits into the buffer
  have hformat : formatTime zone time = t.text := by
    have hfits : t.text.length < 20 := by
      rw [t.length_text]
      decide
    rw [formatTime, htext]
    exact if_pos hfits
  rw [hformat, ← htuple]
  refine ⟨?_, ?_, ?_⟩
  · rw [← strcmp_text_neg_iff, lessThan, ite_eq_left_iff]
    simp
  · rw [← strcmp_text_pos_iff, greaterThan, ite_eq_left_iff]
    simp
  · rw [← strcmp_text_eq_zero_iff, equal, ite_eq_left_iff]
    simp

/-- The noon of a day in May. -/
def noon : Zone := ⟨fun _ => ⟨119, 4, 1, 12, 0, 0⟩, fun _ => []⟩

def noonText : DateText :=
  ⟨ascii "2019", ascii "05", ascii "01", ascii "12", ascii "00", ascii "00", by decide, by decide,
    by decide, by decide, by decide, by decide⟩

theorem comparisons_exact_noon :
    equal (formatTime noon 0) noonText.text = 0 ↔ (noon.localtime 0).tuple = noonText.tuple :=
  (comparisons_exact noon 0 noonText ⟨by decide, by decide, by decide, by decide, by decide⟩
    (by decide) (by decide)).2.2

end Search
end OpSys
