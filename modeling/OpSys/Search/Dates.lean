import OpSys.Search.Utils

/-!
# What passes for a date

`validate_date` looks only at where `sscanf` has stopped after each run of digits.  Besides
the dates of the form `dddd-dd-dd dd:dd:dd` this lets through dates with something behind
them, and dates with other white space in the middle, two bytes of it if the hour has one
digit.

## Main definitions

* `Digits`, `DateText` — the form of a date.
* `DigitRun`, `Parts`, `Parts.Scanned` — a run of digits, and the parts of a text that the scan
  goes through.
* `Loose` — what is let through besides.

## Main results

* `digits_inv`, `byte_digits_inv`, `blank_digits_inv` — what a stored place says about the text.
* `validateDate_eq_zero_iff` — the texts that pass.
* `validateDate_iff` — where the check is exact.

## References

`lab2_file_system/search_dir/utils.c`, `lab3_processes/search_dir_mult_ps/utils.c`.
-/

namespace OpSys
namespace Search

open Stdio

/-- `k` decimal digits. -/
def Digits (k : ℕ) (ds : List UInt8) : Prop := ds.length = k ∧ ∀ b ∈ ds, isdigit b = true

instance (k : ℕ) (ds : List UInt8) : Decidable (Digits k ds) :=
  decidable_of_iff (ds.length = k ∧ ds.all isdigit = true) (by rw [List.all_eq_true]; rfl)

/-- A date of the form `dddd-dd-dd dd:dd:dd`. -/
structure DateText where
  year : List UInt8
  mon : List UInt8
  mday : List UInt8
  hour : List UInt8
  min : List UInt8
  sec : List UInt8
  year_digits : Digits 4 year
  mon_digits : Digits 2 mon
  mday_digits : Digits 2 mday
  hour_digits : Digits 2 hour
  min_digits : Digits 2 min
  sec_digits : Digits 2 sec

/-- The bytes of a date. -/
def DateText.text (d : DateText) : List UInt8 :=
  d.year ++ 45 :: (d.mon ++ 45 :: (d.mday ++ 32 :: (d.hour ++ 58 :: (d.min ++ 58 :: d.sec))))

/-! ### The scan -/

/-- A run of digits that does not go on in the rest. -/
structure DigitRun (ds rest : List UInt8) : Prop where
  ne_nil : ds ≠ []
  digits : ∀ b ∈ ds, isdigit b = true
  ends : ∀ b ∈ rest.head?, isdigit b = false

section Scan

variable {ds rest gap text : List UInt8} {format : List Directive} {n k : ℕ}

theorem takeWhile_append {p : UInt8 → Bool} (hds : ∀ b ∈ ds, p b = true)
    (hrest : ∀ b ∈ rest.head?, p b = false) :
    (ds ++ rest).takeWhile p = ds ∧ (ds ++ rest).dropWhile p = rest := by
  rw [List.takeWhile_append_of_pos hds, List.dropWhile_append_of_pos hds]
  cases rest with
  | nil => exact ⟨List.append_nil ds, rfl⟩
  | cons b rest =>
    have hb : ¬p b = true := by
      rw [hrest b rfl]
      exact Bool.false_ne_true
    rw [List.takeWhile_cons_of_neg hb, List.dropWhile_cons_of_neg hb]
    exact ⟨List.append_nil ds, rfl⟩

theorem head_dropWhile (p : UInt8 → Bool) (text : List UInt8) :
    ∀ b ∈ (text.dropWhile p).head?, p b = false := by
  intro b hb
  have hhead := List.head?_dropWhile_not p text
  rwa [Option.mem_def.mp hb] at hhead

theorem sscanf_digits (hrun : DigitRun ds rest) :
    sscanf (.digits :: .store :: format) (ds ++ rest) n =
      (n + ds.length) :: sscanf format rest (n + ds.length) := by
  obtain ⟨htake, hdrop⟩ := takeWhile_append hrun.digits hrun.ends
  rw [sscanf, htake, hdrop]
  exact if_neg hrun.ne_nil

@[simp] theorem sscanf_byte (b : UInt8) :
    sscanf (.byte b :: format) (b :: text) n = sscanf format text (n + 1) := by
  rw [sscanf, if_pos rfl]

theorem sscanf_blank (hgap : ∀ b ∈ gap, isspace b = true)
    (hrest : ∀ b ∈ rest.head?, isspace b = false) :
    sscanf (.blank :: format) (gap ++ rest) n = sscanf format rest (n + gap.length) := by
  obtain ⟨htake, hdrop⟩ := takeWhile_append hgap hrest
  rw [sscanf, htake, hdrop]

/-- Digits do not start with white space. -/
theorem DigitRun.not_space (hrun : DigitRun ds rest) :
    ∀ b ∈ (ds ++ rest).head?, isspace b = false := by
  intro b hb
  cases ds with
  | nil => exact absurd rfl hrun.ne_nil
  | cons d ds =>
    obtain rfl := Option.some.inj hb
    exact (isdigit_ne (hrun.digits _ List.mem_cons_self)).2.2.2

/-- A place is stored behind a run of digits. -/
theorem digits_inv (hk : k ≠ 0)
    (hget : (sscanf (.digits :: .store :: format) text n).getD 0 0 = k) :
    ∃ ds rest, text = ds ++ rest ∧ DigitRun ds rest ∧ n + ds.length = k ∧
      sscanf (.digits :: .store :: format) text n = k :: sscanf format rest k := by
  have happend : text = text.takeWhile isdigit ++ text.dropWhile isdigit :=
    List.takeWhile_append_dropWhile.symm
  by_cases hnil : text.takeWhile isdigit = []
  · rw [sscanf] at hget
    simp only [if_pos hnil, List.getD_nil] at hget
    exact absurd hget.symm hk
  · have hrun : DigitRun (text.takeWhile isdigit) (text.dropWhile isdigit) :=
      ⟨hnil, fun b hb => List.mem_takeWhile_imp hb, head_dropWhile isdigit text⟩
    have hscan : sscanf (.digits :: .store :: format) _ n = _ := sscanf_digits hrun
    rw [← happend] at hscan
    rw [hscan] at hget
    have hplace : n + (text.takeWhile isdigit).length = k := hget
    rw [hplace] at hscan
    exact ⟨_, _, happend, hrun, hplace, hscan⟩

/-- Before that run stands the byte that the format has there. -/
theorem byte_digits_inv {b : UInt8} (hk : k ≠ 0)
    (hget : (sscanf (.byte b :: .digits :: .store :: format) text n).getD 0 0 = k) :
    ∃ ds rest, text = b :: (ds ++ rest) ∧ DigitRun ds rest ∧ n + 1 + ds.length = k ∧
      sscanf (.byte b :: .digits :: .store :: format) text n = k :: sscanf format rest k := by
  cases text with
  | nil => exact absurd hget.symm hk
  | cons c text =>
    by_cases hc : c = b
    · subst hc
      rw [sscanf_byte] at hget ⊢
      obtain ⟨ds, rest, rfl, hrun, hplace, hscan⟩ := digits_inv hk hget
      exact ⟨ds, rest, rfl, hrun, hplace, hscan⟩
    · rw [sscanf, if_neg hc] at hget
      exact absurd hget.symm hk

/-- Or white space, any amount of it. -/
theorem blank_digits_inv (hk : k ≠ 0)
    (hget : (sscanf (.blank :: .digits :: .store :: format) text n).getD 0 0 = k) :
    ∃ gap ds rest, text = gap ++ (ds ++ rest) ∧ (∀ b ∈ gap, isspace b = true) ∧ DigitRun ds rest ∧
      n + gap.length + ds.length = k ∧
      sscanf (.blank :: .digits :: .store :: format) text n = k :: sscanf format rest k := by
  rw [sscanf] at hget ⊢
  obtain ⟨ds, rest, hdrop, hrun, hplace, hscan⟩ := digits_inv hk hget
  refine ⟨text.takeWhile isspace, ds, rest, ?_, fun b hb => List.mem_takeWhile_imp hb, hrun, hplace,
    hscan⟩
  rw [← hdrop, List.takeWhile_append_dropWhile]

end Scan

/-! ### The texts that pass -/

/-- A text in the parts that the scan goes through. -/
structure Parts where
  year : List UInt8
  mon : List UInt8
  mday : List UInt8
  gap : List UInt8
  hour : List UInt8
  min : List UInt8
  sec : List UInt8
  rest : List UInt8

/-- The text behind the third run of digits. -/
def Parts.time (p : Parts) : List UInt8 :=
  p.gap ++ (p.hour ++ 58 :: (p.min ++ 58 :: (p.sec ++ p.rest)))

def Parts.text (p : Parts) : List UInt8 :=
  p.year ++ 45 :: (p.mon ++ 45 :: (p.mday ++ p.time))

/-- The runs of digits end at the places that are asked for. -/
structure Parts.Scanned (p : Parts) : Prop where
  year : Digits 4 p.year
  mon : Digits 2 p.mon
  mday : Digits 2 p.mday
  gap : ∀ b ∈ p.gap, isspace b = true
  gap_ne : p.gap ≠ []
  hour : ∀ b ∈ p.hour, isdigit b = true
  hour_ne : p.hour ≠ []
  length : p.gap.length + p.hour.length = 3
  min : Digits 2 p.min
  sec : Digits 2 p.sec
  rest : ∀ b ∈ p.rest.head?, isdigit b = false

theorem Digits.run {ds rest : List UInt8} {k : ℕ} (hds : Digits k ds) (hk : k ≠ 0)
    (hrest : ∀ b ∈ rest.head?, isdigit b = false) : DigitRun ds rest := by
  refine ⟨?_, hds.2, hrest⟩
  rintro rfl
  exact hk hds.1.symm

/-- A byte that is not a digit ends a run. -/
theorem ends_cons {b : UInt8} (hb : isdigit b = false) (text : List UInt8) :
    ∀ c ∈ (b :: text).head?, isdigit c = false := by
  intro c hc
  rwa [← Option.some.inj hc]

theorem isdigit_of_isspace {b : UInt8} (hb : isspace b = true) : isdigit b = false := by
  cases hdigit : isdigit b with
  | false => rfl
  | true =>
    rw [(isdigit_ne hdigit).2.2.2] at hb
    cases hb

namespace Parts

variable {p q : Parts}

theorem Scanned.run_hour (hp : p.Scanned) :
    DigitRun p.hour (58 :: (p.min ++ 58 :: (p.sec ++ p.rest))) :=
  ⟨hp.hour_ne, hp.hour, ends_cons (by decide) _⟩

theorem Scanned.run_mday (hp : p.Scanned) : DigitRun p.mday p.time := by
  refine hp.mday.run (by decide) ?_
  rw [time]
  obtain ⟨b, gap, hgap⟩ := List.exists_cons_of_ne_nil hp.gap_ne
  have hspace := hp.gap
  rw [hgap] at hspace ⊢
  exact ends_cons (isdigit_of_isspace (hspace b List.mem_cons_self)) _

/-- The places that are stored for such a text. -/
theorem Scanned.sscanf_eq (hp : p.Scanned) :
    sscanf dateFormat p.text 0 = [4, 7, 10, 13, 16, 19] := by
  have hyear : DigitRun p.year (45 :: (p.mon ++ 45 :: (p.mday ++ p.time))) :=
    hp.year.run (by decide) (ends_cons (by decide) _)
  have hmon : DigitRun p.mon (45 :: (p.mday ++ p.time)) :=
    hp.mon.run (by decide) (ends_cons (by decide) _)
  have hmin : DigitRun p.min (58 :: (p.sec ++ p.rest)) :=
    hp.min.run (by decide) (ends_cons (by decide) _)
  have hsec : DigitRun p.sec p.rest := hp.sec.run (by decide) hp.rest
  have hlength : 0 + 4 + 1 + 2 + 1 + 2 + p.gap.length + p.hour.length = 13 := by
    have := hp.length
    omega
  rw [dateFormat, text, sscanf_digits hyear, sscanf_byte, sscanf_digits hmon, sscanf_byte,
    sscanf_digits hp.run_mday, time, sscanf_blank hp.gap hp.run_hour.not_space,
    sscanf_digits hp.run_hour, sscanf_byte, sscanf_digits hmin, sscanf_byte, sscanf_digits hsec,
    hp.year.1, hp.mon.1, hp.mday.1, hp.min.1, hp.sec.1, hlength]
  rfl

/-- A text has these parts in one way only. -/
theorem Scanned.unique (hp : p.Scanned) (hq : q.Scanned) (heq : p.text = q.text) : p = q := by
  obtain ⟨hyear, heq⟩ := List.append_inj heq (hp.year.1.trans hq.year.1.symm)
  obtain ⟨hmon, heq⟩ := List.append_inj (List.cons.inj heq).2 (hp.mon.1.trans hq.mon.1.symm)
  obtain ⟨hmday, heq⟩ := List.append_inj (List.cons.inj heq).2 (hp.mday.1.trans hq.mday.1.symm)
  -- the white space ends where the digits begin
  have hgap : p.gap = q.gap := by
    rw [← (takeWhile_append hp.gap hp.run_hour.not_space).1,
      ← (takeWhile_append hq.gap hq.run_hour.not_space).1]
    exact congrArg (List.takeWhile isspace) heq
  have hlength : p.hour.length = q.hour.length := by
    have hplen := hp.length
    have hqlen := hq.length
    rw [hgap] at hplen
    omega
  rw [time, time, hgap] at heq
  obtain ⟨hhour, heq⟩ := List.append_inj (List.append_cancel_left heq) hlength
  obtain ⟨hmin, heq⟩ := List.append_inj (List.cons.inj heq).2 (hp.min.1.trans hq.min.1.symm)
  obtain ⟨hsec, hrest⟩ := List.append_inj (List.cons.inj heq).2 (hp.sec.1.trans hq.sec.1.symm)
  cases p
  cases q
  simp only [mk.injEq]
  exact ⟨hyear, hmon, hmday, hgap, hhour, hmin, hsec, hrest⟩

end Parts

theorem validateDate_eq_zero {text : List UInt8} :
    validateDate text = 0 ↔ ∀ i < 6, (sscanf dateFormat text 0).getD i 0 = 4 + 3 * i := by
  rw [validateDate]
  split
  · rename_i hwrong
    refine iff_of_false (by decide) fun hplaces => ?_
    rcases hwrong with h | h | h | h | h | h
    · exact h (hplaces 0 (by decide))
    · exact h (hplaces 1 (by decide))
    · exact h (hplaces 2 (by decide))
    · exact h (hplaces 3 (by decide))
    · exact h (hplaces 4 (by decide))
    · exact h (hplaces 5 (by decide))
  · rename_i hright
    simp only [ne_eq, not_or, Decidable.not_not] at hright
    obtain ⟨hyear, hmon, hmday, hhour, hmin, hsec⟩ := hright
    refine iff_of_true rfl fun i hi => ?_
    match i, hi with
    | 0, _ => exact hyear
    | 1, _ => exact hmon
    | 2, _ => exact hmday
    | 3, _ => exact hhour
    | 4, _ => exact hmin
    | 5, _ => exact hsec

/-- **The texts that pass.** -/
theorem validateDate_eq_zero_iff (text : List UInt8) :
    validateDate text = 0 ↔ ∃ p : Parts, p.Scanned ∧ p.text = text := by
  rw [validateDate_eq_zero]
  constructor
  · intro hplaces
    have hyear := hplaces 0 (by decide)
    have hmon := hplaces 1 (by decide)
    have hmday := hplaces 2 (by decide)
    have hhour := hplaces 3 (by decide)
    have hmin := hplaces 4 (by decide)
    have hsec := hplaces 5 (by decide)
    obtain ⟨year, rest, rfl, hyearRun, hyearLen, hscan⟩ := digits_inv (by decide) hyear
    rw [dateFormat, hscan, List.getD_cons_succ] at hmon hmday hhour hmin hsec
    obtain ⟨mon, rest, rfl, hmonRun, hmonLen, hscan⟩ := byte_digits_inv (by decide) hmon
    rw [hscan, List.getD_cons_succ] at hmday hhour hmin hsec
    obtain ⟨mday, rest, rfl, hmdayRun, hmdayLen, hscan⟩ := byte_digits_inv (by decide) hmday
    rw [hscan, List.getD_cons_succ] at hhour hmin hsec
    obtain ⟨gap, hour, rest, rfl, hgap, hhourRun, hhourLen, hscan⟩ :=
      blank_digits_inv (by decide) hhour
    rw [hscan, List.getD_cons_succ] at hmin hsec
    obtain ⟨min, rest, rfl, hminRun, hminLen, hscan⟩ := byte_digits_inv (by decide) hmin
    rw [hscan, List.getD_cons_succ] at hsec
    obtain ⟨sec, rest, rfl, hsecRun, hsecLen, _⟩ := byte_digits_inv (by decide) hsec
    have hgapNe : gap ≠ [] := by
      rintro rfl
      obtain ⟨b, hour, rfl⟩ := List.exists_cons_of_ne_nil hhourRun.ne_nil
      have hb := hmdayRun.ends b rfl
      rw [hhourRun.digits b List.mem_cons_self] at hb
      cases hb
    have hyearDigits : Digits 4 year := ⟨by omega, hyearRun.digits⟩
    have hmonDigits : Digits 2 mon := ⟨by omega, hmonRun.digits⟩
    have hmdayDigits : Digits 2 mday := ⟨by omega, hmdayRun.digits⟩
    have hlength : gap.length + hour.length = 3 := by omega
    have hminDigits : Digits 2 min := ⟨by omega, hminRun.digits⟩
    have hsecDigits : Digits 2 sec := ⟨by omega, hsecRun.digits⟩
    exact ⟨⟨year, mon, mday, gap, hour, min, sec, rest⟩,
      ⟨hyearDigits, hmonDigits, hmdayDigits, hgap, hgapNe, hhourRun.digits, hhourRun.ne_nil,
        hlength, hminDigits, hsecDigits, hsecRun.ends⟩, rfl⟩
  · rintro ⟨p, hp, rfl⟩
    rw [hp.sscanf_eq]
    decide

/-! ### The form of a date -/

/-- The parts of a date. -/
def DateText.parts (d : DateText) : Parts where
  year := d.year
  mon := d.mon
  mday := d.mday
  gap := [32]
  hour := d.hour
  min := d.min
  sec := d.sec
  rest := []

theorem DateText.text_parts (d : DateText) : d.parts.text = d.text := by
  rw [Parts.text, Parts.time, DateText.text, parts, List.append_nil]
  rfl

theorem DateText.scanned (d : DateText) : d.parts.Scanned where
  year := d.year_digits
  mon := d.mon_digits
  mday := d.mday_digits
  gap b hb := by
    rw [List.mem_singleton.mp hb]
    decide
  gap_ne := List.cons_ne_nil _ _
  hour := d.hour_digits.2
  hour_ne hnil := by
    have hlen := d.hour_digits.1
    rw [show d.hour = [] from hnil] at hlen
    cases hlen
  length := congrArg (1 + ·) d.hour_digits.1
  min := d.min_digits
  sec := d.sec_digits
  rest := nofun

/-- A text that passes, with other white space than one blank in the middle or with something
behind the last digit. -/
def Loose (text : List UInt8) : Prop :=
  ∃ p : Parts, p.Scanned ∧ p.text = text ∧ (p.gap ≠ [32] ∨ p.rest ≠ [])

theorem Parts.Scanned.exists_date {p : Parts} (hp : p.Scanned) (hgap : p.gap = [32])
    (hrest : p.rest = []) : ∃ d : DateText, d.text = p.text := by
  have hlength := hp.length
  rw [hgap, List.length_singleton] at hlength
  refine ⟨⟨p.year, p.mon, p.mday, p.hour, p.min, p.sec, hp.year, hp.mon, hp.mday,
    ⟨by omega, hp.hour⟩, hp.min, hp.sec⟩, ?_⟩
  rw [Parts.text, Parts.time, DateText.text, hgap, hrest, List.append_nil]
  rfl

@[simp] theorem DateText.length_text (d : DateText) : d.text.length = 19 := by
  simp only [text, List.length_append, List.length_cons, d.year_digits.1, d.mon_digits.1,
    d.mday_digits.1, d.hour_digits.1, d.min_digits.1, d.sec_digits.1]

/-- A date with a letter behind it passes. -/
theorem validateDate_longer :
    validateDate (ascii "2019-05-01 12:00:00x") = 0 ∧
      ¬∃ d : DateText, d.text = ascii "2019-05-01 12:00:00x" := by
  refine ⟨by decide, ?_⟩
  rintro ⟨d, hd⟩
  have hlen := d.length_text
  rw [hd] at hlen
  exact absurd hlen (by decide)

/-- **Where the check is exact**: a text passes iff it is a date, unless it is a loose one. -/
theorem validateDate_iff (text : List UInt8) :
    (validateDate text = 0 ↔ ∃ d : DateText, d.text = text) ↔ ¬Loose text := by
  rw [validateDate_eq_zero_iff]
  constructor
  · rintro hexact ⟨p, hp, rfl, hloose⟩
    obtain ⟨d, hd⟩ := hexact.mp ⟨p, hp, rfl⟩
    -- a text has parts in one way only
    obtain rfl := d.scanned.unique hp (d.text_parts.trans hd)
    rcases hloose with hgap | hrest
    · exact hgap rfl
    · exact hrest rfl
  · intro htight
    constructor
    · rintro ⟨p, hp, rfl⟩
      by_cases hgap : p.gap = [32]
      · by_cases hrest : p.rest = []
        · exact hp.exists_date hgap hrest
        · exact absurd ⟨p, hp, rfl, Or.inr hrest⟩ htight
      · exact absurd ⟨p, hp, rfl, Or.inl hgap⟩ htight
    · rintro ⟨d, rfl⟩
      exact ⟨d.parts, d.scanned, d.text_parts⟩

end Search
end OpSys
