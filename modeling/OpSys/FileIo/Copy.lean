import Mathlib.Order.Nat
import OpSys.Lib.Records

/-!
# Copying a file

`copy_sys` and `copy_lib`, from the point where both files are open.  Their loops have the
same text: they call for `records` reads, and write what a read has delivered.  A read
that fails is passed over like the end of the file, and one that is short is not made up
for.  `copy_sys` keeps the counts in an `int`; `copy_lib` writes into a buffer that
`fclose` flushes, and does not look at what `fclose` returns.

## Main definitions

* `CopyCalls` — what the calls return.
* `CopyKind` — the type of the counts, and the count of a call that fails.
* `copyBody`, `copyLoop`, `copySys`, `copyLib` — the loops and the functions.
* `CopiesAll` — a result of 0 means that all bytes are copied.

## Main results

* `copyLoop_ok`, `copyLoop_error` — how the loop ends.
* `copies_all_iff` — when the two functions keep their word.

## References

`lab2_file_system/system_vs_lib_io/program.c`.
-/

namespace OpSys
namespace FileIo

open Records

/-- The results of the calls: `none` is an error.  The read `some k` delivers `k + 1`
bytes, or as many as it is asked for, or as the source has left; the write `some k` takes
`k` bytes, or as many as it is given.  `kept` is what `fclose` can flush, `none` all. -/
structure CopyCalls where
  reads : ℕ → Option ℕ
  writes : ℕ → Option ℕ
  kept : Option ℕ

/-- The type of the counts, by its conversion, and the count of a call that fails. -/
structure CopyKind where
  failed : ℤ
  convert : ℤ → ℤ

/-- `int` counts of `read` and `write`. -/
def sysKind : CopyKind := ⟨-1, toInt⟩

/-- `unsigned long` counts of `fread` and `fwrite`. -/
def libKind : CopyKind := ⟨0, id⟩

/-- How many bytes a read delivers, with `left` bytes before the end of the file. -/
def deliveredBy (request left : ℕ) : Option ℕ → ℕ
  | none => 0
  | some k => min (k + 1) (min request left)

/-- How many bytes a write takes. -/
def takenBy (request : ℕ) : Option ℕ → ℕ
  | none => 0
  | some k => min k request

/-- What a call returns that has moved `n` bytes, before the conversion. -/
def CopyKind.returns (kind : CopyKind) (outcome : Option ℕ) (n : ℕ) : ℤ :=
  if outcome = none then kind.failed else n

/-- The place in the source, and what has been written. -/
structure Copier where
  position : ℕ
  written : List UInt8
  deriving DecidableEq, Repr

section Copy

variable (kind : CopyKind) (calls : CopyCalls) (source : List UInt8) (bufferSize : ℕ)

/-- The body of the loop. -/
def copyBody (i : ℕ) (s : Copier) : Except Copier Copier :=
  let n := deliveredBy bufferSize (source.length - s.position) (calls.reads i)
  let buffer := readAt source s.position n
  let s := { s with position := s.position + n }
  let bytesRead := kind.convert (kind.returns (calls.reads i) n)
  -- an error, the end of the file and a conversion to a negative `int` are all passed over
  if 0 < bytesRead then
    let m := takenBy bytesRead.toNat (calls.writes i)
    let s := { s with written := s.written ++ buffer.take m }
    let bytesWritten := kind.convert (kind.returns (calls.writes i) m)
    if bytesWritten ≠ bytesRead then .error s else .ok s
  else .ok s

/-- `for (long i = 0; i < records; i++)`. -/
def copyLoop : ℕ → Copier → Except Copier Copier
  | 0, s => .ok s
  | n + 1, s => copyLoop n s >>= copyBody kind calls source bufferSize n

/-- The loop, and the status that is returned. -/
def copyWith (records : ℕ) : ℤ × List UInt8 :=
  match copyLoop kind calls source bufferSize records ⟨0, []⟩ with
  | .ok s => (0, s.written)
  | .error s => (-1, s.written)

end Copy

/-- `copy_sys`: its status and the destination. -/
def copySys (calls : CopyCalls) (source : List UInt8) (records bufferSize : ℕ) :
    ℤ × List UInt8 :=
  copyWith sysKind calls source bufferSize records

/-- `copy_lib`: what it has written is in the destination when `fclose` has flushed it. -/
def copyLib (calls : CopyCalls) (source : List UInt8) (records bufferSize : ℕ) :
    ℤ × List UInt8 :=
  let result := copyWith libKind calls source bufferSize records
  (result.1, match calls.kept with
    | none => result.2
    | some k => result.2.take k)

/-- A result of 0 means that the destination is what the records have of the source; the
only other result is -1. -/
def CopiesAll (source : List UInt8) (records bufferSize : ℕ) (result : ℤ × List UInt8) : Prop :=
  (result.1 = 0 → result.2 = source.take (min (records * bufferSize) source.length)) ∧
    (result.1 = 0 ∨ result.1 = -1)

/-! ### The reads -/

namespace CopyCalls

/-- The place in the source before the read `i`. -/
def position (calls : CopyCalls) (bufferSize length : ℕ) : ℕ → ℕ
  | 0 => 0
  | i + 1 => calls.position bufferSize length i +
      deliveredBy bufferSize (length - calls.position bufferSize length i) (calls.reads i)

/-- What the read `i` delivers. -/
def delivered (calls : CopyCalls) (bufferSize length i : ℕ) : ℕ :=
  deliveredBy bufferSize (length - calls.position bufferSize length i) (calls.reads i)

/-- The write `i` is made and does not take all that it is given. -/
def WriteShort (calls : CopyCalls) (kind : CopyKind) (bufferSize length i : ℕ) : Prop :=
  let given := kind.convert (calls.delivered bufferSize length i)
  0 < given ∧ (takenBy given.toNat (calls.writes i) : ℤ) < given

end CopyCalls

variable {kind : CopyKind} {calls : CopyCalls} {source : List UInt8}
  {bufferSize request left n i : ℕ} {s : Copier}

theorem deliveredBy_le (request left : ℕ) (outcome : Option ℕ) :
    deliveredBy request left outcome ≤ min request left := by
  cases outcome with
  | none => exact Nat.zero_le _
  | some k => exact min_le_right _ _

theorem takenBy_le (request : ℕ) (outcome : Option ℕ) : takenBy request outcome ≤ request := by
  cases outcome with
  | none => exact Nat.zero_le _
  | some k => exact min_le_right _ _

/-- The reads stay in front of the end of the file, and deliver what they are asked for at
most. -/
theorem position_le (calls : CopyCalls) (bufferSize length n : ℕ) :
    calls.position bufferSize length n ≤ min (n * bufferSize) length := by
  induction n with
  | zero => exact Nat.zero_le _
  | succ n ih =>
    have hle := deliveredBy_le bufferSize (length - calls.position bufferSize length n)
      (calls.reads n)
    rw [CopyCalls.position, Nat.succ_mul]
    omega

/-! ### Counts -/

/-- What the proofs use of a type of counts. -/
structure CopyKind.Lawful (kind : CopyKind) : Prop where
  failed_le : kind.convert kind.failed ≤ 0
  convert_zero : kind.convert 0 = 0
  convert_le : ∀ n : ℕ, kind.convert n ≤ n
  convert_eq : ∀ n m : ℕ, (m : ℤ) ≤ kind.convert n → kind.convert m = m

theorem toInt_lt (n : ℤ) : toInt n < 2 ^ 31 := by
  rw [toInt, Int.bmod_def]
  omega

theorem toInt_eq_self_iff (n : ℕ) : toInt n = n ↔ n < 2 ^ 31 := by
  refine ⟨fun h => ?_, toInt_of_lt⟩
  have := toInt_lt n
  omega

theorem toInt_le (n : ℕ) : toInt n ≤ n := by
  rw [toInt, Int.bmod_def]
  omega

theorem toInt_of_le_toInt (n m : ℕ) (h : (m : ℤ) ≤ toInt n) : toInt m = m := by
  refine (toInt_eq_self_iff m).mpr ?_
  have := toInt_lt n
  omega

@[simp] theorem sysKind_convert (n : ℤ) : sysKind.convert n = toInt n := rfl

theorem sysKind_lawful : sysKind.Lawful where
  failed_le := by
    have hneg : toInt (-1) ≤ 0 := by decide
    exact hneg
  convert_zero := by
    rw [sysKind_convert]
    decide
  convert_le n := by
    rw [sysKind_convert]
    exact toInt_le n
  convert_eq n m h := by
    rw [sysKind_convert] at h ⊢
    exact toInt_of_le_toInt n m h

theorem libKind_lawful : libKind.Lawful where
  failed_le := Int.le_refl 0
  convert_zero := rfl
  convert_le n := Int.le_refl n
  convert_eq _ _ _ := rfl

/-! ### One record -/

/-- The count of a read, as the loop has it, is positive iff that of its bytes is. -/
theorem convert_returns (h : kind.Lawful) (request left : ℕ) (outcome : Option ℕ) :
    (0 < kind.convert (kind.returns outcome (deliveredBy request left outcome)) ↔
        0 < kind.convert (deliveredBy request left outcome)) ∧
      (0 < kind.convert (deliveredBy request left outcome) →
        kind.convert (kind.returns outcome (deliveredBy request left outcome)) =
          kind.convert (deliveredBy request left outcome)) := by
  cases outcome with
  | none =>
    have hfailed : ¬0 < kind.convert (kind.returns none (deliveredBy request left none)) :=
      Int.not_lt.mpr h.failed_le
    have hzero : ¬0 < kind.convert ((0 : ℕ) : ℤ) := by
      rw [Int.natCast_zero, h.convert_zero]
      exact Int.lt_irrefl 0
    exact ⟨iff_of_false hfailed hzero, fun hpos => absurd hpos hzero⟩
  | some k => exact ⟨Iff.rfl, fun _ => rfl⟩

theorem copyBody_passes (h : kind.Lawful)
    (hs : s.position = calls.position bufferSize source.length i)
    (hgiven : ¬0 < kind.convert (calls.delivered bufferSize source.length i)) :
    copyBody kind calls source bufferSize i s =
      .ok { s with position := calls.position bufferSize source.length (i + 1) } := by
  rw [copyBody]
  simp only [hs]
  exact if_neg fun hpos => hgiven ((convert_returns h _ _ _).1.mp hpos)

theorem copyBody_writes (h : kind.Lawful)
    (hs : s.position = calls.position bufferSize source.length i)
    {c : ℕ} {given : ℤ} (hc : calls.delivered bufferSize source.length i = c)
    (hgiven : kind.convert c = given) (hpos : 0 < given) :
    copyBody kind calls source bufferSize i s =
      let m := takenBy given.toNat (calls.writes i)
      let s' : Copier := ⟨calls.position bufferSize source.length (i + 1),
        s.written ++ (readAt source s.position c).take m⟩
      if kind.convert (kind.returns (calls.writes i) m) ≠ given then .error s' else .ok s' := by
  subst hc hgiven
  obtain ⟨hpos_iff, heq⟩ := convert_returns h bufferSize
    (source.length - calls.position bufferSize source.length i) (calls.reads i)
  rw [copyBody]
  simp only [hs]
  rw [if_pos (hpos_iff.mpr hpos)]
  simp only [heq hpos]
  rfl

theorem copyBody_error (h : kind.Lawful)
    (hs : s.position = calls.position bufferSize source.length i)
    (hshort : calls.WriteShort kind bufferSize source.length i) :
    ∃ s', copyBody kind calls source bufferSize i s = .error s' := by
  obtain ⟨hpos, hlt⟩ := hshort
  rw [copyBody_writes h hs rfl rfl hpos]
  refine ⟨_, if_pos ?_⟩
  cases hw : calls.writes i with
  | none =>
    have hfailed : kind.convert (kind.returns none
        (takenBy (kind.convert (calls.delivered bufferSize source.length i)).toNat none)) ≤ 0 :=
      h.failed_le
    omega
  | some k =>
    rw [hw] at hlt
    have hsame := h.convert_eq _ _ (Int.le_of_lt hlt)
    have hreturns : kind.convert (kind.returns (some k) (takenBy
        (kind.convert (calls.delivered bufferSize source.length i)).toNat (some k))) =
        kind.convert (takenBy
          (kind.convert (calls.delivered bufferSize source.length i)).toNat (some k)) := rfl
    rw [hreturns, hsame]
    omega

/-- What a read has delivered, as far as its count in the loop goes, is written. -/
theorem copyBody_ok (h : kind.Lawful)
    (hs : s.position = calls.position bufferSize source.length i)
    (hshort : ¬calls.WriteShort kind bufferSize source.length i) :
    copyBody kind calls source bufferSize i s =
      .ok ⟨calls.position bufferSize source.length (i + 1), s.written ++
        (readAt source s.position (calls.delivered bufferSize source.length i)).take
          (kind.convert (calls.delivered bufferSize source.length i)).toNat⟩ := by
  -- nothing is asked of `write` when `read` gave nothing, or more than an `int` holds
  by_cases hpos : 0 < kind.convert (calls.delivered bufferSize source.length i)
  · have hle := takenBy_le (kind.convert (calls.delivered bufferSize source.length i)).toNat
      (calls.writes i)
    have hge := Int.not_lt.mp fun hlt => hshort ⟨hpos, hlt⟩
    have hall : takenBy (kind.convert (calls.delivered bufferSize source.length i)).toNat
        (calls.writes i) = (kind.convert (calls.delivered bufferSize source.length i)).toNat := by
      omega
    have hcast := Int.toNat_of_nonneg (Int.le_of_lt hpos)
    rw [copyBody_writes h hs rfl rfl hpos]
    simp only [hall]
    refine if_neg (not_not.mpr ?_)
    -- a write that fails takes nothing, which would be short
    cases hw : calls.writes i with
    | none =>
      rw [hw] at hall
      have hzero : (0 : ℕ) = (kind.convert (calls.delivered bufferSize source.length i)).toNat :=
        hall
      omega
    | some k =>
      have hreturns : kind.returns (some k)
          (kind.convert (calls.delivered bufferSize source.length i)).toNat =
          kind.convert (calls.delivered bufferSize source.length i) := hcast
      have hsame := h.convert_eq (calls.delivered bufferSize source.length i) _ (Int.le_of_eq hcast)
      rw [hreturns]
      rwa [hcast] at hsame
  · rw [copyBody_passes h hs hpos, Int.toNat_of_nonpos (Int.not_lt.mp hpos), List.take_zero,
      List.append_nil]

/-! ### The loop -/

/-- The variables after `n` records: all that has been read is written, if no conversion
has changed a count. -/
structure Copied (kind : CopyKind) (calls : CopyCalls) (source : List UInt8) (bufferSize n : ℕ)
    (s : Copier) : Prop where
  position : s.position = calls.position bufferSize source.length n
  length_le : s.written.length ≤ s.position
  written : (∀ i < n, kind.convert (calls.delivered bufferSize source.length i) =
    calls.delivered bufferSize source.length i) → s.written = source.take s.position
  gap : (∃ i < n, kind.convert (calls.delivered bufferSize source.length i) ≠
    calls.delivered bufferSize source.length i) → s.written.length < s.position

theorem Copied.step (h : kind.Lawful) (hs : Copied kind calls source bufferSize n s)
    (hshort : ¬calls.WriteShort kind bufferSize source.length n) :
    ∃ s', copyBody kind calls source bufferSize n s = .ok s' ∧
      Copied kind calls source bufferSize (n + 1) s' := by
  refine ⟨_, copyBody_ok h hs.position hshort, ?_⟩
  obtain ⟨c, hc⟩ : ∃ c, calls.delivered bufferSize source.length n = c := ⟨_, rfl⟩
  have hnext : calls.position bufferSize source.length (n + 1) = s.position + c := by
    rw [CopyCalls.position, hs.position, ← hc]
    rfl
  have hleft : c ≤ source.length - s.position := by
    rw [hs.position, ← hc]
    exact (deliveredBy_le _ _ _).trans (min_le_right _ _)
  have hread : (readAt source s.position c).length = c := by
    rw [length_readAt, Nat.min_eq_left hleft]
  have hle := h.convert_le c
  have hzero := h.convert_zero
  have hlen : ((readAt source s.position c).take (kind.convert c).toNat).length =
      (kind.convert c).toNat := by
    rw [List.length_take, hread]
    omega
  rw [hnext, hc]
  refine ⟨hnext.symm, ?_, ?_, ?_⟩
  · have := hs.length_le
    simp only [List.length_append, hlen]
    omega
  · -- as long as every count is kept by the conversion, nothing is lost
    intro hall
    have hsame := hall n (Nat.lt_succ_self n)
    rw [hc] at hsame
    simp only [hs.written fun i hi => hall i (Nat.lt_succ_of_lt hi), hsame, Int.toNat_natCast]
    rw [List.take_of_length_le hread.le, readAt, List.take_add]
  · rintro ⟨i, hi, hne⟩
    have hbefore := hs.length_le
    simp only [List.length_append, hlen]
    rcases Nat.lt_succ_iff_lt_or_eq.mp hi with hlt | rfl
    · -- the first read whose count is not kept leaves a gap for good
      have := hs.gap ⟨i, hlt, hne⟩
      omega
    · rw [hc] at hne
      have hpos : c ≠ 0 := by
        rintro rfl
        exact hne hzero
      omega

/-- Where no write falls short all records are copied. -/
theorem copyLoop_ok (h : kind.Lawful)
    (hshort : ∀ i < n, ¬calls.WriteShort kind bufferSize source.length i) :
    ∃ s, copyLoop kind calls source bufferSize n ⟨0, []⟩ = .ok s ∧
      Copied kind calls source bufferSize n s := by
  induction n with
  | zero =>
    refine ⟨_, rfl, rfl, le_rfl, fun _ => rfl, ?_⟩
    rintro ⟨i, hi, -⟩
    exact absurd hi (Nat.not_lt_zero i)
  | succ n ih =>
    obtain ⟨s, hrun, hs⟩ := ih fun i hi => hshort i (Nat.lt_succ_of_lt hi)
    obtain ⟨s', hbody, hs'⟩ := hs.step h (hshort n (Nat.lt_succ_self n))
    refine ⟨s', ?_, hs'⟩
    rw [copyLoop, hrun]
    exact hbody

/-- The first write that falls short ends the loop. -/
theorem copyLoop_error (h : kind.Lawful)
    (hshort : ∃ i < n, calls.WriteShort kind bufferSize source.length i) :
    ∃ s, copyLoop kind calls source bufferSize n ⟨0, []⟩ = .error s := by
  induction n with
  | zero =>
    obtain ⟨i, hi, -⟩ := hshort
    -- every write is complete: what is left is where the reads end and what they gave
    exact absurd hi (Nat.not_lt_zero i)
  | succ n ih =>
    rw [copyLoop]
    by_cases hbefore : ∃ i < n, calls.WriteShort kind bufferSize source.length i
    · obtain ⟨s, hrun⟩ := ih hbefore
      exact ⟨s, by rw [hrun]; rfl⟩
    · push Not at hbefore
      obtain ⟨i, hi, hstop⟩ := hshort
      have hin : i = n := by
        by_contra hne
        exact hbefore i (by omega) hstop
      obtain ⟨s, hrun, hs⟩ := copyLoop_ok h hbefore
      obtain ⟨s', hbody⟩ := copyBody_error h hs.position (hin ▸ hstop)
      exact ⟨s', by rw [hrun]; exact hbody⟩

/-! ### The functions -/

variable {records : ℕ}

/-- What reaches the destination is all of it iff the reads have come to the end, no count
has changed, and nothing is lost behind the loop. -/
theorem Copied.take_eq_iff (hs : Copied kind calls source bufferSize records s) (k : ℕ) :
    s.written.take k = source.take (min (records * bufferSize) source.length) ↔
      (calls.position bufferSize source.length records =
          min (records * bufferSize) source.length ∧
        ∀ i < records, kind.convert (calls.delivered bufferSize source.length i) =
          calls.delivered bufferSize source.length i) ∧
        min (records * bufferSize) source.length ≤ k := by
  have hle := position_le calls bufferSize source.length records
  rw [← hs.position] at hle ⊢
  constructor
  · intro heq
    have hlen := congrArg List.length heq
    rw [List.length_take, List.length_take] at hlen
    have hwritten := hs.length_le
    have hsame : ∀ i < records, kind.convert (calls.delivered bufferSize source.length i) =
        calls.delivered bufferSize source.length i := by
      by_contra hne
      push Not at hne
      have := hs.gap hne
      omega
    exact ⟨⟨by omega, hsame⟩, by omega⟩
  · rintro ⟨⟨hposition, hsame⟩, hk⟩
    rw [hs.written hsame, hposition, List.take_take, Nat.min_eq_right hk]

theorem Copied.eq_iff (hs : Copied kind calls source bufferSize records s) :
    s.written = source.take (min (records * bufferSize) source.length) ↔
      calls.position bufferSize source.length records =
          min (records * bufferSize) source.length ∧
        ∀ i < records, kind.convert (calls.delivered bufferSize source.length i) =
          calls.delivered bufferSize source.length i := by
  have htake := hs.take_eq_iff s.written.length
  rw [List.take_length] at htake
  rw [htake]
  refine and_iff_left_of_imp fun h => ?_
  rw [hs.written h.2, hs.position, h.1, List.length_take]
  omega

/-- A write that falls short is reported. -/
theorem copyWith_short (h : kind.Lawful)
    (hshort : ∃ i < records, calls.WriteShort kind bufferSize source.length i) :
    (copyWith kind calls source bufferSize records).1 = -1 := by
  obtain ⟨s, hrun⟩ := copyLoop_error h hshort
  rw [copyWith, hrun]

/-- Otherwise the result is 0, and the destination need not be complete. -/
theorem copyWith_zero (h : kind.Lawful)
    (hshort : ¬∃ i < records, calls.WriteShort kind bufferSize source.length i) :
    ∃ s, copyWith kind calls source bufferSize records = (0, s.written) ∧
      Copied kind calls source bufferSize records s := by
  push Not at hshort
  obtain ⟨s, hrun, hs⟩ := copyLoop_ok h hshort
  exact ⟨s, by rw [copyWith, hrun], hs⟩

theorem copiesAll_of_neg {result : ℤ × List UInt8} (h : result.1 = -1) :
    CopiesAll source records bufferSize result := by
  refine ⟨fun hzero => ?_, Or.inr h⟩
  have hne : (-1 : ℤ) ≠ 0 := by decide
  exact absurd (h.symm.trans hzero) hne

theorem copiesAll_zero_iff (l : List UInt8) :
    CopiesAll source records bufferSize (0, l) ↔
      l = source.take (min (records * bufferSize) source.length) :=
  ⟨fun h => h.1 rfl, fun h => ⟨fun _ => h, Or.inl rfl⟩⟩

/-- **When the two functions keep their word**: a write falls short and is reported, or
the reads deliver all bytes, in counts that fit an `int` or with nothing lost in `fclose`. -/
theorem copies_all_iff (calls : CopyCalls) (source : List UInt8) (records bufferSize : ℕ) :
    (CopiesAll source records bufferSize (copySys calls source records bufferSize) ↔
        (∃ i < records, calls.WriteShort sysKind bufferSize source.length i) ∨
          calls.position bufferSize source.length records =
              min (records * bufferSize) source.length ∧
            ∀ i < records, calls.delivered bufferSize source.length i < 2 ^ 31) ∧
      (CopiesAll source records bufferSize (copyLib calls source records bufferSize) ↔
        (∃ i < records, calls.WriteShort libKind bufferSize source.length i) ∨
          calls.position bufferSize source.length records =
              min (records * bufferSize) source.length ∧
            ∀ k, calls.kept = some k → min (records * bufferSize) source.length ≤ k) := by
  constructor
  · rw [copySys]
    by_cases hshort : ∃ i < records, calls.WriteShort sysKind bufferSize source.length i
    · exact iff_of_true (copiesAll_of_neg (copyWith_short sysKind_lawful hshort)) (Or.inl hshort)
    · obtain ⟨s, hwith, hs⟩ := copyWith_zero sysKind_lawful hshort
      rw [hwith, or_iff_right hshort, copiesAll_zero_iff, hs.eq_iff]
      simp only [sysKind_convert, toInt_eq_self_iff]
  · rw [copyLib]
    by_cases hshort : ∃ i < records, calls.WriteShort libKind bufferSize source.length i
    · exact iff_of_true (copiesAll_of_neg (copyWith_short libKind_lawful hshort)) (Or.inl hshort)
    · obtain ⟨s, hwith, hs⟩ := copyWith_zero libKind_lawful hshort
      rw [hwith, or_iff_right hshort]
      have hsame : ∀ i < records, libKind.convert (calls.delivered bufferSize source.length i) =
          calls.delivered bufferSize source.length i := fun _ _ => rfl
      -- `fwrite` has only filled the buffer, and `fclose` decides what comes into the file
      cases hkept : calls.kept with
      | none =>
        rw [copiesAll_zero_iff, hs.eq_iff]
        exact and_congr_right fun _ => iff_of_true hsame fun k hk => absurd hk (by simp)
      | some k =>
        rw [copiesAll_zero_iff, hs.take_eq_iff, and_iff_left hsame]
        refine and_congr_right fun _ => ⟨fun hle k' hk' => ?_, fun h => h k rfl⟩
        rwa [← Option.some.inj hk']

/-- The only read fails. -/
def failedRead : CopyCalls := ⟨fun _ => none, fun _ => some 7, none⟩

/-- All calls succeed, and `fclose` finds the disk full. -/
def fullDisk : CopyCalls := ⟨fun _ => some 7, fun _ => some 7, some 0⟩

/-- Both functions return 0 with an empty destination: `copy_sys` after a read that has
failed, `copy_lib` when `fclose` cannot flush what it has written. -/
theorem failures_unnoticed :
    copySys failedRead [5, 6] 1 2 = (0, []) ∧ copyLib fullDisk [5, 6] 1 2 = (0, []) ∧
      ¬CopiesAll [5, 6] 1 2 (copySys failedRead [5, 6] 1 2) ∧
      ¬CopiesAll [5, 6] 1 2 (copyLib fullDisk [5, 6] 1 2) :=
  ⟨by decide, by decide, fun h => absurd (h.1 (by decide)) (by decide),
    fun h => absurd (h.1 (by decide)) (by decide)⟩

end FileIo
end OpSys
