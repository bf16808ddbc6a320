import Mathlib.Order.Nat
import OpSys.Lib.Records

/-!
# Filling a file with random bytes

`generate`, from the point where the file and the random source are open.  A `read` may
return less than it is asked for, and the loop asks again; a `write` may too, and is an
error then.  Its result is compared with the unsigned size of a record, and as an unsigned
number -1 is greater than that: a `write` that fails passes for one that wrote everything.

## Main definitions

* `Device` — what the calls return, and the bytes of the random source.
* `fill`, `store`, `generate` — the inner loop, the `write` behind it, and the function.
* `Faithful` — the result is 0 only with all bytes written, and -1 if a call fell short.

## Main results

* `fill_cases` — a record is filled, or a `read` fails.
* `generateLoop_ok`, `generateLoop_error` — how the outer loop ends.
* `generate_faithful_iff` — the result is right iff no `write` fails, or another failure
  ends the run.

## References

`lab2_file_system/system_vs_lib_io/program.c`.
-/

namespace OpSys
namespace FileIo

open Records

/-- The bytes of the random source, and the results of the attempts to read and write each
record: `none` is -1, and `some k` is `k + 1` or, if that is less, what was asked for. -/
structure Device where
  random : ℕ → UInt8
  reads : ℕ → ℕ → Option ℕ
  writes : ℕ → Option ℕ

namespace Device

/-- The result of a call that is asked for `request` bytes. -/
def result (request : ℕ) : Option ℕ → ℤ
  | none => -1
  | some k => (min (k + 1) request : ℕ)

/-- The bytes of the random source from `start` on. -/
def bytes (d : Device) (start n : ℕ) : List UInt8 :=
  (List.range n).map fun k => d.random (start + k)

/-- What the first `a` reads for record `i` may deliver at most. -/
def delivered (d : Device) (i : ℕ) : ℕ → ℕ
  | 0 => 0
  | a + 1 => d.delivered i a + (d.reads i a).elim 0 (· + 1)

/-- A read for record `i` fails before the record is full. -/
def ReadFails (d : Device) (size i : ℕ) : Prop :=
  ∃ a, d.reads i a = none ∧ d.delivered i a < size

/-- The write of record `i` transfers something, but less than the record. -/
def WriteShort (d : Device) (size i : ℕ) : Prop := ∃ k, d.writes i = some k ∧ k + 1 < size

end Device

/-- The file, the first `data_read` bytes of `random_data`, the number of bytes taken from
the random source, and the results of the calls so far. -/
structure Generator where
  file : List UInt8
  data : List UInt8
  taken : ℕ
  readResults : List ℤ
  writeResults : List ℤ
  deriving DecidableEq, Repr

section Generate

variable (d : Device) (size : ℕ)

/-- `while (data_read < sizeof(random_data))`, the attempt `a` for record `i`.  A read
delivers a byte at least, so `size` rounds are enough. -/
def fill (i : ℕ) : ℕ → ℕ → Generator → Except Generator Generator
  | 0, _, g => .ok g
  | fuel + 1, a, g =>
    if g.data.length < size then
      let result := Device.result (size - g.data.length) (d.reads i a)
      let g := { g with readResults := g.readResults ++ [result] }
      if result < 0 then .error g
      else fill i fuel (a + 1) { g with
        data := g.data ++ d.bytes g.taken result.toNat
        taken := g.taken + result.toNat }
    else .ok g

/-- The `write` of record `i`, and the test of its result. -/
def store (i : ℕ) (g : Generator) : Except Generator Generator :=
  let dataWritten := Device.result size (d.writes i)
  let g := { g with
    file := g.file ++ g.data.take dataWritten.toNat
    writeResults := g.writeResults ++ [dataWritten] }
  -- the comparison with `sizeof` converts `data_written` to `size_t`
  if toSizeT dataWritten < size then .error g else .ok g

/-- The body of the outer loop. -/
def generateBody (i : ℕ) (g : Generator) : Except Generator Generator :=
  fill d size i size 0 { g with data := [] } >>= store d size i

/-- `for (long i = 0; i < records; i++)`. -/
def generateLoop : ℕ → Generator → Except Generator Generator
  | 0, g => .ok g
  | n + 1, g => generateLoop n g >>= generateBody d size n

/-- `generate`, from the point where the files are open: the result and the variables. -/
def generate (records : ℕ) : ℤ × Generator :=
  match generateLoop d size records ⟨[], [], 0, [], []⟩ with
  | .ok g => (0, g)
  | .error g => (-1, g)

/-- A result of 0 means that the file holds the random bytes, and a call that fell short
means a result of -1. -/
def Faithful (records : ℕ) : Prop :=
  ((generate d size records).1 = 0 →
    (generate d size records).2.file = d.bytes 0 (records * size)) ∧
  ((-1 ∈ (generate d size records).2.readResults ∨
      ∃ w ∈ (generate d size records).2.writeResults, w < size) →
    (generate d size records).1 = -1)

end Generate

variable {d : Device} {size i a n fuel : ℕ} {g g' : Generator}

/-! ### The random source -/

@[simp] theorem length_bytes (d : Device) (start n : ℕ) : (d.bytes start n).length = n := by
  rw [Device.bytes, List.length_map, List.length_range]

@[simp] theorem bytes_append (d : Device) (start m n : ℕ) :
    d.bytes start m ++ d.bytes (start + m) n = d.bytes start (m + n) := by
  rw [Device.bytes, Device.bytes, Device.bytes, List.range_add, List.map_append, List.map_map]
  simp only [Function.comp_def, Nat.add_assoc]

@[simp] theorem result_none (request : ℕ) : Device.result request none = -1 := rfl

@[simp] theorem result_some (request k : ℕ) :
    Device.result request (some k) = (min (k + 1) request : ℕ) := rfl

theorem delivered_mono (d : Device) (i : ℕ) {a b : ℕ} (h : a ≤ b) :
    d.delivered i a ≤ d.delivered i b := by
  induction h with
  | refl => exact le_rfl
  | step _ ih => exact ih.trans (Nat.le_add_right _ _)

/-! ### One record -/

/-- Reads that did not fail have filled the record. -/
theorem not_readFails_of_full (hlen : g.data.length = min size (d.delivered i a))
    (hok : ∀ b < a, d.reads i b ≠ none) (hfull : size ≤ g.data.length) :
    ¬d.ReadFails size i := by
  rintro ⟨c, hc, hlt⟩
  rcases Nat.lt_or_ge c a with hca | hac
  · exact hok c hca hc
  · have := delivered_mono d i hac
    omega

/-- What a record that has been filled leaves behind. -/
structure Filled (d : Device) (size : ℕ) (g g' : Generator) : Prop where
  data : g'.data = g.data ++ d.bytes g.taken (size - g.data.length)
  taken : g'.taken = g.taken + (size - g.data.length)
  file : g'.file = g.file
  writeResults : g'.writeResults = g.writeResults
  readResults : ∀ r ∈ g'.readResults, r ∈ g.readResults ∨ 0 ≤ r

theorem Filled.refl (h : size ≤ g.data.length) : Filled d size g g := by
  have hzero : size - g.data.length = 0 := Nat.sub_eq_zero_of_le h
  refine ⟨?_, ?_, rfl, rfl, fun r hr => Or.inl hr⟩
  · rw [hzero]
    exact (List.append_nil _).symm
  · rw [hzero, Nat.add_zero]

/-- A read that delivers `m` bytes. -/
theorem fill_succ {k m : ℕ} (hlt : g.data.length < size) (hread : d.reads i a = some k)
    (hm : min (k + 1) (size - g.data.length) = m) :
    fill d size i (fuel + 1) a g = fill d size i fuel (a + 1) { g with
      data := g.data ++ d.bytes g.taken m
      taken := g.taken + m
      readResults := g.readResults ++ [(m : ℤ)] } := by
  have hnonneg : ¬(m : ℤ) < 0 := Int.not_lt.mpr (Int.natCast_nonneg m)
  rw [fill, if_pos hlt]
  simp only [hread, result_some, hm, Int.toNat_natCast]
  exact if_neg hnonneg

/-- Enough rounds fill the record, or come to a read that fails. -/
theorem fill_cases (hfuel : size ≤ fuel + g.data.length)
    (hlen : g.data.length = min size (d.delivered i a)) (hok : ∀ b < a, d.reads i b ≠ none) :
    (¬d.ReadFails size i ∧ ∃ g', fill d size i fuel a g = .ok g' ∧ Filled d size g g') ∨
      d.ReadFails size i ∧ ∃ g', fill d size i fuel a g = .error g' := by
  -- on the number of reads that may still be needed
  induction fuel generalizing a g with
  | zero =>
    have hfull : size ≤ g.data.length := by omega
    exact Or.inl ⟨not_readFails_of_full hlen hok hfull, g, rfl, Filled.refl hfull⟩
  | succ fuel ih =>
    by_cases hlt : g.data.length < size
    · cases hread : d.reads i a with
      | none =>
        rw [fill, if_pos hlt, hread]
        -- `read(2)` of -1: `i < 0`, and the loop ends
        exact Or.inr ⟨⟨a, hread, by omega⟩, _, if_pos (Int.negSucc_lt_zero 0)⟩
      | some k =>
        -- a read gives at least one byte and at most what is missing
        obtain ⟨m, hm⟩ : ∃ m, min (k + 1) (size - g.data.length) = m := ⟨_, rfl⟩
        rw [fill_succ hlt hread hm]
        have hdel : d.delivered i (a + 1) = d.delivered i a + (k + 1) := by
          rw [Device.delivered, hread]
          rfl
        have hok' : ∀ b < a + 1, d.reads i b ≠ none := by
          intro b hb
          rcases Nat.lt_succ_iff_lt_or_eq.mp hb with hb | rfl
          · exact hok b hb
          · rw [hread]
            exact Option.some_ne_none k
        have hnext := ih (a := a + 1) (g := { g with
          data := g.data ++ d.bytes g.taken m
          taken := g.taken + m
          readResults := g.readResults ++ [(m : ℤ)] })
          (by simp only [List.length_append, length_bytes]; omega)
          (by simp only [List.length_append, length_bytes, hdel]; omega) hok'
        refine hnext.imp_left (And.imp_right ?_)
        rintro ⟨g', hrun, h⟩
        have hlen' : size - (g.data ++ d.bytes g.taken m).length = size - g.data.length - m := by
          rw [List.length_append, length_bytes]
          omega
        refine ⟨g', hrun, ?_, ?_, h.file, h.writeResults, fun r hr => ?_⟩
        · rw [h.data]
          simp only [hlen']
          rw [List.append_assoc, bytes_append, Nat.add_sub_cancel' (by omega)]
        · rw [h.taken]
          simp only [hlen']
          omega
        · rcases h.readResults r hr with hmem | hnonneg'
          · rcases List.mem_append.mp hmem with hmem | hmem
            · exact Or.inl hmem
            · rw [List.mem_singleton.mp hmem]
              exact Or.inr (Int.natCast_nonneg m)
          · exact Or.inr hnonneg'
    · have hfull := Nat.le_of_not_lt hlt
      rw [fill, if_neg hlt]
      exact Or.inl ⟨not_readFails_of_full hlen hok hfull, g, rfl, Filled.refl hfull⟩

/-! ### The write -/

/-- Only a positive short count is found. -/
theorem toSizeT_result_lt_iff (hpos : 0 < size) (hsize : size < 2 ^ 63) (w : Option ℕ) :
    toSizeT (Device.result size w) < size ↔ ∃ k, w = some k ∧ k + 1 < size := by
  cases w with
  | none =>
    have hmax : toSizeT (-1) = 2 ^ 64 - 1 := by decide
    rw [result_none, hmax]
    exact iff_of_false (by omega) (by simp)
  | some k =>
    have hsame : toSizeT (min (k + 1) size : ℕ) = min (k + 1) size := by
      rw [toSizeT]
      omega
    rw [result_some, hsame]
    constructor
    · intro h
      exact ⟨k, rfl, by omega⟩
    · rintro ⟨k', hk, hlt⟩
      obtain rfl := Option.some.inj hk
      omega

theorem store_error (hpos : 0 < size) (hsize : size < 2 ^ 63) (h : d.WriteShort size i)
    (g : Generator) : ∃ g', store d size i g = .error g' :=
  ⟨_, if_pos ((toSizeT_result_lt_iff hpos hsize _).mpr h)⟩

theorem store_ok (hpos : 0 < size) (hsize : size < 2 ^ 63) (h : ¬d.WriteShort size i)
    (g : Generator) : store d size i g = .ok { g with
      file := g.file ++ g.data.take (Device.result size (d.writes i)).toNat
      writeResults := g.writeResults ++ [Device.result size (d.writes i)] } :=
  if_neg fun hlt => h ((toSizeT_result_lt_iff hpos hsize _).mp hlt)

/-! ### The loop -/

/-- A read of record `i` fails, or its write falls short without failing. -/
def Device.Stops (d : Device) (size i : ℕ) : Prop := d.ReadFails size i ∨ d.WriteShort size i

theorem fill_record (d : Device) (size i : ℕ) (g : Generator) :
    (¬d.ReadFails size i ∧ ∃ g', fill d size i size 0 { g with data := [] } = .ok g' ∧
        Filled d size { g with data := [] } g') ∨
      d.ReadFails size i ∧ ∃ g', fill d size i size 0 { g with data := [] } = .error g' :=
  fill_cases (Nat.le_add_right _ _) (Nat.min_zero size).symm fun _ hb =>
    absurd hb (Nat.not_lt_zero _)

theorem generateBody_error (hpos : 0 < size) (hsize : size < 2 ^ 63) (h : d.Stops size i)
    (g : Generator) : ∃ g', generateBody d size i g = .error g' := by
  rw [generateBody]
  rcases fill_record d size i g with ⟨hread, g₁, hfill, -⟩ | ⟨-, g₁, hfill⟩
  · obtain ⟨g₂, hstore⟩ := store_error hpos hsize (h.resolve_left hread) g₁
    exact ⟨g₂, by rw [hfill]; exact hstore⟩
  · exact ⟨g₁, by rw [hfill]; rfl⟩

/-- The variables after `n` records: a `write` that failed has left a gap. -/
structure Generated (d : Device) (size n : ℕ) (g : Generator) : Prop where
  taken : g.taken = n * size
  reads_ok : ∀ r ∈ g.readResults, 0 ≤ r
  failed : ∀ i < n, d.writes i = none → -1 ∈ g.writeResults
  file : (∀ i < n, d.writes i ≠ none) → g.file = d.bytes 0 (n * size)
  writes_ok : (∀ i < n, d.writes i ≠ none) → ∀ w ∈ g.writeResults, w = size

theorem Generated.step (h : Generated d size n g) (hpos : 0 < size) (hsize : size < 2 ^ 63)
    (hn : ¬d.Stops size n) :
    ∃ g', generateBody d size n g = .ok g' ∧ Generated d size (n + 1) g' := by
  obtain ⟨hread, hshort⟩ := not_or.mp hn
  obtain ⟨-, g₁, hfill, hfilled⟩ := (fill_record d size n g).resolve_right fun h => hread h.1
  have hdata : g₁.data = d.bytes (n * size) size := by
    rw [hfilled.data, ← h.taken]
    rfl
  -- a write that succeeds and is not short takes the whole record
  have hfull : d.writes n ≠ none → Device.result size (d.writes n) = size := by
    intro hsome
    obtain ⟨k, hk⟩ := Option.ne_none_iff_exists'.mp hsome
    have hlong : size ≤ k + 1 := Nat.le_of_not_lt fun hlt => hshort ⟨k, hk, hlt⟩
    rw [hk, result_some, Nat.min_eq_right hlong]
  have hbelow : (∀ i < n + 1, d.writes i ≠ none) → ∀ i < n, d.writes i ≠ none :=
    fun hall i hi => hall i (Nat.lt_succ_of_lt hi)
  rw [generateBody, hfill]
  refine ⟨_, store_ok hpos hsize hshort g₁, ?_, ?_, ?_, ?_, ?_⟩
  · simp only [hfilled.taken, h.taken]
    exact (Nat.succ_mul n size).symm
  · intro r hr
    exact (hfilled.readResults r hr).elim (h.reads_ok r) id
  · intro i hi hnone
    simp only [hfilled.writeResults]
    rcases Nat.lt_succ_iff_lt_or_eq.mp hi with hlt | rfl
    · exact List.mem_append_left _ (h.failed i hlt hnone)
    · rw [hnone]
      -- a write of -1 is not less than the unsigned size, so its record is lost
      exact List.mem_append_right _ List.mem_cons_self
  · intro hall
    simp only [hfilled.file, h.file (hbelow hall), hfull (hall n (Nat.lt_succ_self n)), hdata,
      Int.toNat_natCast]
    rw [List.take_of_length_le (length_bytes _ _ _).le, Nat.succ_mul, ← bytes_append,
      Nat.zero_add]
  · intro hall w hw
    simp only [hfilled.writeResults] at hw
    rcases List.mem_append.mp hw with hmem | hmem
    · exact h.writes_ok (hbelow hall) w hmem
    · rw [List.mem_singleton.mp hmem]
      exact hfull (hall n (Nat.lt_succ_self n))

/-- Without a stop all records are tried. -/
theorem generateLoop_ok (hpos : 0 < size) (hsize : size < 2 ^ 63)
    (h : ∀ i < n, ¬d.Stops size i) :
    ∃ g, generateLoop d size n ⟨[], [], 0, [], []⟩ = .ok g ∧ Generated d size n g := by
  induction n with
  | zero =>
    refine ⟨_, rfl, (Nat.zero_mul size).symm, ?_, ?_, ?_, ?_⟩
    · exact fun r hr => absurd hr List.not_mem_nil
    · exact fun i hi => absurd hi (Nat.not_lt_zero i)
    · intro _
      rw [Nat.zero_mul]
      rfl
    · exact fun _ w hw => absurd hw List.not_mem_nil
  | succ n ih =>
    obtain ⟨g, hrun, hg⟩ := ih fun i hi => h i (Nat.lt_succ_of_lt hi)
    obtain ⟨g', hbody, hg'⟩ := hg.step hpos hsize (h n (Nat.lt_succ_self n))
    refine ⟨g', ?_, hg'⟩
    rw [generateLoop, hrun]
    exact hbody

/-- The first stop ends the loop. -/
theorem generateLoop_error (hpos : 0 < size) (hsize : size < 2 ^ 63)
    (h : ∃ i < n, d.Stops size i) :
    ∃ g, generateLoop d size n ⟨[], [], 0, [], []⟩ = .error g := by
  induction n with
  | zero =>
    obtain ⟨i, hi, -⟩ := h
    exact absurd hi (Nat.not_lt_zero i)
  | succ n ih =>
    rw [generateLoop]
    by_cases hbefore : ∃ i < n, d.Stops size i
    · obtain ⟨g, hrun⟩ := ih hbefore
      exact ⟨g, by rw [hrun]; rfl⟩
    · push Not at hbefore
      obtain ⟨i, hi, hstop⟩ := h
      have hin : i = n := by
        by_contra hne
        exact hbefore i (by omega) hstop
      obtain ⟨g, hrun, -⟩ := generateLoop_ok hpos hsize hbefore
      obtain ⟨g', hbody⟩ := generateBody_error hpos hsize (hin ▸ hstop) g
      exact ⟨g', by rw [hrun]; exact hbody⟩

/-- **The result of `generate` is right** iff no `write` fails, or else a `read` fails
before its record is full or a `write` falls short without failing. -/
theorem generate_faithful_iff (d : Device) (records size : ℕ) (hpos : 1 ≤ size)
    (hsize : size < 2 ^ 63) :
    Faithful d size records ↔ (∀ i < records, d.writes i ≠ none) ∨
      ∃ i < records, d.ReadFails size i ∨ d.WriteShort size i := by
  -- the loop stops at the first read that fails or write that is short
  by_cases hstops : ∃ i < records, d.Stops size i
  · obtain ⟨g, hrun⟩ := generateLoop_error hpos hsize hstops
    refine iff_of_true ?_ (Or.inr hstops)
    rw [Faithful, generate, hrun]
    have hne : (-1 : ℤ) ≠ 0 := by decide
    exact ⟨fun h => absurd h hne, fun _ => rfl⟩
  · have hnone := hstops
    push Not at hnone
    obtain ⟨g, hrun, hg⟩ := generateLoop_ok hpos hsize hnone
    rw [Faithful, generate, hrun]
    constructor
    · -- the -1 is in the results, and nothing has reported it
      rintro ⟨-, hreported⟩
      refine Or.inl fun i hi hwrite => ?_
      have hshort : ∃ w ∈ g.writeResults, w < (size : ℤ) :=
        ⟨-1, hg.failed i hi hwrite,
          Int.lt_of_lt_of_le (Int.negSucc_lt_zero 0) (Int.natCast_nonneg size)⟩
      have hne : (0 : ℤ) ≠ -1 := by decide
      exact hne (hreported (Or.inr hshort))
    · rintro (hwrites | hstop)
      · refine ⟨fun _ => hg.file hwrites, ?_⟩
        rintro (hread | ⟨w, hw, hlt⟩)
        · exact absurd (hg.reads_ok _ hread) (by decide)
        · rw [hg.writes_ok hwrites w hw] at hlt
          exact absurd hlt (Int.lt_irrefl _)
      · exact absurd hstop hstops

/-- A source that delivers one byte a read, and a disk that takes all. -/
def slowSource : Device where
  random := fun k => UInt8.ofNat (k + 65)
  reads := fun _ _ => some 0
  writes := fun _ => some 7

theorem slow_source_faithful : 1 ≤ 2 ∧ 2 < 2 ^ 63 ∧ Faithful slowSource 2 3 :=
  ⟨by decide, by decide, (generate_faithful_iff slowSource 3 2 (by decide) (by decide)).mpr
    (Or.inl fun _ _ => Option.some_ne_none 7)⟩

/-- A disk that takes nothing. -/
def brokenDisk : Device := { slowSource with writes := fun _ => none }

/-- Every `write` fails, the file is empty, and the result is 0. -/
theorem failed_write_unnoticed :
    (generate brokenDisk 2 3).1 = 0 ∧ (generate brokenDisk 2 3).2.file = [] ∧
      (generate brokenDisk 2 3).2.writeResults = [-1, -1, -1] ∧ ¬Faithful brokenDisk 2 3 :=
  ⟨by decide, by decide, by decide, fun h => absurd (h.1 (by decide)) (by decide)⟩

end FileIo
end OpSys
