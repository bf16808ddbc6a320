import Mathlib.Algebra.Group.Int.Defs
import Mathlib.Algebra.Group.Nat.Defs
import Mathlib.Data.Int.Notation
import Mathlib.Data.List.Basic

/-!
# Files of records

A file is the list of its bytes.  A write may start behind the end of the file, and the
gap reads as zeros.  Conversions between the integer types of C are those of a machine
with 32-bit `int` and 64-bit `long` and `size_t`.

## Main definitions

* `toInt`, `toSizeT` — conversion to `int` and to `size_t`.
* `intMax` — the largest `int`.
* `readAt file start n`, `writeAt file start data` — the bytes that `read` finds at an
  offset, and the file after a `write` there.
* `cut size n file` — the first `n` records of `size` bytes.

## Main results

* `toInt_neg_iff` — which counts and offsets turn negative in an `int`.
* `readAt_flatten`, `writeAt_flatten` — records read and written in their places.
* `flatten_cut`, `cut_flatten` — a file is its records and the bytes behind them.
-/

namespace OpSys
namespace Records

/-- Conversion to `int`, which keeps the low 32 bits. -/
def toInt (n : ℤ) : ℤ := n.bmod (2 ^ 32)

/-- `INT_MAX`. -/
def intMax : ℤ := 2 ^ 31 - 1

/-- Conversion to `size_t`. -/
def toSizeT (n : ℤ) : ℕ := (n % 2 ^ 64).toNat

/-- The bytes that a `read` of `n` bytes at the offset `start` returns. -/
def readAt (file : List UInt8) (start n : ℕ) : List UInt8 := (file.drop start).take n

/-- The file after a `write` of `data` at the offset `start`. -/
def writeAt (file : List UInt8) (start : ℕ) (data : List UInt8) : List UInt8 :=
  file.take start ++ List.replicate (start - file.length) 0 ++ data ++
    file.drop (start + data.length)

/-- The first `n` records of `size` bytes. -/
def cut (size : ℕ) : ℕ → List UInt8 → List (List UInt8)
  | 0, _ => []
  | n + 1, file => file.take size :: cut size n (file.drop size)

/-! ### Conversions -/

theorem toInt_neg_iff (n : ℕ) : toInt n < 0 ↔ 2 ^ 31 ≤ n % 2 ^ 32 := by
  rw [toInt, Int.bmod_def]
  omega

theorem toInt_of_lt {n : ℕ} (h : n < 2 ^ 31) : toInt n = n := by
  rw [toInt, Int.bmod_def]
  omega

@[simp] theorem toInt_le_intMax (n : ℤ) : toInt n ≤ intMax := by
  rw [toInt, Int.bmod_def, intMax]
  omega

/-- An `int` keeps its value. -/
theorem toInt_of_mem {n : ℤ} (h₀ : 0 ≤ n) (h : n ≤ intMax) : toInt n = n := by
  rw [intMax] at h
  rw [toInt, Int.bmod_def]
  omega

/-- Below the largest `int` an increment adds one. -/
theorem toInt_add_one {n : ℤ} (h : toInt n < intMax) : toInt (n + 1) = toInt n + 1 := by
  simp only [toInt, Int.bmod_def, intMax] at h ⊢
  omega

/-- The largest `int` wraps around. -/
theorem toInt_add_one_of_eq {n : ℤ} (h : toInt n = intMax) : toInt (n + 1) = -2 ^ 31 := by
  simp only [toInt, Int.bmod_def, intMax] at h ⊢
  omega

/-! ### Reading and writing -/

@[simp] theorem length_readAt (file : List UInt8) (start n : ℕ) :
    (readAt file start n).length = min n (file.length - start) := by
  rw [readAt, List.length_take, List.length_drop]

@[simp] theorem length_writeAt (file : List UInt8) (start : ℕ) (data : List UInt8) :
    (writeAt file start data).length = max file.length (start + data.length) := by
  simp only [writeAt, List.length_append, List.length_take, List.length_replicate,
    List.length_drop]
  omega

variable {size n j : ℕ} {rs : List (List UInt8)} {rest data r : List UInt8}

theorem length_flatten_of_forall (h : ∀ r ∈ rs, r.length = size) :
    rs.flatten.length = rs.length * size := by
  induction rs with
  | nil => simp
  | cons r rs ih =>
    obtain ⟨hr, hrs⟩ := List.forall_mem_cons.mp h
    rw [List.flatten_cons, List.length_append, ih hrs, hr, List.length_cons, Nat.succ_mul,
      Nat.add_comm]

@[simp] theorem readAt_append_right (a b : List UInt8) (k n : ℕ) :
    readAt (a ++ b) (a.length + k) n = readAt b k n := by
  rw [readAt, readAt, List.drop_length_add_append]

@[simp] theorem writeAt_append_right (a b : List UInt8) (k : ℕ) (data : List UInt8) :
    writeAt (a ++ b) (a.length + k) data = a ++ writeAt b k data := by
  have hgap : a.length + k - (a ++ b).length = k - b.length := by
    rw [List.length_append]
    omega
  rw [writeAt, writeAt, hgap, List.take_length_add_append, Nat.add_assoc,
    List.drop_length_add_append]
  simp only [List.append_assoc]

theorem writeAt_zero (h : data.length ≤ r.length) (rest : List UInt8) :
    writeAt (r ++ rest) 0 data = data ++ r.drop data.length ++ rest := by
  rw [writeAt, Nat.zero_add, Nat.zero_sub, List.take_zero, List.replicate_zero, List.nil_append,
    List.nil_append, List.drop_append_of_le_length h, List.append_assoc]

/-- A record that has been read. -/
theorem readAt_flatten (h : ∀ r ∈ rs, r.length = size) (hr : rs[j]? = some r)
    (rest : List UInt8) : readAt (rs.flatten ++ rest) (j * size) size = r := by
  induction rs generalizing j with
  | nil => exact absurd hr (by simp)
  | cons r' rs ih =>
    obtain ⟨hr', hrs⟩ := List.forall_mem_cons.mp h
    rw [List.flatten_cons, List.append_assoc]
    cases j with
    | zero =>
      obtain rfl : r' = r := by simpa using hr
      rw [readAt, Nat.zero_mul, List.drop_zero, ← hr', List.take_left]
    | succ j =>
      have hskip := readAt_append_right r' (rs.flatten ++ rest) (j * size) size
      rw [hr'] at hskip
      rw [List.getElem?_cons_succ] at hr
      rw [Nat.succ_mul, Nat.add_comm, hskip, ih hrs hr]

/-- A record whose first bytes have been written. -/
theorem writeAt_flatten_of_le (h : ∀ r ∈ rs, r.length = size) (hr : rs[j]? = some r)
    (hdata : data.length ≤ size) (rest : List UInt8) :
    writeAt (rs.flatten ++ rest) (j * size) data =
      (rs.set j (data ++ r.drop data.length)).flatten ++ rest := by
  induction rs generalizing j with
  | nil => exact absurd hr (by simp)
  | cons r' rs ih =>
    obtain ⟨hr', hrs⟩ := List.forall_mem_cons.mp h
    rw [List.flatten_cons, List.append_assoc]
    cases j with
    | zero =>
      obtain rfl : r' = r := by simpa using hr
      have hle : data.length ≤ r'.length := Nat.le_trans hdata (Nat.le_of_eq hr'.symm)
      rw [Nat.zero_mul, writeAt_zero hle, List.set_cons_zero, List.flatten_cons,
        List.append_assoc (data ++ _)]
    | succ j =>
      have hskip := writeAt_append_right r' (rs.flatten ++ rest) (j * size) data
      rw [hr'] at hskip
      rw [List.getElem?_cons_succ] at hr
      rw [Nat.succ_mul, Nat.add_comm, hskip, ih hrs hr, List.set_cons_succ, List.flatten_cons,
        List.append_assoc]

/-- A record that has been written. -/
theorem writeAt_flatten (h : ∀ r ∈ rs, r.length = size) (hdata : data.length = size)
    (hj : j < rs.length) (rest : List UInt8) :
    writeAt (rs.flatten ++ rest) (j * size) data = (rs.set j data).flatten ++ rest := by
  have hr : rs[j]? = some rs[j] := List.getElem?_eq_getElem hj
  have hdrop : rs[j].drop data.length = [] :=
    List.drop_eq_nil_of_le (Nat.le_of_eq ((h _ (List.getElem_mem hj)).trans hdata.symm))
  rw [writeAt_flatten_of_le h hr (Nat.le_of_eq hdata), hdrop, List.append_nil]

/-! ### Cutting -/

@[simp] theorem length_cut (size n : ℕ) (file : List UInt8) : (cut size n file).length = n := by
  induction n generalizing file with
  | zero => rfl
  | succ n ih => rw [cut, List.length_cons, ih]

theorem length_of_mem_cut {file : List UInt8} (h : n * size ≤ file.length)
    (hr : r ∈ cut size n file) : r.length = size := by
  induction n generalizing file with
  | zero => exact absurd hr List.not_mem_nil
  | succ n ih =>
    rw [Nat.succ_mul] at h
    rcases List.mem_cons.mp hr with rfl | hmem
    · rw [List.length_take]
      omega
    · exact ih (by rw [List.length_drop]; omega) hmem

/-- A file is its records and the bytes behind them. -/
theorem flatten_cut (size n : ℕ) (file : List UInt8) :
    (cut size n file).flatten ++ file.drop (n * size) = file := by
  induction n generalizing file with
  | zero => rw [Nat.zero_mul]; rfl
  | succ n ih =>
    have hnext := ih (file.drop size)
    rw [List.drop_drop] at hnext
    rw [cut, List.flatten_cons, List.append_assoc, Nat.succ_mul, Nat.add_comm, hnext,
      List.take_append_drop]

/-- The records behind complete ones. -/
theorem cut_flatten_append (h : ∀ r ∈ rs, r.length = size) (k : ℕ) (rest : List UInt8) :
    cut size (rs.length + k) (rs.flatten ++ rest) = rs ++ cut size k rest := by
  induction rs with
  | nil => rw [List.length_nil, Nat.zero_add]; rfl
  | cons r rs ih =>
    obtain ⟨hr, hrs⟩ := List.forall_mem_cons.mp h
    rw [List.length_cons, Nat.add_right_comm, cut, List.flatten_cons, List.append_assoc, ← hr,
      List.take_left, List.drop_left, hr, ih hrs, List.cons_append]

theorem cut_flatten (h : ∀ r ∈ rs, r.length = size) (rest : List UInt8) :
    cut size rs.length (rs.flatten ++ rest) = rs := by
  have hcut := cut_flatten_append h 0 rest
  rwa [cut, List.append_nil] at hcut

theorem getElem?_cut {file : List UInt8} (h : j < n) :
    (cut size n file)[j]? = some (readAt file (j * size) size) := by
  induction n generalizing j file with
  | zero => exact absurd h (Nat.not_lt_zero _)
  | succ n ih =>
    cases j with
    | zero => rw [cut, Nat.zero_mul]; rfl
    | succ j =>
      rw [cut, List.getElem?_cons_succ, ih (Nat.lt_of_succ_lt_succ h), readAt, readAt,
        List.drop_drop, Nat.succ_mul, Nat.add_comm]

theorem drop_flatten (h : ∀ r ∈ rs, r.length = size) (rest : List UInt8) :
    (rs.flatten ++ rest).drop (rs.length * size) = rest := by
  rw [← length_flatten_of_forall h, List.drop_left]

end Records
end OpSys
