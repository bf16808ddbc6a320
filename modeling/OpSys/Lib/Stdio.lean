import Mathlib.Data.List.TakeWhile

/-!
# Lines and strings in C

A text file open for reading is the list of bytes still to be read.  `fgets` with
a buffer of `size` bytes reads at most `size - 1` of them, up to and including the
first newline.  The string in a buffer ends before its first NUL byte, which may
be one that was read from the file.

## Main definitions

* `fgets size text` — the bytes read and the rest of the file; `none` at its end.
* `cString`, `strlen`, `strcpyBytes` — the string in a buffer, its length and the
  bytes `strcpy` writes.
* `fileLines size text` — what the calls of `fgets` return one after another.

## Main results

* `fileLines_of_fgets`, `fileLines_eq_nil_iff`.
-/

namespace OpSys
namespace Stdio

/-- The byte that ends a line. -/
def newline : UInt8 := 10

/-- The byte that ends a string. -/
def nul : UInt8 := 0

/-- At most `n` bytes, up to and including the first newline, and the rest. -/
def splitLine : ℕ → List UInt8 → List UInt8 × List UInt8
  | 0, text => ([], text)
  | _ + 1, [] => ([], [])
  | n + 1, b :: text =>
    if b = newline then ([b], text)
    else (b :: (splitLine n text).1, (splitLine n text).2)

/-- `fgets`: the bytes it puts into the buffer, without the NUL after them, and
the rest of the file. -/
def fgets (size : ℕ) (text : List UInt8) : Option (List UInt8 × List UInt8) :=
  if text.isEmpty then none else some (splitLine (size - 1) text)

/-- The string in a buffer that holds `buf` and a NUL after it. -/
def cString (buf : List UInt8) : List UInt8 := buf.takeWhile (· ≠ nul)

/-- `strlen`. -/
def strlen (buf : List UInt8) : ℕ := (cString buf).length

/-- The bytes `strcpy` writes. -/
def strcpyBytes (buf : List UInt8) : List UInt8 := cString buf ++ [nul]

/-- The first `fuel` results of `fgets`. -/
def fgetsUpTo (size : ℕ) : ℕ → List UInt8 → List (List UInt8)
  | 0, _ => []
  | fuel + 1, text =>
    match fgets size text with
    | none => []
    | some (line, rest) => line :: fgetsUpTo size fuel rest

/-- What `fgets` returns one call after another until the end of the file. -/
def fileLines (size : ℕ) (text : List UInt8) : List (List UInt8) :=
  fgetsUpTo size text.length text

example : fileLines 4 [65, 66, 67, 68, 10, 10] = [[65, 66, 67], [68, 10], [10]] := by decide

theorem splitLine_length (n : ℕ) (text : List UInt8) :
    (splitLine n text).1.length + (splitLine n text).2.length = text.length := by
  induction n generalizing text with
  | zero => simp [splitLine]
  | succ n ih =>
    cases text with
    | nil => simp [splitLine]
    | cons b text =>
      have := ih text
      simp only [splitLine]
      split
      · simp
        omega
      · simp only [List.length_cons]
        omega

@[simp] theorem fgets_nil (size : ℕ) : fgets size [] = none := rfl

@[simp] theorem fgets_eq_none_iff {size : ℕ} {text : List UInt8} :
    fgets size text = none ↔ text = [] := by
  cases text <;> simp [fgets]

/-- `fgets` splits the file. -/
theorem fgets_length {size : ℕ} {text line rest : List UInt8}
    (h : fgets size text = some (line, rest)) : line.length + rest.length = text.length := by
  have hsplit : splitLine (size - 1) text = (line, rest) := by
    unfold fgets at h
    split at h
    · exact absurd h (Option.some_ne_none _).symm
    · exact Option.some.inj h
  have hlen := splitLine_length (size - 1) text
  rwa [hsplit] at hlen

/-- A buffer with room for a byte and its NUL makes `fgets` read on. -/
theorem fgets_length_lt {size : ℕ} (hsize : 2 ≤ size) {text line rest : List UInt8}
    (h : fgets size text = some (line, rest)) : rest.length < text.length := by
  cases text with
  | nil => simp [fgets] at h
  | cons b text =>
    obtain ⟨n, rfl⟩ : ∃ n, size = n + 2 := ⟨size - 2, by omega⟩
    have hsplit : splitLine (n + 1) (b :: text) = (line, rest) := by simpa [fgets] using h
    have hlen := splitLine_length n text
    simp only [splitLine] at hsplit
    split at hsplit
    · obtain ⟨-, rfl⟩ := Prod.mk.inj hsplit
      simp
    · obtain ⟨-, rfl⟩ := Prod.mk.inj hsplit
      simp only [List.length_cons]
      omega

theorem fgetsUpTo_eq {size : ℕ} (hsize : 2 ≤ size) {fuel fuel' : ℕ} {text : List UInt8}
    (h : text.length ≤ fuel) (h' : text.length ≤ fuel') :
    fgetsUpTo size fuel text = fgetsUpTo size fuel' text := by
  induction fuel generalizing fuel' text with
  | zero =>
    obtain rfl : text = [] := List.length_eq_zero_iff.mp (by omega)
    cases fuel' <;> simp [fgetsUpTo, fgets_nil]
  | succ fuel ih =>
    cases fuel' with
    | zero =>
      obtain rfl : text = [] := List.length_eq_zero_iff.mp (by omega)
      simp [fgetsUpTo, fgets_nil]
    | succ fuel' =>
      simp only [fgetsUpTo]
      cases hf : fgets size text with
      | none => rfl
      | some r =>
        have hlt := fgets_length_lt hsize hf
        exact congrArg (r.1 :: ·) (ih (by omega) (by omega))

@[simp] theorem fileLines_nil (size : ℕ) : fileLines size [] = [] := rfl

/-- One call of `fgets` takes the first of the lines. -/
theorem fileLines_of_fgets {size : ℕ} (hsize : 2 ≤ size) {text line rest : List UInt8}
    (h : fgets size text = some (line, rest)) :
    fileLines size text = line :: fileLines size rest := by
  have hlt := fgets_length_lt hsize h
  obtain ⟨n, hn⟩ : ∃ n, text.length = n + 1 := ⟨text.length - 1, by omega⟩
  unfold fileLines
  rw [hn, fgetsUpTo, h]
  exact congrArg (line :: ·) (fgetsUpTo_eq hsize (by omega) le_rfl)

theorem fileLines_eq_nil_iff {size : ℕ} (hsize : 2 ≤ size) {text : List UInt8} :
    fileLines size text = [] ↔ text = [] := by
  constructor
  · intro h
    cases hf : fgets size text with
    | none => exact fgets_eq_none_iff.mp hf
    | some r =>
      rw [fileLines_of_fgets hsize hf] at h
      exact absurd h (List.cons_ne_nil _ _)
  · rintro rfl
    rfl

end Stdio
end OpSys
