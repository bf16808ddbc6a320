import Mathlib.Data.Nat.Digits.Defs
import Mathlib.Data.Nat.Digits.Lemmas
import OpSys.Lib.CString

/-!
# Decimal numbers in strings

What `sprintf` writes for `"%d"`, and what `sscanf` reads for it.  A number is read
back from what was written, so two numbers are never written alike.

## Main definitions

* `decimal` — the bytes of a number.
* `Scan`, `scanInt` — the ways in which `sscanf(buf, "%d", &n)` ends.
* `strtol` — the same in `strtol(buf, NULL, 10)`.

## Main results

* `scanInt_decimal`, `strtol_decimal` — what is written is read back.
* `decimal_injective`.
-/

namespace OpSys
namespace Stdio

/-- The bytes `'0'` to `'9'`. -/
def isdigit (b : UInt8) : Bool := 48 ≤ b ∧ b ≤ 57

/-- The byte of a digit. -/
def digitByte (d : ℕ) : UInt8 := UInt8.ofNat (48 + d)

/-- The decimal digits of a natural number, the first one first. -/
def digitBytes (n : ℕ) : List UInt8 :=
  if n = 0 then [digitByte 0] else ((Nat.digits 10 n).map digitByte).reverse

/-- What `"%d"` writes. -/
def decimal (n : ℤ) : List UInt8 :=
  if n < 0 then 45 :: digitBytes n.natAbs else digitBytes n.natAbs

/-- The number that digits stand for. -/
def digitsVal (ds : List UInt8) : ℕ := ds.foldl (fun n b => 10 * n + (b.toNat - 48)) 0

/-- What `sscanf` with a single `"%d"` returns, and the number it reads. -/
inductive Scan
  /-- The string ends before the conversion: the result is `EOF`. -/
  | eof
  /-- Something else than a number is in the way: the result is 0. -/
  | noMatch
  /-- The result is 1. -/
  | value (n : ℤ)
  deriving DecidableEq, Repr

/-- The digits at the front of `text`, with their sign. -/
def scanDigits (neg : Bool) (text : List UInt8) : Scan :=
  match text.takeWhile isdigit with
  | [] => .noMatch
  | d :: ds => .value (if neg then -(digitsVal (d :: ds) : ℤ) else digitsVal (d :: ds))

/-- `sscanf(buf, "%d", &n)`. -/
def scanInt (buf : List UInt8) : Scan :=
  match (cString buf).dropWhile isspace with
  | [] => .eof
  | b :: text =>
    if b = 45 then scanDigits true text
    else if b = 43 then scanDigits false text
    else scanDigits false (b :: text)

theorem digitByte_toNat {d : ℕ} (h : d < 10) : (digitByte d).toNat = 48 + d := by
  have : 48 + d < 256 := by omega
  simp [digitByte, Nat.mod_eq_of_lt this]

theorem isdigit_digitByte {d : ℕ} (h : d < 10) : isdigit (digitByte d) = true := by
  have := digitByte_toNat h
  simp only [isdigit, UInt8.le_iff_toNat_le, decide_eq_true_eq, this]
  constructor
  · simp
  · simp
    omega

theorem digitBytes_ne_nil (n : ℕ) : digitBytes n ≠ [] := by
  unfold digitBytes
  split
  · exact List.cons_ne_nil _ _
  · rename_i h
    simpa [Nat.digits_eq_nil_iff_eq_zero] using h

theorem isdigit_of_mem {n : ℕ} {b : UInt8} (h : b ∈ digitBytes n) : isdigit b = true := by
  unfold digitBytes at h
  split at h
  · rw [List.mem_singleton.mp h]
    exact isdigit_digitByte (by omega)
  · rw [List.mem_reverse] at h
    obtain ⟨d, hd, rfl⟩ := List.mem_map.mp h
    exact isdigit_digitByte (Nat.digits_lt_base (by omega) hd)

theorem digitsVal_digitBytes (n : ℕ) : digitsVal (digitBytes n) = n := by
  unfold digitBytes
  split
  · rename_i h
    rw [h]
    rfl
  · have hfold : ∀ ds : List ℕ, (∀ d ∈ ds, d < 10) →
        digitsVal (ds.map digitByte).reverse = Nat.ofDigits 10 ds := by
      intro ds hds
      induction ds with
      | nil => rfl
      | cons d ds ih =>
        obtain ⟨hd, hds⟩ := List.forall_mem_cons.mp hds
        have hih := ih hds
        unfold digitsVal at hih ⊢
        rw [List.map_cons, List.reverse_cons, List.foldl_append, hih, Nat.ofDigits_cons]
        simp only [List.foldl_cons, List.foldl_nil, digitByte_toNat hd]
        omega
    rw [hfold _ fun d hd => Nat.digits_lt_base (by omega) hd, Nat.ofDigits_digits]

/-- Digits are read up to the first byte that is none. -/
theorem scanDigits_digitBytes (neg : Bool) (n : ℕ) :
    scanDigits neg (digitBytes n) = .value (if neg then -(n : ℤ) else n) := by
  have htake : (digitBytes n).takeWhile isdigit = digitBytes n :=
    List.takeWhile_eq_self_iff.mpr fun _ hb => isdigit_of_mem hb
  unfold scanDigits
  rw [htake]
  split
  · rename_i h
    exact absurd h (digitBytes_ne_nil n)
  · rename_i d ds h
    rw [← h, digitsVal_digitBytes]

theorem isdigit_ne {b : UInt8} (h : isdigit b = true) : b ≠ nul ∧ b ≠ 45 ∧ b ≠ 43 ∧
    isspace b = false := by
  refine ⟨?_, ?_, ?_, ?_⟩
  · rintro rfl
    exact absurd h (by decide)
  · rintro rfl
    exact absurd h (by decide)
  · rintro rfl
    exact absurd h (by decide)
  · simp only [isdigit, UInt8.le_iff_toNat_le, decide_eq_true_eq] at h
    simp only [isspace, UInt8.le_iff_toNat_le, ← UInt8.toNat_inj, decide_eq_false_iff_not]
    simp at h ⊢
    omega

theorem nul_notMem_digitBytes (n : ℕ) : nul ∉ digitBytes n :=
  fun h => (isdigit_ne (isdigit_of_mem h)).1 rfl

theorem nul_notMem_decimal (n : ℤ) : nul ∉ decimal n := by
  unfold decimal
  split
  · have hminus : nul ≠ 45 := by decide
    simp [hminus, nul_notMem_digitBytes]
  · exact nul_notMem_digitBytes _

theorem scanInt_cons {b : UInt8} {text : List UInt8} (hspace : isspace b = false)
    (hnul : nul ∉ b :: text) (rest : List UInt8) :
    scanInt (b :: text ++ nul :: rest) =
      if b = 45 then scanDigits true text
      else if b = 43 then scanDigits false text
      else scanDigits false (b :: text) := by
  have hdrop : (b :: text).dropWhile isspace = b :: text :=
    List.dropWhile_cons_of_neg (by rw [hspace]; exact Bool.false_ne_true)
  unfold scanInt
  rw [cString_append_nul hnul, hdrop]

/-- A number is read back. -/
theorem scanInt_decimal (n : ℤ) (rest : List UInt8) :
    scanInt (decimal n ++ nul :: rest) = .value n := by
  have hnul := nul_notMem_decimal n
  by_cases hneg : n < 0
  · rw [decimal, if_pos hneg] at hnul ⊢
    rw [scanInt_cons (by decide) hnul, if_pos rfl, scanDigits_digitBytes, if_pos rfl]
    congr 1
    omega
  · rw [decimal, if_neg hneg] at hnul ⊢
    obtain ⟨d, ds, hds⟩ := List.exists_cons_of_ne_nil (digitBytes_ne_nil n.natAbs)
    have hd : isdigit d = true := isdigit_of_mem (n := n.natAbs) (by simp [hds])
    obtain ⟨-, hminus, hplus, hspace⟩ := isdigit_ne hd
    have hscan := scanDigits_digitBytes false n.natAbs
    rw [hds] at hscan hnul ⊢
    rw [scanInt_cons hspace hnul, if_neg hminus, if_neg hplus, hscan, if_neg Bool.false_ne_true]
    congr 1
    omega

theorem decimal_injective {m n : ℤ} (h : decimal m = decimal n) : m = n := by
  have hm := scanInt_decimal m []
  rw [h, scanInt_decimal n []] at hm
  exact (Scan.value.inj hm).symm

/-- `strtol(buf, NULL, 10)`: 0 without a number, and the end of `long` for one beyond it. -/
def strtol (buf : List UInt8) : ℤ :=
  match scanInt buf with
  | .eof => 0
  | .noMatch => 0
  | .value n => max (-2 ^ 63) (min n (2 ^ 63 - 1))

/-- The text of a `long` is read back. -/
theorem strtol_decimal {n : ℤ} (hlow : -2 ^ 63 ≤ n) (hhigh : n < 2 ^ 63) :
    strtol (decimal n) = n := by
  have hnul := nul_notMem_decimal n
  have hscan : scanInt (decimal n) = .value n := by
    have hpadded := scanInt_decimal n []
    unfold scanInt at hpadded ⊢
    rw [cString_append_nul hnul] at hpadded
    rw [cString_of_notMem hnul]
    exact hpadded
  rw [strtol, hscan]
  simp only
  omega

example : decimal (-1) = [45, 49] := by decide
example : scanInt [32, 52, 50, 10] = .value 42 := by decide

end Stdio
end OpSys
