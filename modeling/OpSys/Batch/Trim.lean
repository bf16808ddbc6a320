import Mathlib.Data.List.DropRight
import OpSys.Batch.Tokenize

/-!
# What `trim_whitespace` touches

The indices of the line that the statements of `trim_whitespace` read and write.  The
scan from the end has no lower bound, and `memmove` moves as many bytes as the line has
up to its new end, counted from the first byte that is kept.

## Main definitions

* `trimAccesses` — the indices, in the order of the statements.
* `TrimsInBounds` — they are those of the line and its NUL, and the line is trimmed.

## Main results

* `exists_trimmed` — a line with a word in it, by its blanks and the part between.
* `trimsInBounds_iff` — the lines that are trimmed within their bounds.

## References

`lab3_processes/batch_job_interpreter/cmd_interpreter.c`,
`lab4_signals_and_pipes/batch_job_interpreter_pipes/cmd_interpreter_extd.c`.
-/

namespace OpSys
namespace Batch

open Stdio

/-- What the first scan reads: the whitespace and the byte that stops it. -/
def leadingReads (text : List UInt8) : List ℤ :=
  (List.range (leadingBlanks text + 1)).map Nat.cast

/-- What the scan from `end + 1` down reads, up to the first index below the line. -/
def trailingReads (byte : ℕ → UInt8) : ℕ → List ℤ
  | 0 => [-1]
  | n + 1 => (n : ℤ) :: if isspace (byte n) then trailingReads byte n else []

/-- `memmove(str, str + k, n)`: what it reads, and what it writes. -/
def memmoveAccesses (k n : ℕ) : List ℤ :=
  (List.range n).map (fun i => ((k + i : ℕ) : ℤ)) ++ (List.range n).map Nat.cast

/-- The indices that `trim_whitespace` reads and writes. -/
def trimAccesses (str : StrMem) : List ℤ :=
  if str.len = 0 then []
  else
    leadingReads str.text ++ trailingReads str.byte str.len ++
      match leadingCounter str.text, trailingEnd str.byte str.len with
      | some k, some n => (n : ℤ) :: memmoveAccesses k (str.cut n).len
      | _, _ => []

/-- A line without its leading and trailing whitespace. -/
def trimmed (text : List UInt8) : List UInt8 := (text.dropWhile isspace).rdropWhile isspace

/-- `trim_whitespace` stays within the line and its NUL, and the line is trimmed. -/
def TrimsInBounds (str : StrMem) : Prop :=
  (∀ i ∈ trimAccesses str, 0 ≤ i ∧ i ≤ str.len) ∧
    (trimWhitespace str).map StrMem.text = some (trimmed str.text)

/-! ### Lines with a word in them -/

/-- The leading and the trailing whitespace of a line, and the part between. -/
structure Blanks (text lead body trail : List UInt8) : Prop where
  text_eq : text = lead ++ (body ++ trail)
  lead : ∀ b ∈ lead, isspace b = true
  trail : ∀ b ∈ trail, isspace b = true
  ne_nil : body ≠ []
  head : isspace (body.head ne_nil) = false
  getLast : isspace (body.getLast ne_nil) = false

theorem exists_trimmed {text : List UInt8} (h : ∃ b ∈ text, isspace b = false) :
    ∃ lead body trail, Blanks text lead body trail := by
  obtain ⟨b, hb, hspace⟩ := h
  have hdrop : text.dropWhile isspace ≠ [] := by
    intro he
    rw [List.dropWhile_eq_nil_iff] at he
    rw [he b hb] at hspace
    exact Bool.noConfusion hspace
  have hne : (text.dropWhile isspace).rdropWhile isspace ≠ [] := by
    intro he
    have hhead := List.head_dropWhile_not isspace hdrop
    rw [List.rdropWhile_eq_nil_iff.mp he _ (List.head_mem hdrop)] at hhead
    exact Bool.noConfusion hhead
  refine ⟨text.takeWhile isspace, (text.dropWhile isspace).rdropWhile isspace,
    (text.dropWhile isspace).rtakeWhile isspace, ⟨?_, ?_, ?_, hne, ?_, ?_⟩⟩
  · rw [List.rdropWhile_append_rtakeWhile, List.takeWhile_append_dropWhile]
  · exact fun b hb => List.mem_takeWhile_imp hb
  · exact fun b hb => List.mem_rtakeWhile_imp hb
  · rw [(List.rdropWhile_prefix _ _).head hne]
    exact List.head_dropWhile_not isspace hdrop
  · exact Bool.eq_false_iff.mpr (List.rdropWhile_last_not _ _ hne)

namespace Blanks

variable {str : StrMem} {text lead body trail : List UInt8}

theorem takeWhile_append (h : Blanks text lead body trail) : text.takeWhile isspace = lead := by
  obtain ⟨b, body', rfl⟩ := List.exists_cons_of_ne_nil h.ne_nil
  have hb : isspace b = false := h.head
  rw [h.text_eq, List.takeWhile_append_of_pos h.lead, List.cons_append,
    List.takeWhile_cons_of_neg (by rw [hb]; exact Bool.false_ne_true), List.append_nil]

theorem rtakeWhile_append (h : Blanks text lead body trail) : text.rtakeWhile isspace = trail := by
  obtain ⟨body', b, rfl⟩ := (List.eq_nil_or_concat body).resolve_left h.ne_nil
  have hb : isspace b = false := by simpa using h.getLast
  have htext : text = (lead ++ body') ++ b :: trail := by simp [h.text_eq]
  rw [htext, List.rtakeWhile, List.reverse_append, List.reverse_cons, List.append_assoc,
    List.takeWhile_append_of_pos (by simpa using h.trail), List.singleton_append,
    List.takeWhile_cons_of_neg (by rw [hb]; exact Bool.false_ne_true), List.append_nil,
    List.reverse_reverse]

theorem trimmed_eq (h : Blanks text lead body trail) : trimmed text = body := by
  -- both ends are cut off at the parts that `takeWhile` and `rtakeWhile` give
  have hdrop : text.dropWhile isspace = body ++ trail := by
    have happ := List.takeWhile_append_dropWhile (p := isspace) (l := text)
    rw [h.takeWhile_append] at happ
    exact List.append_cancel_left (happ.trans h.text_eq)
  have hblanks : Blanks (body ++ trail) [] body trail :=
    ⟨rfl, by simp, h.trail, h.ne_nil, h.head, h.getLast⟩
  have happ := List.rdropWhile_append_rtakeWhile (p := isspace) (l := body ++ trail)
  rw [hblanks.rtakeWhile_append] at happ
  rw [trimmed, hdrop]
  exact List.append_cancel_right happ

theorem leadingBlanks_eq (h : Blanks text lead body trail) :
    leadingBlanks text = lead.length := by
  rw [h.text_eq, leadingBlanks_append_of_head h.lead h.ne_nil h.head]

theorem leadingCounter_eq (h : Blanks text lead body trail) (hint : lead.length < 2 ^ 31) :
    leadingCounter text = some lead.length := by
  rw [leadingCounter, h.leadingBlanks_eq, if_pos hint]

theorem trailingEnd_eq (h : Blanks str.text lead body trail) :
    trailingEnd str.byte str.len = some (lead ++ body).length := by
  refine trailingEnd_text (by rw [h.text_eq, List.append_assoc]) h.trail (by simp [h.ne_nil]) ?_
  rw [List.getLast_append_of_ne_nil _ h.ne_nil]
  exact h.getLast

theorem len_eq (h : Blanks str.text lead body trail) :
    str.len = lead.length + (body.length + trail.length) := by
  rw [← StrMem.length_text, h.text_eq, List.length_append, List.length_append]

end Blanks

/-! ### The indices of the statements -/

theorem leadingReads_bounds {text : List UInt8} {i : ℤ} (hi : i ∈ leadingReads text) :
    0 ≤ i ∧ i ≤ leadingBlanks text := by
  obtain ⟨n, hn, rfl⟩ := List.mem_map.mp hi
  rw [List.mem_range] at hn
  exact ⟨Int.natCast_nonneg n, by exact_mod_cast Nat.lt_succ_iff.mp hn⟩

/-- A scan that ends on the line has stayed on it. -/
theorem trailingReads_bounds {byte : ℕ → UInt8} {n m : ℕ} (h : trailingEnd byte n = some m) :
    ∀ i ∈ trailingReads byte n, 0 ≤ i ∧ i < n := by
  induction n with
  | zero => exact absurd h (Option.some_ne_none _).symm
  | succ n ih =>
    intro i hi
    rw [trailingReads] at hi
    rcases List.mem_cons.mp hi with rfl | hi
    · omega
    · split at hi
      · rename_i hspace
        rw [trailingEnd, if_pos hspace] at h
        have := ih h i hi
        omega
      · exact absurd hi List.not_mem_nil

/-- The last byte that `memmove` reads decides. -/
theorem memmoveAccesses_bounds {k n len : ℕ} (hn : 0 < n) :
    (∀ i ∈ memmoveAccesses k n, 0 ≤ i ∧ i ≤ (len : ℤ)) ↔ k + n ≤ len + 1 := by
  constructor
  · intro h
    have hlast : ((k + (n - 1) : ℕ) : ℤ) ∈ memmoveAccesses k n :=
      List.mem_append_left _ (List.mem_map.mpr ⟨n - 1, List.mem_range.mpr (by omega), rfl⟩)
    have := (h _ hlast).2
    omega
  · intro h i hi
    rcases List.mem_append.mp hi with hi | hi
    · obtain ⟨j, hj, rfl⟩ := List.mem_map.mp hi
      rw [List.mem_range] at hj
      omega
    · obtain ⟨j, hj, rfl⟩ := List.mem_map.mp hi
      rw [List.mem_range] at hj
      omega

/-- On a line of whitespace the scan from the end goes below the line. -/
theorem trailingEnd_blank {str : StrMem} (h : ∀ b ∈ str.text, isspace b = true) :
    trailingEnd str.byte str.len = none := by
  have hadd := @trailingEnd_add str.byte 0 str.len fun i hi => by
    rw [Nat.zero_add, ← str.getElem_text (by rwa [str.length_text])]
    exact h _ (List.getElem_mem _)
  rw [Nat.zero_add] at hadd
  exact hadd

theorem trimWhitespace_blank {str : StrMem} (hlen : str.len ≠ 0)
    (h : ∀ b ∈ str.text, isspace b = true) : trimWhitespace str = none := by
  rw [trimWhitespace, if_neg hlen, trailingEnd_blank h]
  cases leadingCounter str.text with
  | none => rfl
  | some k => rfl

theorem Blanks.trimAccesses_eq {str : StrMem} {lead body trail : List UInt8}
    (h : Blanks str.text lead body trail) (hint : lead.length < 2 ^ 31) :
    trimAccesses str = leadingReads str.text ++ trailingReads str.byte str.len ++
      ((lead ++ body).length : ℤ) :: memmoveAccesses lead.length (lead ++ body).length := by
  have hlen : str.len ≠ 0 := by
    have hbody : 0 < body.length := List.length_pos_iff.mpr h.ne_nil
    have := h.len_eq
    omega
  have hcut : (str.cut (lead ++ body).length).len = (lead ++ body).length :=
    StrMem.len_cut (by rw [h.text_eq, List.append_assoc])
  rw [trimAccesses, if_neg hlen, h.trailingEnd_eq, h.leadingCounter_eq hint]
  simp only [hcut]

/-- A line with a word in it is trimmed, if its blanks can be counted, and only `memmove` may
leave it. -/
theorem Blanks.in_bounds_iff {str : StrMem} {lead body trail : List UInt8}
    (h : Blanks str.text lead body trail) :
    TrimsInBounds str ↔ lead.length < 2 ^ 31 ∧ lead.length ≤ trail.length + 1 := by
  rcases Nat.lt_or_ge lead.length (2 ^ 31) with hint | hint
  -- the counter of the leading blanks overflows
  swap
  · have hnone := trimWhitespace_of_le h.text_eq h.lead h.ne_nil h.head hint
    rw [TrimsInBounds, hnone]
    constructor
    · rintro ⟨-, htrim⟩
      exact absurd htrim (Option.some_ne_none _).symm
    · rintro ⟨hlt, -⟩
      exact absurd hlt (Nat.not_lt.mpr hint)
  rw [and_iff_right hint]
  have hlen := h.len_eq
  have hbody : 0 < body.length := List.length_pos_iff.mpr h.ne_nil
  have happ : (lead ++ body).length = lead.length + body.length := List.length_append
  have htrim : (trimWhitespace str).map StrMem.text = some (trimmed str.text) := by
    rw [h.trimmed_eq]
    exact text_trimWhitespace h.text_eq h.lead h.trail h.ne_nil h.head h.getLast hint
  -- `memmove` is the only access that can be out of bounds
  have hmove := @memmoveAccesses_bounds lead.length (lead ++ body).length str.len (by omega)
  rw [TrimsInBounds, and_iff_left htrim, h.trimAccesses_eq hint]
  constructor
  · intro hall
    have := hmove.mp fun i hi => hall i (List.mem_append_right _ (List.mem_cons_of_mem _ hi))
    omega
  · intro hle i hi
    rcases List.mem_append.mp hi with hi | hi
    · rcases List.mem_append.mp hi with hi | hi
      · have := leadingReads_bounds hi
        rw [h.leadingBlanks_eq] at this
        omega
      · have := trailingReads_bounds h.trailingEnd_eq i hi
        omega
    · rcases List.mem_cons.mp hi with rfl | hi
      · omega
      · exact hmove.mpr (by omega) i hi

/-- **When a line is trimmed within its bounds.**  It is empty, or it has a word in it, with
fewer than 2^31 bytes of whitespace before its words, and at most one more before than after
them. -/
theorem trimsInBounds_iff (str : StrMem) :
    TrimsInBounds str ↔ str.text = [] ∨ (∃ b ∈ str.text, isspace b = false) ∧
      (str.text.takeWhile isspace).length < 2 ^ 31 ∧
      (str.text.takeWhile isspace).length ≤ (str.text.rtakeWhile isspace).length + 1 := by
  by_cases hword : ∃ b ∈ str.text, isspace b = false
  · obtain ⟨lead, body, trail, h⟩ := exists_trimmed hword
    have hne : str.text ≠ [] := by
      obtain ⟨b, hb, -⟩ := hword
      exact List.ne_nil_of_mem hb
    rw [h.in_bounds_iff, h.takeWhile_append, h.rtakeWhile_append, or_iff_right hne,
      and_iff_right hword]
  · have hblank : ∀ b ∈ str.text, isspace b = true := by
      intro b hb
      by_contra hnot
      exact hword ⟨b, hb, Bool.eq_false_iff.mpr hnot⟩
    -- in a text of blanks the scan from the end finds no byte to stop at
    constructor
    · rintro ⟨-, htrim⟩
      left
      by_contra hne
      have hlen : str.len ≠ 0 := by rwa [← str.length_text, Ne, List.length_eq_zero_iff]
      rw [trimWhitespace_blank hlen hblank] at htrim
      exact absurd htrim (Option.some_ne_none _).symm
    · rintro (hnil | ⟨h, -⟩)
      · have hlen : str.len = 0 := by rw [← str.length_text, hnil, List.length_nil]
        refine ⟨?_, ?_⟩
        · rw [trimAccesses, if_pos hlen]
          exact fun i hi => absurd hi List.not_mem_nil
        · rw [trimWhitespace, if_pos hlen, Option.map_some, hnil]
          rfl
      · exact absurd h hword

/-- The line of a newline sends the scan from the end below the line, and of two spaces and
a letter `memmove` reads the byte after the NUL. -/
theorem blank_or_indented : ¬ TrimsInBounds (StrMem.holding [10] fun _ => nul) ∧
    ¬ TrimsInBounds (StrMem.holding [space, space, 97] fun _ => nul) := by
  constructor
  · have htext := @StrMem.text_holding [10] (fun _ => nul) (by decide)
    have hblank : ∀ b ∈ (StrMem.holding [10] fun _ => nul).text, isspace b = true := by
      rw [htext]
      exact List.forall_mem_singleton.mpr rfl
    have hlen : (StrMem.holding [10] fun _ => nul).len ≠ 0 := by
      rw [← StrMem.length_text, htext]
      decide
    rintro ⟨-, htrim⟩
    rw [trimWhitespace_blank hlen hblank] at htrim
    exact absurd htrim (Option.some_ne_none _).symm
  · have htext := @StrMem.text_holding [space, space, 97] (fun _ => nul) (by decide)
    have h : Blanks (StrMem.holding [space, space, 97] fun _ => nul).text [space, space] [97] [] :=
      ⟨htext, by simp [isspace, space], by simp, by decide, by decide, by decide⟩
    rw [h.in_bounds_iff]
    decide

end Batch
end OpSys
