import Mathlib.Algebra.Group.Nat.Defs
import OpSys.Lib.CString

/-!
# Reading a line of a batch file

`trim_whitespace` and `tokenize`, whose text is the same in both interpreters; only
the size of the token array differs.  A store past the end of the token array or of
a token's buffer, a scan below the start of the line, or an `int` counted past
`INT_MAX`, is `none`.

## Main definitions

* `trimWhitespace` — the line without its leading and trailing whitespace.
* `Lexer`, `tokenStep`, `tokenLoop`, `tokenize` — the token array and its loop.
* `Piece`, `join` — a word as it is written, and a line of words.

## Main results

* `text_trimWhitespace` — what is left of a line that is not blank.
* `tokenLoop_join`, `tokenize_join` — the tokens of a line of words.

## References

`lab3_processes/batch_job_interpreter/cmd_interpreter.c`,
`lab4_signals_and_pipes/batch_job_interpreter_pipes/cmd_interpreter_extd.c`.
-/

namespace OpSys
namespace Batch

open Stdio

/-- `BUFFER_SIZE`. -/
def bufferSize : ℕ := 1024

/-- `'"'`. -/
def dquote : UInt8 := 34

/-- `' '`. -/
def space : UInt8 := 32

/-! ### The ends of a line -/

/-- How many bytes the first scan passes over; the NUL stops it. -/
def leadingBlanks : List UInt8 → ℕ
  | [] => 0
  | b :: text => if isspace b then leadingBlanks text + 1 else 0

/-- `leadingCounter` after the first scan: an `int`, which the scan increments at every
byte it passes over. -/
def leadingCounter (text : List UInt8) : Option ℕ :=
  if leadingBlanks text < 2 ^ 31 then some (leadingBlanks text) else none

/-- `end + 1` after the scan from `end + 1` down; `none` if it goes below the line. -/
def trailingEnd (byte : ℕ → UInt8) : ℕ → Option ℕ
  | 0 => none
  | n + 1 => if isspace (byte n) then trailingEnd byte n else some (n + 1)

/-- `trim_whitespace`. -/
def trimWhitespace (str : StrMem) : Option StrMem :=
  if str.len = 0 then some str
  else
    (leadingCounter str.text).bind fun k =>
      (trailingEnd str.byte str.len).map fun n => (str.cut n).moveDown k

theorem leadingBlanks_append {lead text : List UInt8} (h : ∀ b ∈ lead, isspace b = true) :
    leadingBlanks (lead ++ text) = lead.length + leadingBlanks text := by
  induction lead with
  | nil => simp
  | cons b lead ih =>
    obtain ⟨hb, hlead⟩ := List.forall_mem_cons.mp h
    rw [List.cons_append, leadingBlanks, if_pos hb, ih hlead, List.length_cons]
    omega

theorem leadingBlanks_of_not {b : UInt8} {text : List UInt8} (h : isspace b = false) :
    leadingBlanks (b :: text) = 0 := by
  rw [leadingBlanks, h, if_neg Bool.false_ne_true]

/-- The first scan stops at the first byte that is not whitespace. -/
theorem leadingBlanks_append_of_head {lead body rest : List UInt8}
    (hlead : ∀ b ∈ lead, isspace b = true) (hne : body ≠ [])
    (hhead : isspace (body.head hne) = false) :
    leadingBlanks (lead ++ (body ++ rest)) = lead.length := by
  cases body with
  | nil => exact absurd rfl hne
  | cons b body =>
    have hb : isspace b = false := hhead
    rw [leadingBlanks_append hlead, List.cons_append, leadingBlanks_of_not hb, Nat.add_zero]

/-- The scan from the end passes over whitespace. -/
theorem trailingEnd_add {byte : ℕ → UInt8} {n : ℕ} :
    ∀ k, (∀ i < k, isspace (byte (n + i)) = true) →
      trailingEnd byte (n + k) = trailingEnd byte n := by
  intro k
  induction k with
  | zero => intro _; rfl
  | succ k ih =>
    intro h
    rw [← Nat.add_assoc, trailingEnd, if_pos (h k (by omega)), ih fun i hi => h i (by omega)]

theorem trailingEnd_text {str : StrMem} {text trail : List UInt8} (h : str.text = text ++ trail)
    (htrail : ∀ b ∈ trail, isspace b = true) (hne : text ≠ [])
    (hlast : isspace (text.getLast hne) = false) :
    trailingEnd str.byte str.len = some text.length := by
  have hpos : 0 < text.length := List.length_pos_iff.mpr hne
  have hlen : str.len = text.length + trail.length := by
    rw [← StrMem.length_text, h, List.length_append]
  rw [hlen, trailingEnd_add]
  · obtain ⟨n, hn⟩ : ∃ n, text.length = n + 1 := ⟨text.length - 1, by omega⟩
    have hb : str.byte n = text.getLast hne := by
      rw [StrMem.byte_of_text h (by rw [List.length_append]; omega),
        List.getElem_append_left (by omega), List.getLast_eq_getElem]
      simp only [hn, Nat.add_sub_cancel]
    rw [hn, trailingEnd, hb, hlast, if_neg Bool.false_ne_true]
  · intro i hi
    rw [StrMem.byte_of_text h (by rw [List.length_append]; omega),
      List.getElem_append_right (by omega)]
    exact htrail _ (List.getElem_mem _)

/-- A line with a word in it keeps what is between its leading and its trailing whitespace. -/
theorem text_trimWhitespace {str : StrMem} {lead body trail : List UInt8}
    (htext : str.text = lead ++ (body ++ trail)) (hlead : ∀ b ∈ lead, isspace b = true)
    (htrail : ∀ b ∈ trail, isspace b = true) (hne : body ≠ [])
    (hhead : isspace (body.head hne) = false) (hlast : isspace (body.getLast hne) = false)
    (hint : lead.length < 2 ^ 31) : (trimWhitespace str).map StrMem.text = some body := by
  have hlead' : leadingCounter str.text = some lead.length := by
    rw [leadingCounter, htext, leadingBlanks_append_of_head hlead hne hhead, if_pos hint]
  have hend : trailingEnd str.byte str.len = some (lead ++ body).length := by
    refine trailingEnd_text (by rw [htext, List.append_assoc]) htrail (by simp [hne]) ?_
    rwa [List.getLast_append_of_ne_nil _ hne]
  have hlen : str.len ≠ 0 := by
    rw [← StrMem.length_text, htext]
    simp [hne]
  rw [trimWhitespace, if_neg hlen, hlead', hend, Option.bind_some, Option.map_some,
    Option.map_some, StrMem.text_moveDown_cut htext]

/-- Leading whitespace that an `int` does not count. -/
theorem trimWhitespace_of_le {str : StrMem} {lead body trail : List UInt8}
    (htext : str.text = lead ++ (body ++ trail)) (hlead : ∀ b ∈ lead, isspace b = true)
    (hne : body ≠ []) (hhead : isspace (body.head hne) = false) (hint : 2 ^ 31 ≤ lead.length) :
    trimWhitespace str = none := by
  have hlead' : leadingCounter str.text = none := by
    rw [leadingCounter, htext, leadingBlanks_append_of_head hlead hne hhead,
      if_neg (Nat.not_lt.mpr hint)]
  have hlen : str.len ≠ 0 := by
    rw [← StrMem.length_text, htext]
    simp [hne]
  rw [trimWhitespace, if_neg hlen, hlead', Option.bind_none]

/-! ### The loop over the bytes -/

/-- The variables of `tokenize`. -/
structure Lexer where
  tokens : List (Option (List UInt8))
  tstart : ℕ
  tcounter : ℕ
  isQuoted : Bool
  deriving DecidableEq, Repr

namespace Lexer

/-- `tokens[tcounter] = calloc(BUFFER_SIZE, 1); strncpy(tokens[tcounter++], str + tstart, n)`. -/
def store (st : Lexer) (str : List UInt8) (n : ℕ) : Option Lexer :=
  if st.tcounter < st.tokens.length then
    (strncpy (List.replicate bufferSize nul) (str.drop st.tstart) n).map fun buf =>
      { st with tokens := st.tokens.set st.tcounter (some buf), tcounter := st.tcounter + 1 }
  else none

end Lexer

/-- The body of the loop at `i`.  The first component is what it adds to `i` itself.  The start of
a token is at most `i`, so the `unsigned long` differences are those of numbers. -/
def tokenStep (str : List UInt8) (i : ℕ) (st : Lexer) : Option (ℕ × Lexer) :=
  if str.getD i nul = dquote then
    if st.isQuoted then
      (st.store str (i - st.tstart)).map fun st =>
        (1, { st with tstart := st.tstart + (i - st.tstart + 2), isQuoted := false })
    else some (0, { st with isQuoted := true, tstart := st.tstart + 1 })
  else if str.getD i nul = space ∧ st.isQuoted = false then
    (st.store str (i - st.tstart)).map fun st =>
      (0, { st with tstart := st.tstart + (i - st.tstart + 1) })
  else if i = str.length - 1 then
    (st.store str (i - st.tstart + 1)).map fun st => (0, st)
  else some (0, st)

/-- The loop from `i` on. -/
def tokenLoop (str : List UInt8) (i : ℕ) (st : Lexer) : Option Lexer :=
  if i < str.length then
    match tokenStep str i st with
    | none => none
    | some (k, st) => tokenLoop str (i + k + 1) st
  else some st
termination_by str.length - i

/-- `tokenize` with a token array of `size` entries. -/
def tokenize (size : ℕ) (str : List UInt8) : Option (List (Option (List UInt8))) :=
  (tokenLoop str 0 ⟨List.replicate size none, 0, 0, false⟩).map (·.tokens)

theorem tokenLoop_of_le {str : List UInt8} {i : ℕ} (h : str.length ≤ i) (st : Lexer) :
    tokenLoop str i st = some st := by
  rw [tokenLoop, if_neg (by omega)]

theorem tokenLoop_of_step {str : List UInt8} {i k : ℕ} {st st' : Lexer} (hi : i < str.length)
    (h : tokenStep str i st = some (k, st')) :
    tokenLoop str i st = tokenLoop str (i + k + 1) st' := by
  rw [tokenLoop, if_pos hi, h]

/-! ### Words and lines of words -/

/-- A word as it is written: bare, or in double quotes. -/
inductive Piece
  | bare (text : List UInt8)
  | quoted (text : List UInt8)
  deriving DecidableEq, Repr

namespace Piece

/-- The word that is meant. -/
def text : Piece → List UInt8
  | bare text => text
  | quoted text => text

/-- The word with its quotes. -/
def written : Piece → List UInt8
  | bare text => text
  | quoted text => dquote :: (text ++ [dquote])

/-- The word goes into a buffer, and nothing in it ends it early. -/
def Fits : Piece → Prop
  | bare text => text ≠ [] ∧ space ∉ text ∧ dquote ∉ text ∧ nul ∉ text ∧ text.length < bufferSize
  | quoted text => dquote ∉ text ∧ nul ∉ text ∧ text.length < bufferSize

instance : DecidablePred Fits
  | bare text => inferInstanceAs (Decidable (text ≠ [] ∧ space ∉ text ∧ dquote ∉ text ∧
      nul ∉ text ∧ text.length < bufferSize))
  | quoted text => inferInstanceAs (Decidable (dquote ∉ text ∧ nul ∉ text ∧
      text.length < bufferSize))

theorem nul_notMem_written {p : Piece} (h : p.Fits) : nul ∉ p.written := by
  cases p with
  | bare text => exact h.2.2.2.1
  | quoted text =>
    have hne : nul ≠ dquote := by decide
    simpa [written, hne] using h.2.1

theorem nul_notMem_text {p : Piece} (h : p.Fits) : nul ∉ p.text := by
  cases p with
  | bare text => exact h.2.2.2.1
  | quoted text => exact h.2.1

theorem text_length_lt {p : Piece} (h : p.Fits) : p.text.length < bufferSize := by
  cases p with
  | bare text => exact h.2.2.2.2
  | quoted text => exact h.2.2

end Piece

/-- The words with one space between them. -/
def join : List Piece → List UInt8
  | [] => []
  | [p] => p.written
  | p :: q :: ps => p.written ++ space :: join (q :: ps)

theorem nul_notMem_join {ps : List Piece} (h : ∀ p ∈ ps, p.Fits) : nul ∉ join ps := by
  induction ps using join.induct with
  | case1 => simp [join]
  | case2 p => exact p.nul_notMem_written (h p (by simp))
  | case3 p q ps ih =>
    obtain ⟨hp, hps⟩ := List.forall_mem_cons.mp h
    have hne : nul ≠ space := by decide
    rw [join, List.mem_append, List.mem_cons]
    exact fun hmem => hmem.elim (p.nul_notMem_written hp) fun h => h.elim hne (ih hps)

/-! ### The loop over a line of words -/

/-- The buffer of a token: the word, and NULs up to its end. -/
def filled (text : List UInt8) : List UInt8 := text.rightpad bufferSize nul

/-- The loop between two words, with the tokens of `done` stored. -/
def Lexer.after (size : ℕ) (done : List (List UInt8)) (tstart : ℕ) (isQuoted : Bool) : Lexer where
  tokens := (done.map (some ∘ filled)).rightpad size none
  tstart := tstart
  tcounter := done.length
  isQuoted := isQuoted

@[simp] theorem Lexer.after_tstart (size : ℕ) (done : List (List UInt8)) (t : ℕ) (q : Bool) :
    (Lexer.after size done t q).tstart = t := rfl

@[simp] theorem Lexer.after_tcounter (size : ℕ) (done : List (List UInt8)) (t : ℕ) (q : Bool) :
    (Lexer.after size done t q).tcounter = done.length := rfl

@[simp] theorem Lexer.after_isQuoted (size : ℕ) (done : List (List UInt8)) (t : ℕ) (q : Bool) :
    (Lexer.after size done t q).isQuoted = q := rfl

theorem store_after {size : ℕ} {done : List (List UInt8)} {pre text rest : List UInt8} {q : Bool}
    (hsize : done.length < size) (hnul : nul ∉ text ++ rest) (htext : text.length ≤ bufferSize) :
    (Lexer.after size done pre.length q).store (pre ++ (text ++ rest)) text.length =
      some (Lexer.after size (done ++ [text]) pre.length q) := by
  -- the zeros of `calloc` end the copy
  have hbuf : strncpy (List.replicate bufferSize nul) ((pre ++ (text ++ rest)).drop pre.length)
      text.length = some (filled text) := by
    rw [List.drop_left, strncpy_of_le hnul (by simp) (by simpa), List.take_left,
      List.drop_replicate, filled, List.rightpad]
  have hdone : (done.map (some ∘ filled)).length < size := by rwa [List.length_map]
  have hroom : done.length < (Lexer.after size done pre.length q).tokens.length := by
    rw [Lexer.after, length_rightpad_of_le hdone.le]
    exact hsize
  have hset : (Lexer.after size done pre.length q).tokens.set done.length (some (filled text)) =
      (Lexer.after size (done ++ [text]) pre.length q).tokens := by
    have h := set_rightpad hdone none (some (filled text))
    rw [List.length_map] at h
    rw [Lexer.after, h, Lexer.after, List.map_append, List.map_singleton]
    rfl
  rw [Lexer.store, if_pos (by exact hroom), Lexer.after_tstart, hbuf, Option.map_some]
  congr 1
  rw [Lexer.after_tcounter, hset, Lexer.after, Lexer.after, List.length_append]
  rfl

theorem getD_length (a c : List UInt8) (b d : UInt8) : (a ++ b :: c).getD a.length d = b := by
  simp [List.getD]

/-- The loop passes over bytes that neither end a word nor the line. -/
theorem tokenLoop_pass {rest : List UInt8} (hrest : rest ≠ []) {st : Lexer} (word : List UInt8) :
    ∀ pre, (∀ b ∈ word, b ≠ dquote ∧ (b = space → st.isQuoted = true)) →
      tokenLoop (pre ++ (word ++ rest)) pre.length st =
        tokenLoop (pre ++ (word ++ rest)) (pre ++ word).length st := by
  induction word with
  | nil =>
    intro pre _
    rw [List.append_nil]
  | cons b word ih =>
    intro pre h
    obtain ⟨⟨hquote, hspace⟩, hword⟩ := List.forall_mem_cons.mp h
    have hpos : 0 < rest.length := List.length_pos_iff.mpr hrest
    have hb : (pre ++ (b :: word ++ rest)).getD pre.length nul = b :=
      getD_length ..
    -- the last byte would end the token
    have hlast : pre.length ≠ (pre ++ (b :: word ++ rest)).length - 1 := by
      simp only [List.length_append, List.length_cons]
      omega
    have hspace' : ¬(b = space ∧ st.isQuoted = false) := by
      rintro ⟨he, hq⟩
      rw [hspace he] at hq
      exact Bool.noConfusion hq
    have hstep : tokenStep (pre ++ (b :: word ++ rest)) pre.length st = some (0, st) := by
      rw [tokenStep, hb, if_neg hquote, if_neg hspace', if_neg hlast]
    have happ : pre ++ (b :: word ++ rest) = (pre ++ [b]) ++ (word ++ rest) := by simp
    rw [tokenLoop_of_step (by simp) hstep]
    have hih := ih (pre ++ [b]) hword
    rw [← happ] at hih
    simpa using hih

section Words

variable {size : ℕ} {done : List (List UInt8)} {pre text rest : List UInt8}

/-- A bare word with a space after it becomes a token. -/
theorem tokenLoop_bare (hsize : done.length < size) (hfits : (Piece.bare text).Fits)
    (hnul : nul ∉ rest) :
    tokenLoop (pre ++ (text ++ space :: rest)) pre.length (.after size done pre.length false) =
      tokenLoop (pre ++ (text ++ space :: rest)) (pre.length + (text.length + 1))
        (.after size (done ++ [text]) (pre.length + (text.length + 1)) false) := by
  obtain ⟨-, hspace, hquote, htext, hlen⟩ := hfits
  have hb : (pre ++ (text ++ space :: rest)).getD (pre ++ text).length nul = space := by
    rw [← List.append_assoc, getD_length]
  have hne : space ≠ dquote := by decide
  have hstore : (Lexer.after size done pre.length false).store (pre ++ (text ++ space :: rest))
      text.length = some (.after size (done ++ [text]) pre.length false) := by
    have hne' : nul ≠ space := by decide
    exact store_after hsize (by simp [htext, hne', hnul]) hlen.le
  have hstep : tokenStep (pre ++ (text ++ space :: rest)) (pre ++ text).length
      (.after size done pre.length false) = some (0, .after size (done ++ [text])
        (pre.length + (text.length + 1)) false) := by
    rw [tokenStep, hb, if_neg hne, if_pos ⟨rfl, rfl⟩, Lexer.after_tstart, List.length_append,
      Nat.add_sub_cancel_left, hstore, Option.map_some, Lexer.after_tstart,
      Nat.add_sub_cancel_left]
    rfl
  -- no byte of the word ends it, the space does
  rw [tokenLoop_pass (List.cons_ne_nil _ _) text pre, tokenLoop_of_step (by simp) hstep]
  · rw [List.length_append, Nat.add_zero, Nat.add_assoc]
  · exact fun b hb => ⟨fun he => hquote (he ▸ hb), fun he => absurd (he ▸ hb) hspace⟩

/-- So does a bare word at the end of the line. -/
theorem tokenLoop_bare_last (hsize : done.length < size) (hfits : (Piece.bare text).Fits) :
    tokenLoop (pre ++ text) pre.length (.after size done pre.length false) =
      some (.after size (done ++ [text]) pre.length false) := by
  obtain ⟨hne, hspace, hquote, htext, hlen⟩ := hfits
  have hstore : (Lexer.after size done pre.length false).store (pre ++ text) text.length =
      some (.after size (done ++ [text]) pre.length false) := by
    have hnul : nul ∉ text ++ [] := by rwa [List.append_nil]
    rw [← store_after hsize hnul hlen.le, List.append_nil]
  obtain ⟨word, b, rfl⟩ : ∃ word b, text = word ++ [b] :=
    ⟨text.dropLast, text.getLast hne, (List.dropLast_append_getLast hne).symm⟩
  have hb : (pre ++ (word ++ [b])).getD (pre ++ word).length nul = b := by
    rw [← List.append_assoc, getD_length]
  have hbquote : b ≠ dquote := fun he => hquote (by simp [he])
  have hbspace : b ≠ space := fun he => hspace (by simp [he])
  -- the last byte of the line is the end of its last token
  have hlast : (pre ++ word).length = (pre ++ (word ++ [b])).length - 1 := by
    simp only [List.length_append, List.length_singleton]
    omega
  have hstep : tokenStep (pre ++ (word ++ [b])) (pre ++ word).length
      (.after size done pre.length false) =
        some (0, .after size (done ++ [word ++ [b]]) pre.length false) := by
    rw [List.length_append, List.length_singleton] at hstore
    rw [tokenStep, hb, if_neg hbquote, if_neg fun h => hbspace h.1, if_pos hlast,
      Lexer.after_tstart, List.length_append, Nat.add_sub_cancel_left, hstore]
    rfl
  rw [tokenLoop_pass (List.cons_ne_nil _ _) word pre, tokenLoop_of_step (by simp) hstep,
    tokenLoop_of_le (by simp; omega)]
  refine fun c hc => ⟨fun he => hquote ?_, fun he => absurd ?_ hspace⟩
  · exact List.mem_append_left _ (he ▸ hc)
  · exact List.mem_append_left _ (he ▸ hc)

/-- A quoted word becomes a token, and the byte after it is passed over. -/
theorem tokenLoop_quoted (hsize : done.length < size) (hfits : (Piece.quoted text).Fits)
    (hnul : nul ∉ rest) :
    tokenLoop (pre ++ ((Piece.quoted text).written ++ rest)) pre.length
        (.after size done pre.length false) =
      tokenLoop (pre ++ ((Piece.quoted text).written ++ rest)) (pre.length + (text.length + 3))
        (.after size (done ++ [text]) (pre.length + (text.length + 3)) false) := by
  obtain ⟨hquote, htext, hlen⟩ := hfits
  have hopen : pre ++ ((Piece.quoted text).written ++ rest) =
      (pre ++ [dquote]) ++ (text ++ dquote :: rest) := by simp [Piece.written]
  rw [hopen]
  have hb : ((pre ++ [dquote]) ++ (text ++ dquote :: rest)).getD pre.length nul = dquote := by
    rw [List.append_assoc, List.singleton_append, getD_length]
  -- the opening quote starts the token behind it
  have hstep : tokenStep ((pre ++ [dquote]) ++ (text ++ dquote :: rest)) pre.length
      (.after size done pre.length false) =
        some (0, .after size done (pre ++ [dquote]).length true) := by
    rw [tokenStep, hb, if_pos rfl, Lexer.after_isQuoted, if_neg Bool.false_ne_true]
    simp [Lexer.after]
  have hb' : ((pre ++ [dquote]) ++ (text ++ dquote :: rest)).getD
      ((pre ++ [dquote]) ++ text).length nul = dquote := by
    rw [← List.append_assoc, getD_length]
  have hstore : (Lexer.after size done (pre ++ [dquote]).length true).store
      ((pre ++ [dquote]) ++ (text ++ dquote :: rest)) text.length =
        some (.after size (done ++ [text]) (pre ++ [dquote]).length true) := by
    have hne : nul ≠ dquote := by decide
    exact store_after hsize (by simp [htext, hne, hnul]) hlen.le
  -- the closing quote ends it, and the index passes over the separator too
  have hstep' : tokenStep ((pre ++ [dquote]) ++ (text ++ dquote :: rest))
      ((pre ++ [dquote]) ++ text).length (.after size done (pre ++ [dquote]).length true) =
        some (1, .after size (done ++ [text]) (pre.length + (text.length + 3)) false) := by
    rw [tokenStep, hb', if_pos rfl, Lexer.after_isQuoted, if_pos rfl, Lexer.after_tstart,
      List.length_append, Nat.add_sub_cancel_left, hstore]
    simp [Lexer.after]
    omega
  have hlen' : pre.length + 0 + 1 = (pre ++ [dquote]).length := by simp
  rw [tokenLoop_of_step (by simp) hstep, hlen', tokenLoop_pass (List.cons_ne_nil _ _) text,
    tokenLoop_of_step (by simp) hstep']
  · congr 1
    simp
    omega
  · exact fun b hb => ⟨fun he => hquote (he ▸ hb), fun _ => rfl⟩

/-- A word with a space after it becomes a token. -/
theorem tokenLoop_word {p : Piece} (hsize : done.length < size) (hfits : p.Fits)
    (hnul : nul ∉ rest) :
    tokenLoop (pre ++ (p.written ++ space :: rest)) pre.length
        (.after size done pre.length false) =
      tokenLoop (pre ++ (p.written ++ space :: rest)) (pre.length + (p.written.length + 1))
        (.after size (done ++ [p.text]) (pre.length + (p.written.length + 1)) false) := by
  cases p with
  | bare text => exact tokenLoop_bare hsize hfits hnul
  | quoted text =>
    have hne : nul ≠ space := by decide
    have hlen : (Piece.quoted text).written.length + 1 = text.length + 3 := by simp [Piece.written]
    rw [hlen]
    exact tokenLoop_quoted hsize hfits (by simp [hne, hnul])

/-- And so does the last word of a line. -/
theorem tokenLoop_word_last {p : Piece} (hsize : done.length < size) (hfits : p.Fits) :
    ∃ t, tokenLoop (pre ++ p.written) pre.length (.after size done pre.length false) =
      some (.after size (done ++ [p.text]) t false) := by
  cases p with
  | bare text => exact ⟨pre.length, tokenLoop_bare_last hsize hfits⟩
  | quoted text =>
    refine ⟨pre.length + (text.length + 3), ?_⟩
    rw [← List.append_nil (Piece.written _), tokenLoop_quoted hsize hfits List.not_mem_nil,
      tokenLoop_of_le (by simp [Piece.written])]
    rfl

end Words

/-- The loop turns a line of words into the tokens that are meant. -/
theorem tokenLoop_join {size : ℕ} (ps : List Piece) :
    ∀ (pre : List UInt8) (done : List (List UInt8)), (∀ p ∈ ps, p.Fits) →
      done.length + ps.length ≤ size →
        ∃ t, tokenLoop (pre ++ join ps) pre.length (.after size done pre.length false) =
          some (.after size (done ++ ps.map Piece.text) t false) := by
  induction ps using join.induct with
  | case1 =>
    intro pre done _ _
    refine ⟨pre.length, ?_⟩
    rw [tokenLoop_of_le (by simp [join]), List.map_nil, List.append_nil]
  | case2 p =>
    intro pre done hfits hsize
    rw [List.length_singleton] at hsize
    exact tokenLoop_word_last (by omega) (hfits p (by simp))
  | case3 p q ps ih =>
    intro pre done hfits hsize
    obtain ⟨hp, hps⟩ := List.forall_mem_cons.mp hfits
    rw [List.length_cons] at hsize
    -- the pieces before are the part of the line already read
    have hpre : pre ++ (p.written ++ space :: join (q :: ps)) =
        (pre ++ (p.written ++ [space])) ++ join (q :: ps) := by simp
    have hlen : pre.length + (p.written.length + 1) = (pre ++ (p.written ++ [space])).length := by
      simp
    obtain ⟨t, ht⟩ := ih (pre ++ (p.written ++ [space])) (done ++ [p.text]) hps (by
      rw [List.length_append, List.length_singleton]
      omega)
    refine ⟨t, ?_⟩
    rw [join, tokenLoop_word (by omega) hp (nul_notMem_join hps), hlen, hpre, ht]
    simp

/-- `tokenize` gives back the words that a line was made of, and NULL after them. -/
theorem tokenize_join {size : ℕ} {ps : List Piece} (hfits : ∀ p ∈ ps, p.Fits)
    (hsize : ps.length ≤ size) :
    tokenize size (join ps) =
      some (((ps.map Piece.text).map (some ∘ filled)).rightpad size none) := by
  obtain ⟨t, ht⟩ := tokenLoop_join ps [] [] hfits (by simpa using hsize)
  have hstart : (⟨List.replicate size none, 0, 0, false⟩ : Lexer) = .after size [] 0 false := rfl
  rw [List.nil_append, List.nil_append, List.length_nil] at ht
  rw [tokenize, hstart, ht]
  rfl

end Batch
end OpSys
