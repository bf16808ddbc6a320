import OpSys.Batch.Pipeline

/-!
# The tokens of any line

What `tokenize` does with an arbitrary line, by recursion on the line instead of by
its indices.  An opening quote moves the start of the token on by one byte, also when
the token has begun before it; a closing quote ends the token, and the byte after it
is never looked at.

## Main definitions

* `wordsFrom`, `wordsOf` — the texts that the loop cuts out of a line.
* `place` — the tokens stored one after the other, `none` at a store out of bounds.
* `tokenLengths` — the lengths of the texts, from the separators of the line alone.
* `SafeTokens` — `tokenize` stays inside its arrays, and so do the scans of its result.

## Main results

* `tokenize_eq_place`, `tokenize_eq_some`, `tokenize_eq_none` — `tokenize` on any line.
* `tokenize_reads_back` — the words that a line was made of, and NULL after them.
* `safeTokens_iff` — the lines on which nothing leaves an array.

## References

`lab3_processes/batch_job_interpreter/cmd_interpreter.c`,
`lab4_signals_and_pipes/batch_job_interpreter_pipes/cmd_interpreter_extd.c`.
-/

namespace OpSys
namespace Batch

open Stdio

/-- The texts that the loop cuts out of the rest of a line, `cur` being the bytes from
`tstart` up to the index. -/
def wordsFrom : Bool → List UInt8 → List UInt8 → List (List UInt8)
  | _, _, [] => []
  | isQuoted, cur, b :: text =>
    if b = dquote then
      if isQuoted then
        match text with
        | [] => [cur]
        | _ :: text => cur :: wordsFrom false [] text
      else wordsFrom true ((cur ++ [b]).drop 1) text
    else if b = space ∧ isQuoted = false then cur :: wordsFrom false [] text
    else if text = [] then [cur ++ [b]]
    else wordsFrom isQuoted (cur ++ [b]) text

/-- The texts that the loop cuts out of a line. -/
def wordsOf (str : List UInt8) : List (List UInt8) := wordsFrom false [] str

/-- The lengths of these texts: `n` bytes lie between `tstart` and the index. -/
def tokenLengths : Bool → ℕ → List UInt8 → List ℕ
  | _, _, [] => []
  | isQuoted, n, b :: text =>
    if b = dquote then
      if isQuoted then
        match text with
        | [] => [n]
        | _ :: text => n :: tokenLengths false 0 text
      else tokenLengths true n text
    else if b = space ∧ isQuoted = false then n :: tokenLengths false 0 text
    else if text = [] then [n + 1]
    else tokenLengths isQuoted (n + 1) text

/-- The texts `ws` stored after those of `done`. -/
def place (size : ℕ) : List (List UInt8) → List (List UInt8) →
    Option (List (Option (List UInt8)))
  | done, [] => some ((done.map (some ∘ filled)).rightpad size none)
  | done, w :: ws =>
    if done.length < size ∧ w.length ≤ bufferSize then place size (done ++ [w]) ws else none

/-- No store of `tokenize` leaves the token array or a buffer, the array has a NULL for
the scans of it to stop at, and every token ends within its buffer. -/
def SafeTokens (size : ℕ) (str : List UInt8) : Prop :=
  ∃ tokens, tokenize size str = some tokens ∧ none ∈ tokens ∧
    ∀ buf, some buf ∈ tokens → buf.length = bufferSize ∧ nul ∈ buf

/-! ### One byte of a line -/

section Byte

variable {isQuoted : Bool} {cur text : List UInt8} {b : UInt8}

@[simp] theorem wordsFrom_close_last : wordsFrom true cur [dquote] = [cur] := by
  rw [wordsFrom, if_pos rfl, if_pos rfl]

@[simp] theorem wordsFrom_close : wordsFrom true cur (dquote :: b :: text) =
    cur :: wordsFrom false [] text := by
  rw [wordsFrom, if_pos rfl, if_pos rfl]

theorem wordsFrom_open : wordsFrom false cur (dquote :: text) =
    wordsFrom true ((cur ++ [dquote]).drop 1) text := by
  rw [wordsFrom.eq_def]
  exact (if_pos rfl).trans (if_neg Bool.false_ne_true)

theorem wordsFrom_space : wordsFrom false cur (space :: text) =
    cur :: wordsFrom false [] text := by
  have hne : space ≠ dquote := by decide
  rw [wordsFrom.eq_def]
  exact (if_neg hne).trans (if_pos ⟨rfl, rfl⟩)

theorem wordsFrom_last (hquote : b ≠ dquote) (hspace : ¬(b = space ∧ isQuoted = false)) :
    wordsFrom isQuoted cur [b] = [cur ++ [b]] := by
  rw [wordsFrom, if_neg hquote, if_neg hspace, if_pos rfl]

theorem wordsFrom_pass (hne : text ≠ []) (hquote : b ≠ dquote)
    (hspace : ¬(b = space ∧ isQuoted = false)) :
    wordsFrom isQuoted cur (b :: text) = wordsFrom isQuoted (cur ++ [b]) text := by
  rw [wordsFrom.eq_def]
  exact ((if_neg hquote).trans (if_neg hspace)).trans (if_neg hne)

end Byte

/-! ### The loop on any line -/

theorem store_after_eq {size : ℕ} {done : List (List UInt8)} {pre text rest : List UInt8} {q : Bool}
    (hsize : done.length ≤ size) (hnul : nul ∉ text ++ rest) :
    (Lexer.after size done pre.length q).store (pre ++ (text ++ rest)) text.length =
      if done.length < size ∧ text.length ≤ bufferSize then
        some (Lexer.after size (done ++ [text]) pre.length q) else none := by
  split
  · rename_i h
    exact store_after h.1 hnul h.2
  · rename_i h
    have hlen : (Lexer.after size done pre.length q).tokens.length = size :=
      length_rightpad_of_le (by rwa [List.length_map]) none
    rw [Lexer.store, hlen, Lexer.after_tcounter]
    split
    · -- there is an entry left, so the text is too long for a buffer
      have hlong : ¬text.length ≤ (List.replicate bufferSize nul).length := by
        rw [List.length_replicate]
        exact fun hle => h ⟨by assumption, hle⟩
      rw [strncpy, if_neg hlong, Option.map_none]
    · rfl

theorem getD_append_cons (pre cur text : List UInt8) (b : UInt8) :
    (pre ++ (cur ++ b :: text)).getD (pre.length + cur.length) nul = b := by
  rw [← List.append_assoc, ← List.length_append, getD_length]

section Step

variable {size : ℕ} {done : List (List UInt8)} {pre cur text : List UInt8} {b : UInt8}

theorem tokenStep_close (hsize : done.length ≤ size) (hnul : nul ∉ cur ++ dquote :: text) :
    tokenStep (pre ++ (cur ++ dquote :: text)) (pre.length + cur.length)
        (.after size done pre.length true) =
      if done.length < size ∧ cur.length ≤ bufferSize then
        some (1, .after size (done ++ [cur]) (pre.length + (cur.length + 2)) false) else none := by
  rw [tokenStep, getD_append_cons, if_pos rfl, Lexer.after_isQuoted, if_pos rfl, Lexer.after_tstart,
    Nat.add_sub_cancel_left, store_after_eq hsize hnul]
  split
  · rw [Option.map_some, Lexer.after_tstart, Nat.add_sub_cancel_left]
    rfl
  · rfl

theorem tokenStep_open :
    tokenStep (pre ++ (cur ++ dquote :: text)) (pre.length + cur.length)
        (.after size done pre.length false) = some (0, .after size done (pre.length + 1) true) := by
  rw [tokenStep, getD_append_cons, if_pos rfl, Lexer.after_isQuoted, if_neg Bool.false_ne_true]
  rfl

theorem tokenStep_space (hsize : done.length ≤ size) (hnul : nul ∉ cur ++ space :: text) :
    tokenStep (pre ++ (cur ++ space :: text)) (pre.length + cur.length)
        (.after size done pre.length false) =
      if done.length < size ∧ cur.length ≤ bufferSize then
        some (0, .after size (done ++ [cur]) (pre.length + (cur.length + 1)) false) else none := by
  have hne : space ≠ dquote := by decide
  rw [tokenStep, getD_append_cons, if_neg hne, if_pos ⟨rfl, rfl⟩, Lexer.after_tstart,
    Nat.add_sub_cancel_left, store_after_eq hsize hnul]
  split
  · rw [Option.map_some, Lexer.after_tstart, Nat.add_sub_cancel_left]
    rfl
  · rfl

theorem tokenStep_last {q : Bool} (hsize : done.length ≤ size) (hnul : nul ∉ cur ++ [b])
    (hquote : b ≠ dquote) (hspace : ¬(b = space ∧ q = false)) :
    tokenStep (pre ++ (cur ++ [b])) (pre.length + cur.length) (.after size done pre.length q) =
      if done.length < size ∧ (cur ++ [b]).length ≤ bufferSize then
        some (0, .after size (done ++ [cur ++ [b]]) pre.length q) else none := by
  have hlast : pre.length + cur.length = (pre ++ (cur ++ [b])).length - 1 := by
    simp only [List.length_append, List.length_singleton]
    omega
  have hstore := @store_after_eq size done pre (cur ++ [b]) [] q hsize
    (by rwa [List.append_nil] : nul ∉ (cur ++ [b]) ++ [])
  rw [List.append_nil] at hstore
  rw [tokenStep, getD_append_cons, if_neg hquote, Lexer.after_isQuoted, if_neg hspace,
    if_pos hlast, Lexer.after_tstart, Nat.add_sub_cancel_left,
    ← List.length_singleton (a := b), ← List.length_append, hstore]
  split <;> rfl

theorem tokenStep_skip {q : Bool} (hne : text ≠ []) (hquote : b ≠ dquote)
    (hspace : ¬(b = space ∧ q = false)) :
    tokenStep (pre ++ (cur ++ b :: text)) (pre.length + cur.length)
        (.after size done pre.length q) = some (0, .after size done pre.length q) := by
  have hpos : 0 < text.length := List.length_pos_iff.mpr hne
  have hlast : ¬pre.length + cur.length = (pre ++ (cur ++ b :: text)).length - 1 := by
    simp only [List.length_append, List.length_cons]
    omega
  rw [tokenStep, getD_append_cons, if_neg hquote, Lexer.after_isQuoted, if_neg hspace, if_neg hlast]

end Step

/-- A step that stores a token if there is room for it. -/
theorem tokenLoop_of_ite {str : List UInt8} {i k : ℕ} {st st' : Lexer} {c : Prop} [Decidable c]
    (hi : i < str.length) (h : tokenStep str i st = if c then some (k, st') else none) :
    tokenLoop str i st = if c then tokenLoop str (i + k + 1) st' else none := by
  rw [tokenLoop, if_pos hi, h]
  by_cases hc : c
  · rw [if_pos hc, if_pos hc]
  · rw [if_neg hc, if_neg hc]

/-- The loop stores the texts of `wordsFrom`, one after the other. -/
theorem tokenLoop_eq_place {size : ℕ} (q : Bool) (cur text : List UInt8) :
    ∀ (pre : List UInt8) (done : List (List UInt8)), done.length ≤ size → nul ∉ cur ++ text →
      (tokenLoop (pre ++ (cur ++ text)) (pre.length + cur.length)
        (.after size done pre.length q)).map (·.tokens) =
          place size done (wordsFrom q cur text) := by
  induction q, cur, text using wordsFrom.induct with
  | case1 q cur =>
    intro pre done _ _
    rw [tokenLoop_of_le (by simp), wordsFrom]
    rfl
  | case2 cur =>
    intro pre done hsize hnul
    have hstep := @tokenStep_close size done pre cur [] hsize hnul
    rw [tokenLoop_of_ite (by simp) hstep, wordsFrom_close_last, place]
    split
    · rw [tokenLoop_of_le (by simp; omega)]
      rfl
    · rfl
  | case3 cur c text ih =>
    intro pre done hsize hnul
    have hstep := @tokenStep_close size done pre cur (c :: text) hsize hnul
    rw [tokenLoop_of_ite (by simp) hstep, wordsFrom_close, place]
    split
    · rename_i hroom
      -- the byte `c` goes with the quote
      have happ : pre ++ (cur ++ dquote :: c :: text) =
          (pre ++ (cur ++ [dquote, c])) ++ ([] ++ text) := by simp
      have hnul' : nul ∉ [] ++ text := fun h => hnul (by simp at h ⊢; simp [h])
      have hih := ih (pre ++ (cur ++ [dquote, c])) (done ++ [cur]) (by simp; omega) hnul'
      rw [← happ] at hih
      rw [← hih]
      simp only [List.length_append, List.length_cons, List.length_nil, Nat.add_assoc]
    · rfl
  | case4 q cur text hq ih =>
    intro pre done hsize hnul
    obtain rfl : q = false := by simpa using hq
    have hstep := @tokenStep_open size done pre cur text
    rw [tokenLoop_of_step (by simp) hstep, wordsFrom_open]
    -- the first byte of what is read so far goes over to the part before the token
    obtain ⟨a, rest, hcons⟩ := List.exists_cons_of_ne_nil (List.concat_ne_nil dquote cur)
    have hmid : cur ++ dquote :: text = a :: (rest ++ text) := by
      rw [← List.cons_append, ← hcons, List.append_assoc, List.singleton_append]
    have happ : pre ++ (cur ++ dquote :: text) = (pre ++ [a]) ++ (rest ++ text) := by
      rw [hmid, List.append_assoc, List.singleton_append]
    have hlen : cur.length + 1 = rest.length + 1 := by simpa using congrArg List.length hcons
    rw [hcons, List.drop_succ_cons, List.drop_zero]
    rw [hcons, List.drop_succ_cons, List.drop_zero] at ih
    have hnul' : nul ∉ rest ++ text := by
      rw [hmid] at hnul
      exact fun h => hnul (List.mem_cons_of_mem _ h)
    have hih := ih (pre ++ [a]) done hsize hnul'
    rw [← happ] at hih
    rw [← hih, List.length_append, List.length_singleton, Nat.add_zero, Nat.add_assoc, hlen,
      Nat.add_assoc, Nat.add_comm 1]
  | case5 q cur b text hquote hspace ih =>
    intro pre done hsize hnul
    obtain ⟨rfl, rfl⟩ := hspace
    have hstep := @tokenStep_space size done pre cur text hsize hnul
    rw [tokenLoop_of_ite (by simp) hstep, wordsFrom_space, place]
    split
    · have happ : pre ++ (cur ++ space :: text) = (pre ++ (cur ++ [space])) ++ ([] ++ text) := by
        simp
      have hnul' : nul ∉ [] ++ text := fun h => hnul (by simp at h ⊢; simp [h])
      have hih := ih (pre ++ (cur ++ [space])) (done ++ [cur]) (by simp; omega) hnul'
      rw [← happ] at hih
      rw [← hih]
      simp only [List.length_append, List.length_cons, List.length_nil, Nat.add_assoc, Nat.add_zero]
    · rfl
  | case6 q cur b hquote hspace =>
    intro pre done hsize hnul
    have hstep := @tokenStep_last size done pre cur b q hsize hnul hquote hspace
    rw [tokenLoop_of_ite (by simp) hstep, wordsFrom_last hquote hspace, place]
    split
    · rw [tokenLoop_of_le (by simp; omega)]
      rfl
    · rfl
  | case7 q cur b text hquote hspace hne ih =>
    intro pre done hsize hnul
    have hstep := @tokenStep_skip size done pre cur text b q hne hquote hspace
    have happ : pre ++ (cur ++ b :: text) = pre ++ ((cur ++ [b]) ++ text) := by simp
    rw [tokenLoop_of_step (by simp) hstep, wordsFrom_pass hne hquote hspace,
      ← ih pre done hsize (by simpa using hnul), happ]
    simp only [List.length_append, List.length_cons, List.length_nil, Nat.add_assoc, Nat.add_zero]

/-- `tokenize` on any line. -/
theorem tokenize_eq_place (size : ℕ) {str : List UInt8} (hnul : nul ∉ str) :
    tokenize size str = place size [] (wordsOf str) :=
  tokenLoop_eq_place false [] str [] [] (Nat.zero_le _) hnul

theorem place_eq {size : ℕ} (ws : List (List UInt8)) :
    ∀ done : List (List UInt8), done.length ≤ size →
      place size done ws =
        if (done ++ ws).length ≤ size ∧ ∀ w ∈ ws, w.length ≤ bufferSize then
          some (((done ++ ws).map (some ∘ filled)).rightpad size none) else none := by
  induction ws with
  | nil =>
    intro done hdone
    rw [place, List.append_nil, if_pos ⟨hdone, by simp⟩]
  | cons w ws ih =>
    intro done hdone
    have happ : done ++ w :: ws = (done ++ [w]) ++ ws := by simp
    rw [place]
    -- a word that finds room comes behind the others
    by_cases hroom : done.length < size ∧ w.length ≤ bufferSize
    · rw [if_pos hroom, ih (done ++ [w]) (by simp; omega), ← happ]
      congr 1
      simp [hroom.2]
    · -- a word without a place is missing from the whole
      rw [if_neg hroom, if_neg]
      rintro ⟨hlen, hall⟩
      refine hroom ⟨?_, hall w (by simp)⟩
      rw [List.length_append, List.length_cons] at hlen
      omega

section Tokenize

variable {size : ℕ} {str : List UInt8}

/-- A line whose texts go into the arrays. -/
theorem tokenize_eq_some (hnul : nul ∉ str) (hsize : (wordsOf str).length ≤ size)
    (hlen : ∀ w ∈ wordsOf str, w.length ≤ bufferSize) :
    tokenize size str = some (((wordsOf str).map (some ∘ filled)).rightpad size none) := by
  rw [tokenize_eq_place size hnul, place_eq _ [] (Nat.zero_le _), List.nil_append,
    if_pos ⟨hsize, hlen⟩]

/-- On all other lines a store is out of bounds. -/
theorem tokenize_eq_none (hnul : nul ∉ str)
    (h : ¬((wordsOf str).length ≤ size ∧ ∀ w ∈ wordsOf str, w.length ≤ bufferSize)) :
    tokenize size str = none := by
  rw [tokenize_eq_place size hnul, place_eq _ [] (Nat.zero_le _), List.nil_append, if_neg h]

end Tokenize

/-! ### The words that a line was made of -/

/-- **The words are read back.**  On the words of a list with fewer of them than the token
array has entries, `tokenize` returns these words and NULL. -/
theorem tokenize_reads_back {size : ℕ} {ps : List Piece} (hfits : ∀ p ∈ ps, p.Fits)
    (hsize : ps.length < size) :
    (tokenize size (join ps)).bind readArgs = some (ps.map Piece.text) := by
  obtain ⟨k, hk⟩ := rightpad_eq_append_cons (n := size)
    (l := (ps.map Piece.text).map (some ∘ filled)) (by simpa using hsize) none
  rw [tokenize_join hfits hsize.le, Option.bind_some, hk]
  apply readArgs_append
  intro text htext
  obtain ⟨p, hp, rfl⟩ := List.mem_map.mp htext
  exact ⟨Piece.nul_notMem_text (hfits p hp), Piece.text_length_lt (hfits p hp)⟩

/-- The line `ls "a b" "" -l` in the array of the interpreter without pipes. -/
theorem tokenize_reads_back_ls :
    (tokenize (maxArgs + 2) (join [.bare [108, 115], .quoted [97, 32, 98], .quoted [],
      .bare [45, 108]])).bind readArgs = some [[108, 115], [97, 32, 98], [], [45, 108]] :=
  tokenize_reads_back (by decide) (by decide)

/-! ### The bounds -/

theorem map_length_wordsFrom (q : Bool) (cur text : List UInt8) :
    (wordsFrom q cur text).map List.length = tokenLengths q cur.length text := by
  induction q, cur, text using wordsFrom.induct with
  | case1 q cur => rw [wordsFrom, tokenLengths, List.map_nil]
  | case2 cur =>
    rw [wordsFrom_close_last, tokenLengths, if_pos rfl, if_pos rfl]
    rfl
  | case3 cur c text ih =>
    rw [wordsFrom_close, tokenLengths, if_pos rfl, if_pos rfl, List.map_cons, ih]
    rfl
  | case4 q cur text hq ih =>
    obtain rfl : q = false := by simpa using hq
    -- the quote comes in at one end and a byte goes out at the other
    have hlen : ((cur ++ [dquote]).drop 1).length = cur.length := by simp
    rw [wordsFrom_open, ih, hlen, tokenLengths.eq_def false]
    exact ((if_pos rfl).trans (if_neg Bool.false_ne_true)).symm
  | case5 q cur b text hquote hspace ih =>
    obtain ⟨rfl, rfl⟩ := hspace
    rw [wordsFrom_space, List.map_cons, ih, tokenLengths.eq_def _ _ (space :: text)]
    exact ((if_neg hquote).trans (if_pos ⟨rfl, rfl⟩)).symm
  | case6 q cur b hquote hspace =>
    rw [wordsFrom_last hquote hspace, tokenLengths, if_neg hquote, if_neg hspace, if_pos rfl]
    simp
  | case7 q cur b text hquote hspace hne ih =>
    rw [wordsFrom_pass hne hquote hspace, ih, List.length_append, List.length_singleton,
      tokenLengths.eq_def _ _ (b :: text)]
    exact (((if_neg hquote).trans (if_neg hspace)).trans (if_neg hne)).symm

theorem nul_mem_filled_iff {text : List UInt8} (hnul : nul ∉ text) :
    nul ∈ filled text ↔ text.length < bufferSize := by
  rw [filled, List.rightpad, List.mem_append, List.mem_replicate]
  constructor
  · rintro (h | ⟨h, -⟩)
    · exact absurd h hnul
    · omega
  · intro h
    exact Or.inr ⟨by omega, rfl⟩

/-- The texts are made of bytes of the line. -/
theorem mem_of_mem_wordsFrom {q : Bool} {cur text w : List UInt8} (hw : w ∈ wordsFrom q cur text)
    {b : UInt8} (hb : b ∈ w) : b ∈ cur ++ text := by
  induction q, cur, text using wordsFrom.induct with
  | case1 q cur =>
    rw [wordsFrom] at hw
    exact absurd hw List.not_mem_nil
  | case2 cur =>
    rw [wordsFrom_close_last, List.mem_singleton] at hw
    exact List.mem_append_left _ (hw ▸ hb)
  | case3 cur c text ih =>
    rw [wordsFrom_close] at hw
    rcases List.mem_cons.mp hw with rfl | hw
    · exact List.mem_append_left _ hb
    · exact List.mem_append_right _ (List.mem_cons_of_mem _ (List.mem_cons_of_mem _ (ih hw)))
  | case4 q cur text hq ih =>
    obtain rfl : q = false := by simpa using hq
    rw [wordsFrom_open] at hw
    rcases List.mem_append.mp (ih hw) with hmem | hmem
    · -- the quoted words have lost their quote
      have := List.mem_of_mem_drop hmem
      simp at this ⊢
      tauto
    · simp [hmem]
  | case5 q cur b text hquote hspace ih =>
    obtain ⟨rfl, rfl⟩ := hspace
    rw [wordsFrom_space] at hw
    rcases List.mem_cons.mp hw with rfl | hw
    · exact List.mem_append_left _ hb
    · exact List.mem_append_right _ (List.mem_cons_of_mem _ (ih hw))
  | case6 q cur b hquote hspace =>
    rw [wordsFrom_last hquote hspace, List.mem_singleton] at hw
    exact hw ▸ hb
  | case7 q cur b text hquote hspace hne ih =>
    rw [wordsFrom_pass hne hquote hspace] at hw
    simpa using ih hw

theorem nul_notMem_wordsOf {str w : List UInt8} (hnul : nul ∉ str) (hw : w ∈ wordsOf str) :
    nul ∉ w :=
  fun h => hnul (mem_of_mem_wordsFrom hw h)

/-- **The bounds of `tokenize`.**  Nothing leaves an array if and only if the line calls for
fewer tokens than the array has entries, and for none of `BUFFER_SIZE` bytes or more. -/
theorem safeTokens_iff (size : ℕ) (line : StrMem) :
    SafeTokens size line.text ↔ (tokenLengths false 0 line.text).length < size ∧
      ∀ n ∈ tokenLengths false 0 line.text, n < bufferSize := by
  have hnul := line.nul_notMem_text
  have hlengths : tokenLengths false 0 line.text = (wordsOf line.text).map List.length :=
    (map_length_wordsFrom false [] line.text).symm
  rw [hlengths, List.length_map, List.forall_mem_map]
  constructor
  · rintro ⟨tokens, htokens, hnone, hends⟩
    by_cases hroom : (wordsOf line.text).length ≤ size ∧
        ∀ w ∈ wordsOf line.text, w.length ≤ bufferSize
    · rw [tokenize_eq_some hnul hroom.1 hroom.2] at htokens
      obtain rfl := Option.some.inj htokens
      rw [List.rightpad, List.mem_append, List.length_map] at hnone
      refine ⟨?_, fun w hw => ?_⟩
      · -- no token is NULL, so the NULL stands behind them
        rcases hnone with h | h
        · obtain ⟨w, -, hw⟩ := List.mem_map.mp h
          exact absurd hw (Option.some_ne_none _)
        · have := (List.mem_replicate.mp h).1
          omega
      · have hmem : some (filled w) ∈
            ((wordsOf line.text).map (some ∘ filled)).rightpad size none :=
          List.mem_append_left _ (List.mem_map.mpr ⟨w, hw, rfl⟩)
        exact (nul_mem_filled_iff (nul_notMem_wordsOf hnul hw)).mp (hends _ hmem).2
    · rw [tokenize_eq_none hnul hroom] at htokens
      exact absurd htokens (Option.some_ne_none _).symm
  · rintro ⟨hsize, hlen⟩
    refine ⟨_, tokenize_eq_some hnul hsize.le fun w hw => (hlen w hw).le, ?_, ?_⟩
    · obtain ⟨k, hk⟩ := rightpad_eq_append_cons (n := size)
        (l := (wordsOf line.text).map (some ∘ filled)) (by simpa using hsize) none
      rw [hk]
      simp
    · intro buf hbuf
      rcases List.mem_append.mp hbuf with h | h
      · obtain ⟨w, hw, heq⟩ := List.mem_map.mp h
        obtain rfl := Option.some.inj heq
        exact ⟨length_rightpad_of_le (hlen w hw).le _,
          (nul_mem_filled_iff (nul_notMem_wordsOf hnul hw)).mpr (hlen w hw)⟩
      · exact absurd (List.eq_of_mem_replicate h) (Option.some_ne_none _)

/-- Seven words fill the array of the interpreter without pipes, and no NULL is left. -/
theorem seven_words :
    ¬ SafeTokens (maxArgs + 2) [97, 32, 97, 32, 97, 32, 97, 32, 97, 32, 97, 32, 97] := by
  rintro ⟨tokens, htokens, hnone, -⟩
  have hwords : wordsOf [97, 32, 97, 32, 97, 32, 97, 32, 97, 32, 97, 32, 97] =
      List.replicate (maxArgs + 2) [97] := by decide
  rw [tokenize_eq_some (by decide) (by rw [hwords]; decide) (by rw [hwords]; decide),
    hwords] at htokens
  obtain rfl := Option.some.inj htokens
  simp [List.rightpad, maxArgs] at hnone

end Batch
end OpSys
