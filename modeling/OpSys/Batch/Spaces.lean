import OpSys.Batch.Words

/-!
# Runs of spaces

A line in which words may have more than one space between them, and the line with one
space in place of every such run.  `tokenize` starts a new word after every single space,
so a run of them leaves empty tokens.

## Main definitions

* `squeeze` — the line with every run of spaces outside quotes replaced by one space.
* `Spaced`, `SpacedLine` — words with one or more spaces between them.
* `SpacesDoNotMatter` — `tokenize` gives the same tokens for the line and its `squeeze`.

## Main results

* `squeeze_spaced`, `map_text_sublist`, `length_wordsOf` — the two lines and their tokens.
* `spacesDoNotMatter_iff` — the lines on which the spaces do not matter.

## References

`lab3_processes/batch_job_interpreter/cmd_interpreter.c`,
`lab4_signals_and_pipes/batch_job_interpreter_pipes/cmd_interpreter_extd.c`.
-/

namespace OpSys
namespace Batch

open Stdio

/-- A line with one space in place of every run of spaces outside quotes. -/
def squeeze : Bool → List UInt8 → List UInt8
  | _, [] => []
  | isQuoted, b :: text =>
    if b = dquote then b :: squeeze (!isQuoted) text
    else if b = space ∧ isQuoted = false ∧ text.head? = some space then squeeze isQuoted text
    else b :: squeeze isQuoted text

/-- A word of a line, whatever its length. -/
def Piece.Formed : Piece → Prop
  | bare text => text ≠ [] ∧ space ∉ text ∧ dquote ∉ text ∧ nul ∉ text
  | quoted text => dquote ∉ text ∧ nul ∉ text

/-- The words with one or more spaces between them. -/
inductive Spaced : List Piece → List UInt8 → Prop
  | nil : Spaced [] []
  | single (p : Piece) : Spaced [p] p.written
  | cons (p q : Piece) (k : ℕ) (ps : List Piece) (text : List UInt8) : Spaced (q :: ps) text →
      Spaced (p :: q :: ps) (p.written ++ (List.replicate (k + 1) space ++ text))

/-- A line whose quotes are balanced and whose quoted words stand between spaces. -/
structure SpacedLine where
  pieces : List Piece
  text : List UInt8
  spaced : Spaced pieces text
  formed : ∀ p ∈ pieces, p.Formed

/-- The tokens of the line are those of the line with single spaces, and no more of them
are empty than words are. -/
def SpacesDoNotMatter (size : ℕ) (line : SpacedLine) : Prop :=
  tokenize size line.text = tokenize size (squeeze false line.text) ∧
    ∀ tokens, tokenize size line.text = some tokens →
      tokens.count (some (filled [])) = (line.pieces.map Piece.text).count []

/-! ### The squeezed line -/

theorem squeeze_cons {q : Bool} {b : UInt8} {text : List UInt8} (hquote : b ≠ dquote)
    (hspace : ¬(b = space ∧ q = false ∧ text.head? = some space)) :
    squeeze q (b :: text) = b :: squeeze q text := by
  rw [squeeze, if_neg hquote, if_neg hspace]

theorem squeeze_pass {q : Bool} {rest : List UInt8} (word : List UInt8)
    (h : ∀ b ∈ word, b ≠ dquote ∧ (b = space → q = true)) :
    squeeze q (word ++ rest) = word ++ squeeze q rest := by
  induction word with
  | nil => rfl
  | cons b word ih =>
    obtain ⟨⟨hquote, hspace⟩, hword⟩ := List.forall_mem_cons.mp h
    have hnot : ¬(b = space ∧ q = false ∧ (word ++ rest).head? = some space) := by
      rintro ⟨he, hq, -⟩
      rw [hspace he] at hq
      exact Bool.noConfusion hq
    rw [List.cons_append, squeeze_cons hquote hnot, ih hword, List.cons_append]

theorem squeeze_dquote (q : Bool) (text : List UInt8) :
    squeeze q (dquote :: text) = dquote :: squeeze (!q) text := by
  rw [squeeze, if_pos rfl]

theorem squeeze_written {p : Piece} (h : p.Formed) (rest : List UInt8) :
    squeeze false (p.written ++ rest) = p.written ++ squeeze false rest := by
  cases p with
  | bare text =>
    obtain ⟨-, hspace, hquote, -⟩ := h
    exact squeeze_pass text fun b hb =>
      ⟨fun he => hquote (he ▸ hb), fun he => absurd (he ▸ hb) hspace⟩
  | quoted text =>
    have hpass : squeeze true (text ++ dquote :: rest) = text ++ squeeze true (dquote :: rest) :=
      squeeze_pass text fun b hb => ⟨fun he => h.1 (he ▸ hb), fun _ => rfl⟩
    rw [Piece.written, List.cons_append, squeeze_dquote, Bool.not_false, List.append_assoc,
      List.singleton_append, hpass, squeeze_dquote, Bool.not_true]
    simp

/-- Of a run of spaces the last one is left. -/
theorem squeeze_spaces {rest : List UInt8} (hrest : rest.head? ≠ some space) (k : ℕ) :
    squeeze false (List.replicate (k + 1) space ++ rest) = space :: squeeze false rest := by
  have hne : space ≠ dquote := by decide
  induction k with
  | zero => exact squeeze_cons hne fun h => hrest h.2.2
  | succ k ih =>
    rw [List.replicate_succ, List.cons_append, squeeze, if_neg hne, if_pos ⟨rfl, rfl, rfl⟩]
    exact ih

theorem head?_written {p : Piece} (h : p.Formed) (rest : List UInt8) :
    (p.written ++ rest).head? ≠ some space := by
  have hne : dquote ≠ space := by decide
  cases p with
  | bare text =>
    obtain ⟨hnil, hspace, -⟩ := h
    obtain ⟨b, word, rfl⟩ := List.exists_cons_of_ne_nil hnil
    intro he
    exact hspace (by simpa [Piece.written, eq_comm] using Or.inl (Option.some.inj he))
  | quoted text => exact fun he => hne (Option.some.inj he)

theorem Spaced.head? {p : Piece} {ps : List Piece} {text : List UInt8} (h : Spaced (p :: ps) text)
    (hp : p.Formed) : text.head? ≠ some space := by
  cases h with
  | single => simpa using head?_written hp []
  | cons _ q k ps text h => exact head?_written hp _

/-- The squeezed line has the same words, with one space between them. -/
theorem squeeze_spaced {ps : List Piece} {text : List UInt8} (h : Spaced ps text)
    (hformed : ∀ p ∈ ps, p.Formed) : squeeze false text = join ps := by
  induction h with
  | nil => rfl
  | single p =>
    have hword := squeeze_written (hformed p (by simp)) []
    rw [List.append_nil] at hword
    rw [hword, join]
    simp [squeeze]
  | cons p q k ps text h ih =>
    obtain ⟨hp, hps⟩ := List.forall_mem_cons.mp hformed
    have hq : q.Formed := hps q (by simp)
    rw [squeeze_written hp, squeeze_spaces (h.head? hq), ih hps, join]

/-- Squeezing only takes bytes away. -/
theorem squeeze_sublist (q : Bool) (text : List UInt8) : (squeeze q text).Sublist text := by
  induction text generalizing q with
  | nil => exact List.Sublist.slnil
  | cons b text ih =>
    rw [squeeze]
    split
    · exact (ih _).cons_cons b
    · split
      · exact (ih _).cons b
      · exact (ih _).cons_cons b

/-! ### The tokens -/

theorem wordsFrom_append {q : Bool} {rest : List UInt8} (hrest : rest ≠ []) (word : List UInt8) :
    ∀ cur, (∀ b ∈ word, b ≠ dquote ∧ (b = space → q = true)) →
      wordsFrom q cur (word ++ rest) = wordsFrom q (cur ++ word) rest := by
  induction word with
  | nil =>
    intro cur _
    rw [List.nil_append, List.append_nil]
  | cons b word ih =>
    intro cur h
    obtain ⟨⟨hquote, hspace⟩, hword⟩ := List.forall_mem_cons.mp h
    have hnot : ¬(b = space ∧ q = false) := by
      rintro ⟨he, hq⟩
      rw [hspace he] at hq
      exact Bool.noConfusion hq
    rw [List.cons_append, wordsFrom_pass (by simp [hrest]) hquote hnot, ih _ hword,
      List.append_assoc, List.singleton_append]

/-- A quoted word ends at its second quote, and takes the byte after that with it. -/
theorem wordsOf_quoted {text : List UInt8} (hquote : dquote ∉ text) (rest : List UInt8) :
    wordsOf ((Piece.quoted text).written ++ rest) = text :: wordsOf (rest.drop 1) := by
  have hpass : wordsFrom true [] (text ++ dquote :: rest) = wordsFrom true text (dquote :: rest) :=
    wordsFrom_append (List.cons_ne_nil _ _) text [] fun b hb =>
      ⟨fun he => hquote (he ▸ hb), fun _ => rfl⟩
  have hopen : wordsOf ((Piece.quoted text).written ++ rest) =
      wordsFrom true [] (text ++ dquote :: rest) := by
    rw [Piece.written, List.cons_append, List.append_assoc, List.singleton_append, wordsOf,
      wordsFrom_open]
    rfl
  rw [hopen, hpass]
  cases rest with
  | nil =>
    rw [wordsFrom_close_last]
    rfl
  | cons b rest =>
    rw [wordsFrom_close]
    rfl

theorem wordsOf_written {p : Piece} (h : p.Formed) : wordsOf p.written = [p.text] := by
  cases p with
  | bare text =>
    obtain ⟨hnil, hspace, hquote, -⟩ := h
    obtain ⟨word, b, rfl⟩ : ∃ word b, text = word ++ [b] :=
      ⟨text.dropLast, text.getLast hnil, (List.dropLast_append_getLast hnil).symm⟩
    have hbquote : b ≠ dquote := fun he => hquote (by simp [he])
    have hbspace : b ≠ space := fun he => hspace (by simp [he])
    have hpass : wordsFrom false [] (word ++ [b]) = wordsFrom false word [b] :=
      wordsFrom_append (List.cons_ne_nil _ _) word [] fun c hc =>
        ⟨fun he => hquote (by simp [← he, hc]), fun he => absurd (by simp [← he, hc]) hspace⟩
    rw [Piece.written, wordsOf, hpass, wordsFrom_last hbquote fun h => hbspace h.1]
    rfl
  | quoted text =>
    have hword := wordsOf_quoted h.1 []
    rw [List.append_nil] at hword
    rw [hword]
    rfl

theorem wordsOf_written_space {p : Piece} (h : p.Formed) (rest : List UInt8) :
    wordsOf (p.written ++ space :: rest) = p.text :: wordsOf rest := by
  cases p with
  | bare text =>
    obtain ⟨-, hspace, hquote, -⟩ := h
    have hpass : wordsFrom false [] (text ++ space :: rest) =
        wordsFrom false text (space :: rest) :=
      wordsFrom_append (List.cons_ne_nil _ _) text [] fun b hb =>
        ⟨fun he => hquote (he ▸ hb), fun he => absurd (he ▸ hb) hspace⟩
    rw [Piece.written, wordsOf, hpass, wordsFrom_space]
    rfl
  | quoted text => exact wordsOf_quoted h.1 (space :: rest)

/-- Every further space is an empty token. -/
theorem wordsOf_spaces (k : ℕ) (rest : List UInt8) :
    wordsOf (List.replicate k space ++ rest) = List.replicate k [] ++ wordsOf rest := by
  induction k with
  | zero => rfl
  | succ k ih =>
    rw [List.replicate_succ, List.cons_append, wordsOf, wordsFrom_space, List.replicate_succ,
      List.cons_append, ← ih]
    rfl

theorem wordsOf_spaced_cons {p : Piece} (h : p.Formed) (k : ℕ) (text : List UInt8) :
    wordsOf (p.written ++ (List.replicate (k + 1) space ++ text)) =
      p.text :: (List.replicate k [] ++ wordsOf text) := by
  rw [List.replicate_succ, List.cons_append, wordsOf_written_space h, wordsOf_spaces]

/-- The words are among the tokens, in their order. -/
theorem map_text_sublist {ps : List Piece} {text : List UInt8} (h : Spaced ps text)
    (hformed : ∀ p ∈ ps, p.Formed) : (ps.map Piece.text).Sublist (wordsOf text) := by
  induction h with
  | nil => exact List.nil_sublist _
  | single p => rw [wordsOf_written (hformed p (by simp)), List.map_singleton]
  | cons p q k ps text h ih =>
    obtain ⟨hp, hps⟩ := List.forall_mem_cons.mp hformed
    rw [wordsOf_spaced_cons hp, List.map_cons]
    exact (List.sublist_append_of_sublist_right (ih hps)).cons_cons _

/-- There are as many tokens too many as the line has spaces too many. -/
theorem length_wordsOf {ps : List Piece} {text : List UInt8} (h : Spaced ps text)
    (hformed : ∀ p ∈ ps, p.Formed) :
    (wordsOf text).length + (join ps).length = ps.length + text.length := by
  induction h with
  | nil => rfl
  | single p => rw [wordsOf_written (hformed p (by simp)), join]; rfl
  | cons p q k ps text h ih =>
    obtain ⟨hp, hps⟩ := List.forall_mem_cons.mp hformed
    have hrest := ih hps
    rw [wordsOf_spaced_cons hp, join]
    simp only [List.length_cons, List.length_append, List.length_replicate] at hrest ⊢
    omega

/-- On the squeezed line the tokens are the words. -/
theorem wordsOf_join {ps : List Piece} (hformed : ∀ p ∈ ps, p.Formed) :
    wordsOf (join ps) = ps.map Piece.text := by
  induction ps using join.induct with
  | case1 => rfl
  | case2 p => rw [join, wordsOf_written (hformed p (by simp)), List.map_singleton]
  | case3 p q ps ih =>
    obtain ⟨hp, hps⟩ := List.forall_mem_cons.mp hformed
    rw [join, wordsOf_written_space hp, ih hps]
    rfl

/-! ### Empty tokens -/

theorem filled_eq_filled_nil {text : List UInt8} (hnul : nul ∉ text) :
    filled text = filled [] ↔ text = [] := by
  constructor
  · intro h
    cases text with
    | nil => rfl
    | cons b text =>
      have hmem : b ∈ filled [] := by
        rw [← h, filled, List.rightpad, List.cons_append]
        exact List.mem_cons_self
      rw [filled, List.rightpad, List.nil_append] at hmem
      exact absurd (by simp [List.eq_of_mem_replicate hmem]) hnul
  · rintro rfl
    rfl

theorem count_filled_nil {size : ℕ} (ws : List (List UInt8)) (hnul : ∀ w ∈ ws, nul ∉ w) :
    ((ws.map (some ∘ filled)).rightpad size none).count (some (filled [])) = ws.count [] := by
  have hpad : ∀ k, (List.replicate k (none : Option (List UInt8))).count (some (filled [])) = 0 :=
    fun k => List.count_eq_zero.mpr fun h => Option.some_ne_none _ (List.eq_of_mem_replicate h)
  rw [List.rightpad, List.count_append, hpad, Nat.add_zero]
  induction ws with
  | nil => rfl
  | cons w ws ih =>
    obtain ⟨hw, hws⟩ := List.forall_mem_cons.mp hnul
    rw [List.map_cons, List.count_cons, List.count_cons, ih hws]
    simp [filled_eq_filled_nil hw]

namespace SpacedLine

variable (line : SpacedLine)

theorem nul_notMem_text : nul ∉ line.text := by
  have hspace : nul ≠ space := by decide
  have hquote : nul ≠ dquote := by decide
  have hword : ∀ p : Piece, p.Formed → nul ∉ p.written := by
    intro p hp
    cases p with
    | bare text => exact hp.2.2.2
    | quoted text => simpa [Piece.written, hquote] using hp.2
  obtain ⟨ps, text, h, hformed⟩ := line
  induction h with
  | nil => exact List.not_mem_nil
  | single p => exact hword p (hformed p (by simp))
  | cons p q k ps text h ih =>
    obtain ⟨hp, hps⟩ := List.forall_mem_cons.mp hformed
    simp [hword p hp, hspace, ih hps]

theorem squeeze_text : squeeze false line.text = join line.pieces :=
  squeeze_spaced line.spaced line.formed

theorem nul_notMem_squeeze : nul ∉ squeeze false line.text :=
  fun h => line.nul_notMem_text ((squeeze_sublist _ _).mem h)

theorem wordsOf_squeeze : wordsOf (squeeze false line.text) = line.pieces.map Piece.text := by
  rw [squeeze_text, wordsOf_join line.formed]

end SpacedLine

/-- The array has one token for each of the texts. -/
theorem countP_isSome {size : ℕ} (ws : List (List UInt8)) :
    ((ws.map (some ∘ filled)).rightpad size none).countP Option.isSome = ws.length := by
  have hpad : ∀ k, (List.replicate k (none : Option (List UInt8))).countP Option.isSome = 0 :=
    fun k => List.countP_eq_zero.mpr fun a ha => by simp [List.eq_of_mem_replicate ha]
  rw [List.rightpad, List.countP_append, hpad, Nat.add_zero, List.countP_map]
  simp [List.countP_eq_length]

/-- **When the amount of space does not matter.**  The two lines give the same tokens only
where they are the same, that is without two spaces in a row outside quotes. -/
theorem spacesDoNotMatter_iff {size : ℕ} (line : SpacedLine)
    (hroom : tokenize size line.text ≠ none) :
    SpacesDoNotMatter size line ↔ squeeze false line.text = line.text := by
  have hnul := line.nul_notMem_text
  obtain ⟨hsize, hlen⟩ : (wordsOf line.text).length ≤ size ∧
      ∀ w ∈ wordsOf line.text, w.length ≤ bufferSize := by
    by_contra h
    exact hroom (tokenize_eq_none hnul h)
  have htokens := tokenize_eq_some hnul hsize hlen
  constructor
  · rintro ⟨hsame, -⟩
    -- the words of the squeezed line are among those of the line, so they go in as well
    have hsub := map_text_sublist line.spaced line.formed
    have hsqueeze : tokenize size (squeeze false line.text) = _ :=
      tokenize_eq_some line.nul_notMem_squeeze
        (by rw [line.wordsOf_squeeze]; exact hsub.length_le.trans hsize)
        (by rw [line.wordsOf_squeeze]; exact fun w hw => hlen w (hsub.mem hw))
    rw [htokens, hsqueeze, line.wordsOf_squeeze] at hsame
    have hcount := congrArg (List.countP Option.isSome) (Option.some.inj hsame)
    rw [countP_isSome, countP_isSome, List.length_map] at hcount
    have hlength := length_wordsOf line.spaced line.formed
    refine (squeeze_sublist false line.text).eq_of_length ?_
    rw [line.squeeze_text]
    omega
  · intro heq
    have hwords : wordsOf line.text = line.pieces.map Piece.text := by
      rw [← line.wordsOf_squeeze, heq]
    refine ⟨by rw [heq], fun tokens h => ?_⟩
    rw [htokens] at h
    obtain rfl := Option.some.inj h
    rw [count_filled_nil _ fun w hw => nul_notMem_wordsOf hnul hw, hwords]

/-- The line `a b`, with two spaces. -/
def twoSpaces : SpacedLine where
  pieces := [.bare [97], .bare [98]]
  text := [97, 32, 32, 98]
  spaced := .cons (.bare [97]) (.bare [98]) 1 [] [98] (.single (.bare [98]))
  formed := by simp [Piece.Formed, space, dquote, nul]

theorem tokenize_twoSpaces : tokenize (maxArgs + 2) twoSpaces.text =
    some (([[97], [], [98]].map (some ∘ filled)).rightpad (maxArgs + 2) none) := by
  have hwords : wordsOf twoSpaces.text = [[97], [], [98]] := by decide
  rw [tokenize_eq_some twoSpaces.nul_notMem_text (by rw [hwords]; decide)
    (by rw [hwords]; decide), hwords]

theorem spacesDoNotMatter_iff_twoSpaces : SpacesDoNotMatter (maxArgs + 2) twoSpaces ↔
    squeeze false twoSpaces.text = twoSpaces.text :=
  spacesDoNotMatter_iff twoSpaces (by
    rw [tokenize_twoSpaces]
    exact Option.some_ne_none _)

/-- The second space makes a token of its own. -/
theorem empty_token : ¬ SpacesDoNotMatter (maxArgs + 2) twoSpaces := by
  rintro ⟨-, hempty⟩
  have hcount := hempty _ tokenize_twoSpaces
  rw [count_filled_nil _ (by decide)] at hcount
  exact absurd hcount (by decide)

end Batch
end OpSys
