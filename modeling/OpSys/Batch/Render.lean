import OpSys.Batch.Pipeline

/-!
# Pipelines written down and read back

A pipeline within the limits, the line it is written as, and what the interpreter
makes of that line.  A word in quotes may hold what would end it bare, and is read
back as it was meant, unless it is `"|"`.

## Main definitions

* `Piece.IsWord`, `Word`, `Pipeline` — words and pipelines within the limits.
* `Pipeline.render` — the line without the whitespace around it.
* `ParsesBack` — the line is read back as the pipeline.

## Main results

* `render_eq_join` — the line is one of words, the pipes among them.
* `parsesBack_iff` — a line is read back iff no word is `"|"` in quotes.

## References

`lab4_signals_and_pipes/batch_job_interpreter_pipes/cmd_interpreter_extd.c`.
-/

namespace OpSys
namespace Batch

open Stdio

/-! ### Pipelines -/

/-- A piece may stand for a word of a pipeline. -/
def Piece.IsWord : Piece → Prop
  | bare text =>
    text ≠ [] ∧ (∀ b ∈ text, isspace b = false ∧ b ≠ dquote ∧ b ≠ nul) ∧ text ≠ [pipe] ∧
      text.length < bufferSize
  | quoted text => (∀ b ∈ text, b ≠ dquote ∧ b ≠ newline ∧ b ≠ nul) ∧ text.length < bufferSize

/-- A word of a pipeline, with the way it is written. -/
structure Word where
  piece : Piece
  isWord : piece.IsWord

/-- A pipeline within the limits. -/
structure Pipeline where
  progs : List (List Word)
  one_le_progs : 1 ≤ progs.length
  progs_le : progs.length ≤ maxProgsPiped
  one_le_args : ∀ prog ∈ progs, 1 ≤ prog.length
  args_le : ∀ prog ∈ progs, prog.length ≤ maxArgs + 1

/-- A run of whitespace. -/
abbrev Blank : Type := { text : List UInt8 // ∀ b ∈ text, isspace b = true }

namespace Pipeline

/-- The argument lists that are meant. -/
def texts (pl : Pipeline) : List (List (List UInt8)) :=
  pl.progs.map fun prog => prog.map fun word => word.piece.text

/-- The programs joined by `" | "`, and their words by one space. -/
def render (pl : Pipeline) : List UInt8 :=
  [space, pipe, space].intercalate
    (pl.progs.map fun prog => [space].intercalate (prog.map fun word => word.piece.written))

/-- The line, with whitespace around it and anything behind it in memory. -/
def line (pl : Pipeline) (lead trail : Blank) (after : ℕ → UInt8) : StrMem :=
  .holding (lead.1 ++ (pl.render ++ trail.1)) after

/-- The words as they are written, the pipes among them. -/
def pieces (pl : Pipeline) : List Piece :=
  withPipes (.bare [pipe]) (pl.progs.map fun prog => prog.map Word.piece)

end Pipeline

/-- No store or scan leaves its array, and the argument lists up to their NULLs are
those of the pipeline. -/
def ParsesBack (pl : Pipeline) (line : StrMem) : Prop :=
  ∃ st, parseLine line = some st ∧ st.progNum + 1 = pl.progs.length ∧
    readProgs st.pargs = some pl.texts

/-! ### Joined words -/

theorem join_eq_intercalate (ps : List Piece) :
    join ps = [space].intercalate (ps.map Piece.written) := by
  induction ps using join.induct with
  | case1 => rfl
  | case2 p => rw [join, List.map_singleton, List.intercalate_singleton]
  | case3 p q ps ih =>
    rw [join, ih, List.map_cons, List.map_cons, List.map_cons, List.intercalate_cons_cons,
      List.append_assoc, List.singleton_append]

theorem join_append {ps qs : List Piece} (hps : ps ≠ []) (hqs : qs ≠ []) :
    join (ps ++ qs) = join ps ++ space :: join qs := by
  induction ps using join.induct with
  | case1 => exact absurd rfl hps
  | case2 p =>
    obtain ⟨q, qs, rfl⟩ := List.exists_cons_of_ne_nil hqs
    rfl
  | case3 p q ps ih =>
    have hih := ih (List.cons_ne_nil _ _)
    rw [List.cons_append] at hih
    rw [List.cons_append, List.cons_append, join, hih, join, List.append_assoc, List.cons_append]

theorem withPipes_ne_nil {α : Type*} {sep : α} {progs : List (List α)} (hne : progs ≠ [])
    (h : ∀ prog ∈ progs, prog ≠ []) : withPipes sep progs ≠ [] := by
  cases progs with
  | nil => exact absurd rfl hne
  | cons prog progs =>
    cases progs with
    | nil => exact h prog (by simp)
    | cons next progs => simp [withPipes]

theorem map_withPipes {α β : Type*} (f : α → β) (sep : α) (progs : List (List α)) :
    (withPipes sep progs).map f = withPipes (f sep) (progs.map (List.map f)) := by
  induction progs using withPipes.induct with
  | case1 => rfl
  | case2 prog => rfl
  | case3 prog next progs ih =>
    rw [List.map_cons] at ih
    rw [withPipes, List.map_append, List.map_cons, ih, List.map_cons, List.map_cons]
    rfl

theorem mem_withPipes {α : Type*} {sep a : α} {progs : List (List α)}
    (h : a ∈ withPipes sep progs) : a = sep ∨ ∃ prog ∈ progs, a ∈ prog := by
  induction progs using withPipes.induct with
  | case1 => exact absurd h List.not_mem_nil
  | case2 prog => exact .inr ⟨prog, by simp, h⟩
  | case3 prog next progs ih =>
    rw [withPipes, List.mem_append, List.mem_cons] at h
    rcases h with h | rfl | h
    · exact .inr ⟨prog, by simp, h⟩
    · exact .inl rfl
    · rcases ih h with h | ⟨prog', hprog', ha⟩
      · exact .inl h
      · exact .inr ⟨prog', List.mem_cons_of_mem _ hprog', ha⟩

theorem length_withPipes_lt {α : Type*} (sep : α) {n : ℕ} {progs : List (List α)}
    (hne : progs ≠ []) (h : ∀ prog ∈ progs, prog.length ≤ n) :
    (withPipes sep progs).length < progs.length * (n + 1) := by
  induction progs using withPipes.induct with
  | case1 => exact absurd rfl hne
  | case2 prog =>
    have hprog := h prog (by simp)
    rw [withPipes, List.length_singleton]
    omega
  | case3 prog next progs ih =>
    obtain ⟨hprog, hprogs⟩ := List.forall_mem_cons.mp h
    have hrest := ih (List.cons_ne_nil _ _) hprogs
    rw [withPipes, List.length_append, List.length_cons, List.length_cons, Nat.succ_mul]
    omega

theorem join_withPipes {progs : List (List Piece)} (h : ∀ prog ∈ progs, prog ≠ []) :
    join (withPipes (.bare [pipe]) progs) = [space, pipe, space].intercalate (progs.map join) := by
  induction progs using withPipes.induct with
  | case1 => rfl
  | case2 prog => rw [withPipes, List.map_singleton, List.intercalate_singleton]
  | case3 prog next progs ih =>
    obtain ⟨hprog, hprogs⟩ := List.forall_mem_cons.mp h
    have hne : withPipes (Piece.bare [pipe]) (next :: progs) ≠ [] :=
      withPipes_ne_nil (List.cons_ne_nil _ _) hprogs
    have hcons : (Piece.bare [pipe]) :: withPipes (.bare [pipe]) (next :: progs) =
        [Piece.bare [pipe]] ++ withPipes (.bare [pipe]) (next :: progs) := rfl
    rw [withPipes, join_append hprog (List.cons_ne_nil _ _), hcons,
      join_append (List.cons_ne_nil _ _) hne, ih hprogs, List.map_cons, List.map_cons,
      List.map_cons, List.intercalate_cons_cons]
    simp [join, Piece.written]

/-! ### The words of a pipeline -/

theorem Piece.IsWord.fits {p : Piece} (h : p.IsWord) : p.Fits := by
  cases p with
  | bare text =>
    obtain ⟨hne, hbytes, -, hlen⟩ := h
    refine ⟨hne, fun hb => ?_, fun hb => (hbytes _ hb).2.1 rfl, fun hb => (hbytes _ hb).2.2 rfl,
      hlen⟩
    exact absurd (hbytes _ hb).1 (by decide)
  | quoted text =>
    obtain ⟨hbytes, hlen⟩ := h
    exact ⟨fun hb => (hbytes _ hb).1 rfl, fun hb => (hbytes _ hb).2.2 rfl, hlen⟩

theorem Piece.IsWord.text_eq_pipe {p : Piece} (h : p.IsWord) (hp : p.text = [pipe]) :
    p = .quoted [pipe] := by
  cases p with
  | bare text => exact absurd hp h.2.2.1
  | quoted text =>
    obtain rfl : text = [pipe] := hp
    rfl

/-- Neither end of the written word is whitespace. -/
def Piece.Solid (p : Piece) : Prop :=
  p.written ≠ [] ∧ (∀ b ∈ p.written.head?, isspace b = false) ∧
    ∀ b ∈ p.written.getLast?, isspace b = false

theorem Piece.IsWord.solid {p : Piece} (h : p.IsWord) : p.Solid := by
  cases p with
  | bare text =>
    refine ⟨h.1, fun b hb => (h.2.1 b ?_).1, fun b hb => (h.2.1 b ?_).1⟩
    · exact List.mem_of_mem_head? hb
    · exact List.mem_of_mem_getLast? hb
  | quoted text =>
    have hquote : isspace dquote = false := by decide
    have hlast : (Piece.quoted text).written.getLast? = some dquote := by
      rw [Piece.written, ← List.cons_append, List.getLast?_concat]
    refine ⟨List.cons_ne_nil _ _, ?_, ?_⟩
    · intro b hb
      rwa [← Option.some.inj hb]
    · intro b hb
      rw [hlast] at hb
      rwa [← Option.some.inj hb]

theorem fits_pipe : (Piece.bare [pipe]).Fits :=
  ⟨by decide, by decide, by decide, by decide, by decide⟩

theorem solid_pipe : (Piece.bare [pipe]).Solid := by
  have hpipe : isspace pipe = false := by decide
  refine ⟨List.cons_ne_nil _ _, fun b hb => ?_, fun b hb => ?_⟩
  · rwa [← Option.some.inj hb]
  · rwa [← Option.some.inj hb]

theorem join_ne_nil {ps : List Piece} (hne : ps ≠ []) (h : ∀ p ∈ ps, p.Solid) : join ps ≠ [] := by
  cases ps with
  | nil => exact absurd rfl hne
  | cons p ps =>
    have hp := (h p (by simp)).1
    cases ps <;> simp [join, hp]

theorem head?_join {ps : List Piece} (h : ∀ p ∈ ps, p.Solid) :
    ∀ b ∈ (join ps).head?, isspace b = false := by
  cases ps with
  | nil => exact fun b hb => absurd hb (Option.not_mem_none b)
  | cons p ps =>
    obtain ⟨hne, hhead, -⟩ := h p (by simp)
    cases ps with
    | nil => exact hhead
    | cons q ps =>
      rw [join, List.head?_append_of_ne_nil _ hne]
      exact hhead

theorem getLast?_join {ps : List Piece} (h : ∀ p ∈ ps, p.Solid) :
    ∀ b ∈ (join ps).getLast?, isspace b = false := by
  induction ps using join.induct with
  | case1 => exact fun b hb => absurd hb (Option.not_mem_none b)
  | case2 p => exact (h p (by simp)).2.2
  | case3 p q ps ih =>
    obtain ⟨-, hps⟩ := List.forall_mem_cons.mp h
    have hne : join (q :: ps) ≠ [] := join_ne_nil (List.cons_ne_nil _ _) hps
    rw [join, List.getLast?_append_of_ne_nil _ (List.cons_ne_nil _ _),
      List.getLast?_cons_of_ne_nil hne]
    exact ih hps

namespace Pipeline

variable (pl : Pipeline)

theorem mem_pieces {p : Piece} (h : p ∈ pl.pieces) : p = .bare [pipe] ∨ p.IsWord := by
  refine (mem_withPipes h).imp_right ?_
  rintro ⟨prog, hprog, hp⟩
  obtain ⟨words, -, rfl⟩ := List.mem_map.mp hprog
  obtain ⟨word, -, rfl⟩ := List.mem_map.mp hp
  exact word.isWord

theorem fits_of_mem_pieces {p : Piece} (h : p ∈ pl.pieces) : p.Fits := by
  rcases pl.mem_pieces h with rfl | hp
  · exact fits_pipe
  · exact hp.fits

theorem solid_of_mem_pieces {p : Piece} (h : p ∈ pl.pieces) : p.Solid := by
  rcases pl.mem_pieces h with rfl | hp
  · exact solid_pipe
  · exact hp.solid

theorem progs_ne_nil : pl.progs ≠ [] := List.ne_nil_of_length_pos pl.one_le_progs

theorem map_piece_ne_nil : ∀ prog ∈ pl.progs.map (fun prog => prog.map Word.piece), prog ≠ [] := by
  intro prog hprog
  obtain ⟨words, hwords, rfl⟩ := List.mem_map.mp hprog
  have := pl.one_le_args words hwords
  exact List.ne_nil_of_length_pos (by rw [List.length_map]; omega)

theorem pieces_ne_nil : pl.pieces ≠ [] :=
  withPipes_ne_nil (by simp [pl.progs_ne_nil]) pl.map_piece_ne_nil

/-- The words and pipes of a pipeline leave room for NULL in the token array. -/
theorem length_pieces_lt : pl.pieces.length < maxProgsPiped * (maxArgs + 2) := by
  have hlen : ∀ prog ∈ pl.progs.map (fun prog => prog.map Word.piece),
      prog.length ≤ maxArgs + 1 := by
    intro prog hprog
    obtain ⟨words, hwords, rfl⟩ := List.mem_map.mp hprog
    rw [List.length_map]
    exact pl.args_le words hwords
  have hlt := length_withPipes_lt (Piece.bare [pipe]) (by simp [pl.progs_ne_nil]) hlen
  rw [List.length_map] at hlt
  exact hlt.trans_le (Nat.mul_le_mul_right _ pl.progs_le)

theorem map_text_pieces : pl.pieces.map Piece.text = withPipes [pipe] pl.texts := by
  rw [pieces, map_withPipes, List.map_map, texts]
  congr 2
  funext prog
  simp

/-- The line of a pipeline is one of words, the pipes among them. -/
theorem render_eq_join : pl.render = join pl.pieces := by
  rw [Pipeline.pieces, join_withPipes pl.map_piece_ne_nil, Pipeline.render, List.map_map]
  congr 2
  funext prog
  rw [Function.comp_apply, join_eq_intercalate, List.map_map]
  rfl

/-- The line is not blank, and its first and its last byte are not whitespace. -/
theorem render_ends : ∃ hne : pl.render ≠ [],
    isspace (pl.render.head hne) = false ∧ isspace (pl.render.getLast hne) = false := by
  have hsolid : ∀ p ∈ pl.pieces, p.Solid := fun p hp => pl.solid_of_mem_pieces hp
  have hne : pl.render ≠ [] := by
    rw [render_eq_join]
    exact join_ne_nil pl.pieces_ne_nil hsolid
  exact ⟨hne,
    head?_join hsolid _ (by rw [← render_eq_join]; exact List.head_mem_head? hne),
    getLast?_join hsolid _ (by rw [← render_eq_join]; exact List.getLast_mem_getLast? hne)⟩

theorem text_line (lead trail : Blank) (after : ℕ → UInt8) :
    (pl.line lead trail after).text = lead.1 ++ (pl.render ++ trail.1) := by
  have hblank : ∀ text : Blank, nul ∉ text.1 := fun text hb =>
    absurd (text.2 nul hb) (by decide)
  have hnul : nul ∉ lead.1 ++ (pl.render ++ trail.1) := by
    have := nul_notMem_join fun p hp => pl.fits_of_mem_pieces hp
    simp [hblank lead, hblank trail, pl.render_eq_join, this]
  exact StrMem.text_holding after hnul

/-- The line loses the whitespace around it, and becomes the words and pipes. -/
theorem parseLine_line (lead trail : Blank) (after : ℕ → UInt8) (hint : lead.1.length < 2 ^ 31) :
    parseLine (pl.line lead trail after) =
      splitLoop (((withPipes [pipe] pl.texts).map (some ∘ filled)).rightpad
        (maxProgsPiped * (maxArgs + 2)) none) splitStart := by
  obtain ⟨hne, hhead, hlast⟩ := pl.render_ends
  have htrim := text_trimWhitespace (pl.text_line lead trail after) lead.2 trail.2 hne hhead
    hlast hint
  obtain ⟨str, hstr, htext⟩ := Option.map_eq_some_iff.mp htrim
  rw [parseLine, hstr, Option.bind_some, htext, render_eq_join,
    tokenize_join (fun p hp => pl.fits_of_mem_pieces hp) pl.length_pieces_lt.le,
    Option.bind_some, map_text_pieces]

theorem short_texts : ∀ prog ∈ pl.texts, ∀ text ∈ prog, Short text := by
  intro prog hprog text htext
  obtain ⟨words, -, rfl⟩ := List.mem_map.mp hprog
  obtain ⟨word, -, rfl⟩ := List.mem_map.mp htext
  exact ⟨word.piece.nul_notMem_text word.isWord.fits, word.piece.text_length_lt word.isWord.fits⟩

theorem length_of_mem_texts : ∀ prog ∈ pl.texts, prog ≠ [] ∧ prog.length ≤ maxArgs + 1 := by
  intro prog hprog
  obtain ⟨words, hwords, rfl⟩ := List.mem_map.mp hprog
  have hpos := pl.one_le_args words hwords
  have hle := pl.args_le words hwords
  exact ⟨List.ne_nil_of_length_pos (by rw [List.length_map]; omega), by rwa [List.length_map]⟩

end Pipeline

variable {pl : Pipeline} {lead trail : Blank} {after : ℕ → UInt8}

theorem parsesBack_of_no_pipe (h : ∀ prog ∈ pl.progs, ∀ word ∈ prog, word.piece ≠ .quoted [pipe])
    (hint : lead.1.length < 2 ^ 31) : ParsesBack pl (pl.line lead trail after) := by
  have hlen : pl.texts.length = pl.progs.length := List.length_map _
  have hne : pl.texts ≠ [] := by simp [Pipeline.texts, pl.progs_ne_nil]
  have hwords : ∀ prog ∈ pl.texts,
      prog.length ≤ maxArgs + 1 ∧ ∀ text ∈ prog, Short text ∧ text ≠ [pipe] := by
    intro prog hprog
    refine ⟨(pl.length_of_mem_texts prog hprog).2, fun text htext =>
      ⟨pl.short_texts prog hprog text htext, ?_⟩⟩
    obtain ⟨words, hwords, rfl⟩ := List.mem_map.mp hprog
    obtain ⟨word, hword, rfl⟩ := List.mem_map.mp htext
    -- no word of a program is the separator
    exact fun he => h words hwords word hword (word.isWord.text_eq_pipe he)
  have hroom : ((withPipes [pipe] pl.texts).map (some ∘ filled)).length <
      maxProgsPiped * (maxArgs + 2) := by
    rw [List.length_map, ← pl.map_text_pieces, List.length_map]
    exact pl.length_pieces_lt
  -- a NULL stands behind the tokens
  obtain ⟨k, hk⟩ := rightpad_eq_append_cons hroom none
  obtain ⟨n, hn⟩ := splitLoop_withPipes hne hwords []
    (by rw [List.length_nil, Nat.zero_add, hlen]; exact Nat.le_succ_of_le pl.progs_le)
    (List.replicate k none)
  rw [List.nil_append, List.length_nil, Nat.zero_add, ← splitStart_eq, ← hk, hlen] at hn
  refine ⟨_, (pl.parseLine_line lead trail after hint).trans hn,
    Nat.sub_add_cancel pl.one_le_progs, ?_⟩
  refine readProgs_argRows (fun prog hprog => ?_) (by rw [hlen]; exact pl.progs_le)
  have hargs := pl.length_of_mem_texts prog hprog
  exact ⟨hargs.1, hargs.2, pl.short_texts prog hprog⟩

theorem not_parsesBack_of_pipe {prog : List Word} {word : Word} (hprog : prog ∈ pl.progs)
    (hword : word ∈ prog) (hpipe : word.piece = .quoted [pipe]) {line : StrMem} :
    ¬ParsesBack pl line := by
  rintro ⟨st, hst, -, hread⟩
  refine (NoPipe.parseLine hst).readProgs hread _ (List.mem_map_of_mem hprog) ?_
  exact List.mem_map.mpr ⟨word, hword, by rw [hpipe]; rfl⟩

theorem not_parsesBack_of_le (hint : 2 ^ 31 ≤ lead.1.length) :
    ¬ParsesBack pl (pl.line lead trail after) := by
  obtain ⟨hne, hhead, -⟩ := pl.render_ends
  rintro ⟨st, hst, -⟩
  rw [parseLine, trimWhitespace_of_le (pl.text_line lead trail after) lead.2 hne hhead hint] at hst
  exact absurd hst (Option.some_ne_none _).symm

/-- `"|"`. -/
def quotedPipe : Word where
  piece := .quoted [pipe]
  isWord := ⟨List.forall_mem_singleton.mpr (by decide), by decide⟩

/-- `a`. -/
def wordA : Word where
  piece := .bare [97]
  isWord := ⟨by decide, List.forall_mem_singleton.mpr (by decide), by decide, by decide⟩

/-- `a "|"`. -/
def quotedPipeline : Pipeline where
  progs := [[wordA, quotedPipe]]
  one_le_progs := by decide
  progs_le := by decide
  one_le_args := List.forall_mem_singleton.mpr (by decide)
  args_le := List.forall_mem_singleton.mpr (by decide)

end Batch
end OpSys
