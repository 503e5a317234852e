import Smultron.Lib.Tiling
import Smultron.Properties.TokenizerErrors
import Smultron.Properties.WordLines

/-!
# Where the words of a line stand

The tokenizer writes every byte of a word behind the last one and never goes back, so the words tile
what it has written. Quotes and backslashes are taken out between the bytes of a line and never
inside a character, so every word of a text is a text.
-/

namespace Smultron.Shell

open Checked Checked.Outcome Utf8

variable {t t' : Tokenizer}

/-- The ranges of the words, without the operators. -/
def wordRanges (tokens : List Token) : List (Nat × Nat) :=
  tokens.filterMap fun t => if t.kind = .word then some (t.start, t.len) else none

theorem mem_wordRanges {tokens : List Token} {r : Nat × Nat} :
    r ∈ wordRanges tokens ↔ ∃ t ∈ tokens, t.kind = .word ∧ (t.start, t.len) = r := by
  simp [wordRanges]

namespace Tokenizer

/-- The complete words tile what is written in front of the open one, or all of it. Quotes and
backslashes are open only inside a word. -/
structure Packed (t : Tokenizer) : Prop where
  start : t.inToken = true → t.currentStart ≤ t.parsed.length
  tiles : Tiles 0 (wordRanges t.tokens) (if t.inToken then t.currentStart else t.parsed.length)
  quoted : t.quoted = true → t.inToken = true

/-- A change of the quotes inside a word. -/
theorem Packed.turn (h : t.Packed) (turns : t.Turns t') (begun : t.inToken = true)
    (begun' : t'.inToken = true) : t'.Packed where
  start _ := by
    rw [turns.parsed, turns.start]
    exact h.start begun
  tiles := by
    have tiles := h.tiles
    rw [if_pos begun] at tiles
    rwa [turns.tokens, turns.start, if_pos begun']
  quoted _ := begun'

theorem Packed.pushChar (h : t.Packed) (begun : t.inToken = true) (b : UInt8) :
    OkIn (fun t' => t'.Packed ∧ t'.inToken = true) (t.pushChar b) := by
  refine okIn_bind (okIn_of _ fun _ => okIn_bind (okIn_push (okIn_pure ⟨⟨fun _ => ?_, ?_, ?_⟩, begun⟩)))
  · exact Nat.le_trans (h.start begun) (by simp)
  · have tiles := h.tiles
    rw [if_pos begun] at tiles
    rwa [if_pos begun]
  · exact fun _ => begun

theorem Packed.startWord (h : t.Packed) : t.startWord.Packed ∧ t.startWord.inToken = true := by
  rw [Tokenizer.startWord]
  split
  next begun => exact ⟨h, begun⟩
  next outside =>
    have tiles := h.tiles
    rw [if_neg outside] at tiles
    exact ⟨⟨fun _ => Nat.le_refl _, tiles, fun _ => rfl⟩, rfl⟩

/-- The word that ends here tiles the rest of what is written. -/
theorem Packed.endWord (h : t.Packed) (closed : t.quoted = false) :
    OkIn (fun t' => t'.Packed ∧ t'.inToken = false ∧ t'.quoted = false) t.endWord := by
  rw [Tokenizer.endWord]
  refine okIn_ite (fun begun => ?_) fun outside => okIn_pure ⟨h, by simpa using outside, closed⟩
  have low := h.start begun
  have tiles := h.tiles
  rw [if_pos begun] at tiles
  rw [sub_of_le low, ok_bind]
  refine okIn_bind (okIn_bind (okIn_of _ fun _ => okIn_bind (okIn_push (okIn_pure (okIn_pure ?_)))))
  refine ⟨⟨fun open_ => absurd open_ Bool.false_ne_true, ?_, fun open_ => ?_⟩, rfl, closed⟩
  · have longer := tiles.concat (t.parsed.length - t.currentStart)
    rw [Nat.add_sub_cancel' low] at longer
    simpa [wordRanges] using longer
  · exact absurd (closed.symm.trans open_) (by decide)

/-- An operator is no word. -/
theorem Packed.pushOperator (h : t.Packed) {kind : TokenKind} (operator : kind ≠ .word) :
    OkIn Packed (t.pushToken kind 0 0) := by
  refine okIn_bind (okIn_of _ fun _ => okIn_bind (okIn_push (okIn_pure ⟨h.start, ?_, h.quoted⟩)))
  simpa [wordRanges, operator] using h.tiles

theorem Packed.step (h : t.Packed) (b : UInt8) : OkIn Packed (t.step b) := by
  obtain ⟨started, begun⟩ := h.startWord
  apply t.step_cases b
  · -- A byte between quotes or behind a backslash belongs to the open word
    intro open_ f turns
    refine okIn_bind ((h.pushChar (h.quoted open_) b).mono fun t' h' => okIn_pure ?_)
    exact h'.1.turn (turns t').1 h'.2 (turns t').2
  · intro open_ t' turns same
    have begun := h.quoted open_
    exact okIn_ok (h.turn turns begun (same.trans begun))
  · exact fun closed => (h.endWord closed).mono fun _ h' => h'.1
  · intro _ t' turns same
    exact okIn_ok (started.turn turns begun (same.trans begun))
  · intro closed kind operator
    exact okIn_bind ((h.endWord closed).mono fun t' h' => h'.1.pushOperator operator)
  · exact fun _ => (started.pushChar begun b).mono fun _ h' => h'.1

theorem Packed.finish (h : t.Packed) :
    OkIn (fun t' => Tiles 0 (wordRanges t'.tokens) t'.parsed.length) t.finish := by
  refine okIn_bind (OkIn.intro fun _ noEscape => okIn_bind (OkIn.intro fun _ noQuote => ?_))
  rw [errIf_eq_ok] at noEscape noQuote
  have closed : t.quoted = false := by simp_all [Tokenizer.quoted]
  refine (h.endWord closed).mono fun t' h' => ?_
  simpa [h'.2.1] using h'.1.tiles

theorem packed_start : Tokenizer.start.Packed := ⟨nofun, rfl, nofun⟩

end Tokenizer

/-- The words of a line tile what the tokenizer has written. -/
theorem tokenizeCommand_tiles (line : Bytes) :
    OkIn (fun found => Tiles 0 (wordRanges found.1) found.2.length) (tokenizeCommand line) := by
  have loop := okIn_foldlM (fun t b (h : t.Packed) => h.step b) line Tokenizer.packed_start
  refine okIn_bind (loop.mono fun t h => okIn_bind ?_)
  exact h.finish.mono fun t' tiles => okIn_pure tiles

/-- A word of a text is a text, and the shell reads the bytes in its range for it. -/
theorem tokenWord_range {ε : Type} {line : Bytes} (text : Valid line)
    (short : line.length ≤ maxParsedLine) {tokens : List Token} {parsed : Bytes}
    (ok : tokenizeCommand line = .ok (tokens, parsed)) {token : Token} (among : token ∈ tokens)
    (inside : token.start + token.len ≤ parsed.length) :
    Valid ((parsed.drop token.start).take token.len) ∧
      (tokenWord token (parsedStorage parsed) : Outcome ε Bytes) =
        .ok ((parsed.drop token.start).take token.len) := by
  have same : (lexeme (parsedStorage parsed) token).text =
      (parsed.drop token.start).take token.len :=
    congrArg Lexeme.text (lexeme_append inside _)
  have valid := valid_lexeme text short ok among
  rw [tokenWord_ok text short ok among]
  rw [same] at valid ⊢
  exact ⟨valid, rfl⟩

/-- The errors of a line are about its tokens and its quotes. -/
theorem tokenizeCommand_fits {line : Bytes} (short : line.length ≤ maxParsedLine) :
    tokenizeCommand line ≠ .err "line too long" := by
  intro failed
  have error := lineError_of_err short failed
  rw [lineError, errorOf] at error
  split at error
  · exact absurd (Option.some.inj error) (by decide)
  · generalize Quoting.unquoted.behind line = q at error
    cases q <;> simp [quotingError] at error

/-- On a text of at most 512 bytes the buffer never gets too short. When the line has tokens, the
ranges of the words stand inside what was written, in order, and cover it exactly, and the shell
reads the text in its range for each word. -/
theorem words_tile_buffer (line : Bytes) (text : Valid line) (short : line.length ≤ 512) :
    tokenizeCommand line ≠ .err "line too long" ∧
      ∀ tokens parsed, tokenizeCommand line = .ok (tokens, parsed) →
        (∀ r ∈ wordRanges tokens, r.1 + r.2 ≤ parsed.length) ∧
        (wordRanges tokens).Pairwise (fun r s => r.1 + r.2 ≤ s.1) ∧
        (∀ i, i < parsed.length ↔ ∃ r ∈ wordRanges tokens, r.1 ≤ i ∧ i < r.1 + r.2) ∧
        ∀ token ∈ tokens, token.kind = .word →
          Valid ((parsed.drop token.start).take token.len) ∧
            (tokenWord token (parsedStorage parsed) : Outcome Empty Bytes) =
              .ok ((parsed.drop token.start).take token.len) := by
  constructor
  · exact tokenizeCommand_fits short
  · intro tokens parsed ok
    have tiles := (tokenizeCommand_tiles line).of_ok ok
    refine ⟨fun r hr => (tiles.inside r hr).2, tiles.pairwise, fun i => ?_, ?_⟩
    · rw [← tiles.covers i, and_iff_right (Nat.zero_le i)]
    · intro token among word
      exact tokenWord_range text short ok among
        (tiles.inside _ (mem_wordRanges.mpr ⟨token, among, word, rfl⟩)).2

/-- An empty word, a word in two kinds of quotes, and a backslash in front of a character of two
bytes. -/
theorem words_tile_buffer_quoted :
    let line := str "'' a\"b\"'c' | " ++ [92, 195, 169]
    tokenizeCommand line = .ok ([⟨.word, 0, 0⟩, ⟨.word, 0, 3⟩, ⟨.pipe, 0, 0⟩, ⟨.word, 3, 2⟩],
        str "abc" ++ [195, 169]) ∧ Valid [195, 169] ∧
      (tokenWord ⟨.word, 3, 2⟩ (parsedStorage (str "abc" ++ [195, 169])) : Outcome Empty Bytes) =
        .ok [195, 169] := by
  intro line
  have tokenized : tokenizeCommand line = .ok ([⟨.word, 0, 0⟩, ⟨.word, 0, 3⟩, ⟨.pipe, 0, 0⟩,
      ⟨.word, 3, 2⟩], str "abc" ++ [195, 169]) := by decide +kernel
  have tiles := words_tile_buffer line (by decide +kernel) (by decide)
  obtain ⟨-, -, -, words⟩ := tiles.2 _ _ tokenized
  obtain ⟨valid, read⟩ := words ⟨.word, 3, 2⟩ (by decide) rfl
  exact ⟨tokenized, valid, read⟩

end Smultron.Shell
