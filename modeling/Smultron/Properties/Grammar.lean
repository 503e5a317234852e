import Smultron.Userspace.Tokenizer

/-!
# The quoting grammar of a command line

What a line means, as a grammar: blanks, operators, and words made of quoted, escaped and plain
segments. A scanner with one mode for each place in that grammar decides it (`scan_iff`); the
tokenizer of the shell keeps its flags and its buffer in step with the scanner, so it accepts the
grammar and computes its meaning.
-/

namespace Smultron.Shell

open Checked Checked.Outcome

/-- A token with its text; operators have none. -/
structure Lexeme where
  kind : TokenKind
  text : Bytes
  deriving DecidableEq, Repr

/-! ### The grammar -/

def Blank (b : UInt8) : Prop := b = 32 ∨ b = 9

instance (b : UInt8) : Decidable (Blank b) := inferInstanceAs (Decidable (_ ∨ _))

def operator (b : UInt8) : Option TokenKind :=
  if b = 124 then some .pipe
  else if b = 60 then some .redirectIn
  else if b = 62 then some .redirectOut
  else none

/-- A byte that stands for itself outside quotes. -/
structure Plain (b : UInt8) : Prop where
  blank : ¬Blank b
  operator : operator b = none
  single : b ≠ 39
  double : b ≠ 34
  escape : b ≠ 92

/-- The inside of double quotes, with the bytes it stands for. -/
inductive DoubleText : Bytes → Bytes → Prop where
  | nil : DoubleText [] []
  | escaped (b : UInt8) {src text : Bytes} (rest : DoubleText src text) :
      DoubleText (92 :: b :: src) (b :: text)
  | other (b : UInt8) (closing : b ≠ 34) (escape : b ≠ 92) {src text : Bytes}
      (rest : DoubleText src text) : DoubleText (b :: src) (b :: text)

inductive Segment : Bytes → Bytes → Prop where
  -- nothing is special between single quotes but the quote that closes them
  | single (text : Bytes) (closed : 39 ∉ text) : Segment (39 :: (text ++ [39])) text
  | double {src text : Bytes} (inside : DoubleText src text) : Segment (34 :: (src ++ [34])) text
  | escaped (b : UInt8) : Segment [92, b] [b]
  | plain (b : UInt8) (self : Plain b) : Segment [b] [b]

/-- One segment or more; their texts are concatenated. -/
inductive WordText : Bytes → Bytes → Prop where
  | last {src text : Bytes} (segment : Segment src text) : WordText src text
  | more {src src' text text' : Bytes} (segment : Segment src text) (rest : WordText src' text') :
      WordText (src ++ src') (text ++ text')

/-- A word ends here: at the end of the line, a blank or an operator. -/
def Boundary : Bytes → Prop
  | [] => True
  | b :: _ => Blank b ∨ (operator b).isSome

inductive LineText : Bytes → List Lexeme → Prop where
  | nil : LineText [] []
  | blank {b : UInt8} (blank : Blank b) {src : Bytes} {ls : List Lexeme} (rest : LineText src ls) :
      LineText (b :: src) ls
  | operator {b : UInt8} {kind : TokenKind} (op : operator b = some kind) {src : Bytes}
      {ls : List Lexeme} (rest : LineText src ls) : LineText (b :: src) (⟨kind, []⟩ :: ls)
  -- words end where the next byte cannot go on with them, so no word is cut in two
  | word {word text src : Bytes} (segments : WordText word text) (ends : Boundary src)
      {ls : List Lexeme} (rest : LineText src ls) : LineText (word ++ src) (⟨.word, text⟩ :: ls)

/-! ### The scanner -/

/-- Where a scan stands: between words, or in one with its text so far. -/
inductive Mode where
  | between
  | word (text : Bytes)
  | single (text : Bytes)
  | double (text : Bytes)
  | escape (text : Bytes)
  | doubleEscape (text : Bytes)

/-- The mode after a byte at which a segment can start. -/
def openSegment (text : Bytes) (b : UInt8) : Mode :=
  if b = 39 then .single text
  else if b = 34 then .double text
  else if b = 92 then .escape text
  else .word (text ++ [b])

/-- One byte: the next mode, and the tokens that are complete. -/
def next : Mode → UInt8 → Mode × List Lexeme
  | .between, b =>
    if Blank b then (.between, [])
    else
      match operator b with
      | some kind => (.between, [⟨kind, []⟩])
      | none => (openSegment [] b, [])
  | .word text, b =>
    if Blank b then (.between, [⟨.word, text⟩])
    else
      match operator b with
      | some kind => (.between, [⟨.word, text⟩, ⟨kind, []⟩])
      | none => (openSegment text b, [])
  | .single text, b => if b = 39 then (.word text, []) else (.single (text ++ [b]), [])
  | .double text, b =>
    if b = 34 then (.word text, [])
    else if b = 92 then (.doubleEscape text, [])
    else (.double (text ++ [b]), [])
  | .escape text, b => (.word (text ++ [b]), [])
  | .doubleEscape text, b => (.double (text ++ [b]), [])

/-- The end of the line. -/
def atEnd : Mode → Option (List Lexeme)
  | .between => some []
  | .word text => some [⟨.word, text⟩]
  | _ => none

def scan : Mode → Bytes → Option (List Lexeme)
  | mode, [] => atEnd mode
  | mode, b :: src => (scan (next mode b).1 src).map ((next mode b).2 ++ ·)

/-! ### What a scan accepts is in the grammar -/

/-- What is left of a line in which a word has been begun: the rest of the word, then the line. -/
def WordRest (text src : Bytes) (ls : List Lexeme) : Prop :=
  ∃ word more src' ls', src = word ++ src' ∧ (word = [] ∧ more = [] ∨ WordText word more) ∧
    Boundary src' ∧ LineText src' ls' ∧ ls = ⟨.word, text ++ more⟩ :: ls'

/-- What is left of a line in a mode. -/
def Rest : Mode → Bytes → List Lexeme → Prop
  | .between, src, ls => LineText src ls
  | .word text, src, ls => WordRest text src ls
  | .single text, src, ls =>
    ∃ inside src', src = inside ++ 39 :: src' ∧ 39 ∉ inside ∧ WordRest (text ++ inside) src' ls
  | .double text, src, ls =>
    ∃ quoted inside src', src = quoted ++ 34 :: src' ∧ DoubleText quoted inside ∧
      WordRest (text ++ inside) src' ls
  | .escape text, src, ls => ∃ b src', src = b :: src' ∧ WordRest (text ++ [b]) src' ls
  | .doubleEscape text, src, ls =>
    ∃ b quoted inside src', src = b :: (quoted ++ 34 :: src') ∧ DoubleText quoted inside ∧
      WordRest (text ++ [b] ++ inside) src' ls

theorem wordRest_segment {segment text more src : Bytes} {ls : List Lexeme}
    (h : Segment segment more) (rest : WordRest (text ++ more) src ls) :
    WordRest text (segment ++ src) ls := by
  obtain ⟨word, more', src', ls', rfl, segments, ends, line, rfl⟩ := rest
  refine ⟨segment ++ word, more ++ more', src', ls', by simp, .inr ?_, ends, line, by simp⟩
  rcases segments with ⟨rfl, rfl⟩ | segments
  · rw [List.append_nil, List.append_nil]
    exact .last h
  · exact .more h segments

/-- A word that has begun with a segment is a word of the line. -/
theorem line_segment {segment more src : Bytes} {ls : List Lexeme} (h : Segment segment more)
    (rest : WordRest more src ls) : LineText (segment ++ src) ls := by
  obtain ⟨word, more', src', ls', rfl, segments, ends, line, rfl⟩ := rest
  rw [← List.append_assoc]
  rcases segments with ⟨rfl, rfl⟩ | segments
  · rw [List.append_nil, List.append_nil]
    exact .word (.last h) ends line
  · exact .word (.more h segments) ends line

/-- A segment that a byte opens, whatever stands before it. -/
theorem openSegment_rest {b : UInt8} {text src : Bytes} {ls : List Lexeme} (blank : ¬Blank b)
    (op : operator b = none) (h : Rest (openSegment text b) src ls) :
    ∃ segment more src', b :: src = segment ++ src' ∧ Segment segment more ∧
      WordRest (text ++ more) src' ls := by
  -- The byte tells which of the four kinds of segment it opens
  rw [openSegment] at h
  split at h
  next quote =>
    obtain ⟨inside, src', rfl, closed, rest⟩ := h
    exact ⟨39 :: (inside ++ [39]), inside, src', by simp [quote], .single inside closed, rest⟩
  next notSingle =>
    split at h
    next quote =>
      obtain ⟨quoted, inside, src', rfl, body, rest⟩ := h
      exact ⟨34 :: (quoted ++ [34]), inside, src', by simp [quote], .double body, rest⟩
    next notDouble =>
      split at h
      next escape =>
        obtain ⟨c, src', rfl, rest⟩ := h
        exact ⟨[92, c], [c], src', by simp [escape], .escaped c, rest⟩
      next notEscape =>
        exact ⟨[b], [b], src, rfl, .plain b ⟨blank, op, notSingle, notDouble, notEscape⟩, h⟩

section Next

variable {b : UInt8} {text src : Bytes} {ls : List Lexeme}

theorem rest_between (rest : Rest (next .between b).1 src ls) :
    Rest .between (b :: src) ((next .between b).2 ++ ls) := by
  simp only [next] at rest ⊢
  split at rest
  next blank =>
    rw [if_pos blank]
    exact .blank blank rest
  next blank =>
    rw [if_neg blank]
    cases op : operator b with
    | some kind =>
      simp only [op] at rest ⊢
      exact .operator op rest
    | none =>
      -- The byte opens the first segment of a word
      simp only [op] at rest ⊢
      obtain ⟨segment, more, src', split, opened, tail⟩ := openSegment_rest blank op rest
      rw [split]
      exact line_segment opened tail

theorem rest_word (rest : Rest (next (.word text) b).1 src ls) :
    Rest (.word text) (b :: src) ((next (.word text) b).2 ++ ls) := by
  simp only [next] at rest ⊢
  split at rest
  next blank =>
    -- The word ends before the blank
    rw [if_pos blank]
    exact ⟨[], [], b :: src, ls, rfl, .inl ⟨rfl, rfl⟩, .inl blank, .blank blank rest, by simp⟩
  next blank =>
    rw [if_neg blank]
    cases op : operator b with
    | some kind =>
      simp only [op] at rest ⊢
      exact ⟨[], [], b :: src, ⟨kind, []⟩ :: ls, rfl, .inl ⟨rfl, rfl⟩, .inr (by simp [op]),
        .operator op rest, by simp⟩
    | none =>
      -- The byte opens the next segment of the word
      simp only [op] at rest ⊢
      obtain ⟨segment, more, src', split, opened, tail⟩ := openSegment_rest blank op rest
      rw [split]
      exact wordRest_segment opened tail

theorem rest_single (rest : Rest (next (.single text) b).1 src ls) :
    Rest (.single text) (b :: src) ((next (.single text) b).2 ++ ls) := by
  simp only [next] at rest ⊢
  split at rest
  next quote =>
    rw [if_pos quote]
    exact ⟨[], src, by simp [quote], by simp, by rwa [List.append_nil]⟩
  next quote =>
    rw [if_neg quote]
    obtain ⟨inside, src', rfl, closed, tail⟩ := rest
    exact ⟨b :: inside, src', rfl, by simp [closed, Ne.symm quote], by simpa using tail⟩

theorem rest_double (rest : Rest (next (.double text) b).1 src ls) :
    Rest (.double text) (b :: src) ((next (.double text) b).2 ++ ls) := by
  simp only [next] at rest ⊢
  split at rest
  next quote =>
    rw [if_pos quote]
    exact ⟨[], [], src, by simp [quote], .nil, by rwa [List.append_nil]⟩
  next quote =>
    rw [if_neg quote]
    split at rest
    next escape =>
      rw [if_pos escape]
      obtain ⟨c, quoted, inside, src', rfl, body, tail⟩ := rest
      exact ⟨92 :: c :: quoted, c :: inside, src', by simp [escape], .escaped c body,
        by simpa using tail⟩
    next escape =>
      rw [if_neg escape]
      obtain ⟨quoted, inside, src', rfl, body, tail⟩ := rest
      exact ⟨b :: quoted, b :: inside, src', rfl, .other b quote escape body,
        by simpa using tail⟩

/-- The mode after a byte says what is left behind it, so the byte is put in front of that. -/
theorem rest_next {mode : Mode} (rest : Rest (next mode b).1 src ls) :
    Rest mode (b :: src) ((next mode b).2 ++ ls) := by
  cases mode with
  | between => exact rest_between rest
  | word text => exact rest_word rest
  | single text => exact rest_single rest
  | double text => exact rest_double rest
  | escape text => exact ⟨b, src, rfl, rest⟩
  | doubleEscape text =>
    obtain ⟨quoted, inside, src', rfl, body, tail⟩ := rest
    exact ⟨b, quoted, inside, src', rfl, body, tail⟩

end Next

theorem rest_of_scan {mode : Mode} {src : Bytes} {ls : List Lexeme} (h : scan mode src = some ls) :
    Rest mode src ls := by
  induction src generalizing mode ls with
  | nil =>
    cases mode with
    | between =>
      cases h
      exact .nil
    | word text =>
      cases h
      exact ⟨[], [], [], [], rfl, .inl ⟨rfl, rfl⟩, trivial, .nil, by simp⟩
    | _ => cases h
  | cons b src ih =>
    obtain ⟨ls', scanned, rfl⟩ := Option.map_eq_some_iff.mp h
    exact rest_next (ih scanned)

/-! ### What is in the grammar is accepted -/

theorem scan_single (text inside src : Bytes) (closed : 39 ∉ inside) :
    scan (.single text) (inside ++ 39 :: src) = scan (.word (text ++ inside)) src := by
  induction inside generalizing text with
  | nil => simp [scan, next]
  | cons b inside ih =>
    have b_ne : b ≠ 39 := fun same => closed (same ▸ List.mem_cons_self)
    have closed : 39 ∉ inside := fun later => closed (List.mem_cons_of_mem _ later)
    simp only [List.cons_append, scan, next, if_neg b_ne, List.nil_append, Option.map_id']
    rw [ih (text ++ [b]) closed, List.append_assoc, List.singleton_append]

theorem scan_double {quoted inside : Bytes} (h : DoubleText quoted inside) (text src : Bytes) :
    scan (.double text) (quoted ++ 34 :: src) = scan (.word (text ++ inside)) src := by
  induction h generalizing text with
  | nil => simp [scan, next]
  | escaped b _ ih =>
    have escape : (92 : UInt8) ≠ 34 := by decide
    simp only [List.cons_append, scan, next, if_neg escape, if_true, List.nil_append,
      Option.map_id']
    rw [ih (text ++ [b]), List.append_assoc, List.singleton_append]
  | other b closing escape _ ih =>
    simp only [List.cons_append, scan, next, if_neg closing, if_neg escape, List.nil_append,
      Option.map_id']
    rw [ih (text ++ [b]), List.append_assoc, List.singleton_append]

/-- The byte that opens a segment is neither blank nor an operator. -/
theorem segment_cons {segment text : Bytes} (h : Segment segment text) :
    ∃ b tail, segment = b :: tail ∧ ¬Blank b ∧ operator b = none ∧
      ∀ before src, scan (openSegment before b) (tail ++ src) = scan (.word (before ++ text)) src := by
  cases h with
  | single _ closed =>
    refine ⟨39, text ++ [39], rfl, by decide, by decide, fun before src => ?_⟩
    simpa [openSegment] using scan_single before text src closed
  | @double quoted _ inside =>
    refine ⟨34, quoted ++ [34], rfl, by decide, by decide, fun before src => ?_⟩
    simpa [openSegment] using scan_double inside before src
  | escaped b =>
    refine ⟨92, [b], rfl, by decide, by decide, fun before src => ?_⟩
    simp [openSegment, scan, next]
  | plain b self =>
    refine ⟨b, [], rfl, self.blank, self.operator, fun before src => ?_⟩
    simp [openSegment, self.single, self.double, self.escape]

theorem scan_segment {segment text : Bytes} (h : Segment segment text) (src : Bytes) :
    scan .between (segment ++ src) = scan (.word text) src ∧
      ∀ before, scan (.word before) (segment ++ src) = scan (.word (before ++ text)) src := by
  obtain ⟨b, tail, rfl, blank, op, opened⟩ := segment_cons h
  constructor
  · simpa [scan, next, blank, op] using opened [] src
  · intro before
    simpa [scan, next, blank, op] using opened before src

theorem scan_word {word text : Bytes} (h : WordText word text) (src : Bytes) :
    scan .between (word ++ src) = scan (.word text) src ∧
      ∀ before, scan (.word before) (word ++ src) = scan (.word (before ++ text)) src := by
  induction h with
  | last segment => exact scan_segment segment src
  | @more segment word text text' first _ ih =>
    obtain ⟨between, inside⟩ := scan_segment first (word ++ src)
    rw [List.append_assoc]
    refine ⟨by rw [between, ih.2], fun before => ?_⟩
    rw [inside, ih.2, List.append_assoc]

/-- At a boundary the word is complete and the scan goes on between words. -/
theorem scan_boundary {src : Bytes} (h : Boundary src) (text : Bytes) :
    scan (.word text) src = (scan .between src).map (⟨.word, text⟩ :: ·) := by
  cases src with
  | nil => rfl
  | cons b src =>
    by_cases blank : Blank b
    · simp [scan, next, blank]
    · rcases h with h | h
      · exact absurd h blank
      · obtain ⟨kind, op⟩ := Option.isSome_iff_exists.mp h
        simp [scan, next, blank, op, Function.comp_def]

theorem scan_of_line {src : Bytes} {ls : List Lexeme} (h : LineText src ls) :
    scan .between src = some ls := by
  induction h with
  | nil => rfl
  | blank blank _ ih => simp [scan, next, blank, ih]
  | @operator b kind op src ls _ ih =>
    have blank : ¬Blank b := by
      rintro (rfl | rfl) <;> cases op
    simp [scan, next, blank, op, ih]
  | word segments ends _ ih => rw [(scan_word segments _).1, scan_boundary ends, ih, Option.map_some]

/-- The scanner decides the grammar and computes its meaning. -/
theorem scan_iff {src : Bytes} {ls : List Lexeme} : scan .between src = some ls ↔ LineText src ls :=
  ⟨rest_of_scan, scan_of_line⟩

end Smultron.Shell
