import Smultron.Properties.ShellBounds
import Smultron.Properties.TokenizerMeaning

/-!
# The texts of the words of a line

What the shell reads from its buffer for a token is the text the scanner found for it. Such a text
is made of bytes of the line, and it is a text again: all special bytes are ASCII, so a character
that is not is taken as a whole.
-/

namespace Smultron.Shell

open Checked Checked.Outcome Utf8

/-! ### What a scan keeps -/

/-- The text of the word begun, if there is one, satisfies `K`. -/
def Mode.Keeps (K : Bytes → Prop) (mode : Mode) : Prop := ∀ text, mode.text = some text → K text

/-- The tokens have texts that satisfy `K`. -/
def AllTexts (K : Bytes → Prop) (ls : List Lexeme) : Prop := ∀ l ∈ ls, K l.text

section Keeps

variable {K : Bytes → Prop} {mode : Mode} {b : UInt8}

theorem keeps_between : Mode.between.Keeps K := nofun

theorem keeps_text {text : Bytes} (begun : mode.text = some text) (kept : K text) :
    mode.Keeps K := by
  intro text' same
  rw [begun] at same
  obtain rfl := Option.some.inj same
  exact kept

theorem openSegment_keeps {text : Bytes} (kept : K text) (grow : K (text ++ [b])) :
    (openSegment text b).Keeps K := by
  rintro text' same
  rw [openSegment] at same
  split_ifs at same <;> cases same
  · exact kept
  · exact kept
  · exact kept
  · exact grow

theorem next_keeps (empty : K []) (grow : ∀ text, K text → K (text ++ [b])) (h : mode.Keeps K) :
    (next mode b).1.Keeps K ∧ AllTexts K (next mode b).2 := by
  have none_ : AllTexts K [] := List.forall_mem_nil _
  cases mode with
  | between =>
    simp only [next]
    split
    · exact ⟨keeps_between, none_⟩
    · -- An operator has no text, and any other byte begins a word
      split
      · exact ⟨keeps_between, by simpa [AllTexts] using empty⟩
      · exact ⟨openSegment_keeps empty (grow [] empty), none_⟩
  | word text =>
    -- A byte that ends the word hands its text on
    have kept : K text := h text rfl
    simp only [next]
    split
    · exact ⟨keeps_between, by simpa [AllTexts] using kept⟩
    · split
      · exact ⟨keeps_between, by simpa [AllTexts] using ⟨kept, empty⟩⟩
      · exact ⟨openSegment_keeps kept (grow text kept), none_⟩
  | single text =>
    have kept : K text := h text rfl
    simp only [next]
    split
    · exact ⟨keeps_text rfl kept, none_⟩
    · exact ⟨keeps_text rfl (grow text kept), none_⟩
  | double text =>
    have kept : K text := h text rfl
    simp only [next]
    split
    · exact ⟨keeps_text rfl kept, none_⟩
    split
    · exact ⟨keeps_text rfl kept, none_⟩
    · exact ⟨keeps_text rfl (grow text kept), none_⟩
  | escape text => exact ⟨keeps_text rfl (grow text (h text rfl)), none_⟩
  | doubleEscape text => exact ⟨keeps_text rfl (grow text (h text rfl)), none_⟩

theorem atEnd_keeps {ls : List Lexeme} (h : mode.Keeps K) (ended : atEnd mode = some ls) :
    AllTexts K ls := by
  cases mode with
  | between =>
    cases ended
    nofun
  | word text =>
    cases ended
    simpa [AllTexts] using h text rfl
  | _ => cases ended

theorem scan_keeps {src : Bytes} {ls : List Lexeme} (empty : K [])
    (grow : ∀ b ∈ src, ∀ text, K text → K (text ++ [b])) (h : mode.Keeps K)
    (scanned : scan mode src = some ls) : AllTexts K ls := by
  induction src generalizing mode ls with
  | nil => exact atEnd_keeps h scanned
  | cons b src ih =>
    obtain ⟨ls', later, rfl⟩ := Option.map_eq_some_iff.mp scanned
    rw [List.forall_mem_cons] at grow
    obtain ⟨kept, done⟩ := next_keeps empty grow.1 h
    intro l hl
    rcases List.mem_append.mp hl with now | rest
    · exact done l now
    · exact ih grow.2 kept later l rest

end Keeps

/-- Words are made of bytes of the line. -/
theorem scan_subset {src : Bytes} {ls : List Lexeme} (scanned : scan .between src = some ls) :
    AllTexts (· ⊆ src) ls :=
  scan_keeps (List.nil_subset _)
    (fun _ hb _ kept => List.append_subset.mpr
      ⟨kept, List.cons_subset.mpr ⟨hb, List.nil_subset _⟩⟩) keeps_between scanned

/-! ### Characters of several bytes -/

/-- Bytes from 128 on have no meaning of their own: the word takes them. -/
def Mode.take (bs : Bytes) : Mode → Mode
  | .between => .word bs
  | .word text => .word (text ++ bs)
  | .single text => .single (text ++ bs)
  | .double text => .double (text ++ bs)
  | .escape text => .word (text ++ bs)
  | .doubleEscape text => .double (text ++ bs)

theorem next_high {b : UInt8} (high : 128 ≤ b) (mode : Mode) : next mode b = (mode.take [b], []) := by
  have apart (c : UInt8) (ascii : c < 128) : b ≠ c := by
    rintro rfl
    exact absurd high (UInt8.not_le.mpr ascii)
  have blank : ¬Blank b := by
    rintro (same | same)
    · exact apart 32 (by decide) same
    · exact apart 9 (by decide) same
  have plain : operator b = none := by
    rw [operator, if_neg (apart 124 (by decide)), if_neg (apart 60 (by decide)),
      if_neg (apart 62 (by decide))]
  -- So the byte neither ends a word nor opens a quote
  have opened (text : Bytes) : openSegment text b = .word (text ++ [b]) := by
    rw [openSegment, if_neg (apart 39 (by decide)), if_neg (apart 34 (by decide)),
      if_neg (apart 92 (by decide))]
  cases mode with
  | between => simp [next, blank, plain, opened, Mode.take]
  | word text => simp [next, blank, plain, opened, Mode.take]
  | single text => simp [next, apart 39 (by decide), Mode.take]
  | double text => simp [next, apart 34 (by decide), apart 92 (by decide), Mode.take]
  | escape text => rfl
  | doubleEscape text => rfl

theorem take_cons (mode : Mode) (b : UInt8) (bs : Bytes) :
    (mode.take [b]).take bs = mode.take (b :: bs) := by
  cases mode <;> simp [Mode.take]

theorem scan_high {bs src : Bytes} (high : ∀ b ∈ bs, 128 ≤ b) (some_ : bs ≠ []) (mode : Mode) :
    scan mode (bs ++ src) = scan (mode.take bs) src := by
  induction bs generalizing mode with
  | nil => exact absurd rfl some_
  | cons b bs ih =>
    rw [List.forall_mem_cons] at high
    rw [List.cons_append, scan, next_high high.1]
    simp only [List.nil_append, Option.map_id']
    by_cases last : bs = []
    · rw [last, List.nil_append]
    · rw [ih high.2 last, take_cons]

/-- The words of a text are texts. -/
theorem scan_valid {cs : List Char} {mode : Mode} {ls : List Lexeme} (h : mode.Keeps Valid)
    (scanned : scan mode (encode cs) = some ls) : AllTexts Valid ls := by
  induction cs generalizing mode ls with
  | nil => exact atEnd_keeps h scanned
  | cons c cs ih =>
    rw [encode_cons] at scanned
    have whole : Valid (String.utf8EncodeChar c) := by simpa using valid_encode [c]
    by_cases high : ∀ b ∈ String.utf8EncodeChar c, 128 ≤ b
    · -- A character of several bytes goes into the word as a whole
      rw [scan_high high String.utf8EncodeChar_ne_nil] at scanned
      refine ih ?_ scanned
      intro text same
      cases mode <;> cases same
      · exact whole
      all_goals exact (h _ rfl).append whole
    · -- An ASCII character is one byte
      push Not at high
      obtain ⟨b, member, ascii⟩ := high
      obtain ⟨single, -⟩ := ascii_char member (UInt8.not_le.mp ascii)
      rw [single] at whole
      rw [single, List.singleton_append, scan] at scanned
      obtain ⟨ls', later, rfl⟩ := Option.map_eq_some_iff.mp scanned
      obtain ⟨kept, done⟩ := next_keeps valid_nil (fun _ valid => valid.append whole) h
      intro l hl
      rcases List.mem_append.mp hl with now | rest
      · exact done l now
      · exact ih kept later l rest

/-! ### What the shell reads for a token -/

theorem tokenWord_eq {ε : Type} {token : Token} {buffer : Bytes} {w : Bytes}
    (h : (tokenWord token buffer : Outcome ε Bytes) = .ok w) :
    w = fromUtf8OrEmpty (lexeme buffer token).text := by
  obtain ⟨stop, sum, h⟩ := bind_eq_ok.mp h
  obtain ⟨word, cut, last⟩ := bind_eq_ok.mp h
  rw [add] at sum
  split at sum
  · obtain rfl := Outcome.ok.inj sum
    rw [slice] at cut
    split at cut
    · obtain rfl := Outcome.ok.inj cut
      obtain rfl := Outcome.ok.inj last
      rw [lexeme, List.drop_take, Nat.add_sub_cancel_left]
    · cases cut
  · cases sum

/-- The tokens of a line read as what the scanner finds in it. -/
theorem tokenizeCommand_scan {line : Bytes} (short : line.length ≤ maxParsedLine)
    {tokens : List Token} {parsed : Bytes} (ok : tokenizeCommand line = .ok (tokens, parsed)) :
    scan .between line = some (tokens.map (lexeme (parsedStorage parsed))) := by
  rcases tokenizeCommand_follows short with ⟨es, tokens', parsed', scanned, -, ok', texts⟩ | failed
  · rw [ok] at ok'
    obtain ⟨rfl, rfl⟩ := Prod.mk.inj (Outcome.ok.inj ok')
    rw [texts, scanned]
  · obtain ⟨msg, failed, -⟩ := failed
    rw [ok] at failed
    cases failed

theorem tokenWord_subset {ε : Type} {line : Bytes} (short : line.length ≤ maxParsedLine)
    {tokens : List Token} {parsed : Bytes} (ok : tokenizeCommand line = .ok (tokens, parsed))
    {token : Token} (among : token ∈ tokens) {w : Bytes}
    (h : (tokenWord token (parsedStorage parsed) : Outcome ε Bytes) = .ok w) : w ⊆ line := by
  rw [tokenWord_eq h]
  exact List.Subset.trans (fromUtf8OrEmpty_sublist _).subset
    (scan_subset (tokenizeCommand_scan short ok) _ (List.mem_map_of_mem among))

end Smultron.Shell
