import Smultron.Properties.TokenizerMeaning

/-!
# The role of every byte of a line

What a byte is for depends only on the quoting in front of it, not on the words begun so far. A scan
is therefore two passes: one gives every byte its role, the other puts the words together from bytes
that are text.
-/

namespace Smultron.Shell

inductive Quoting where
  | unquoted
  | single
  | double
  | escaped
  | doubleEscaped
  deriving DecidableEq

/-- What a byte is for. -/
inductive Role where
  | blank
  | operator (kind : TokenKind)
  | mark -- a quote or a backslash
  | text
  deriving DecidableEq

namespace Quoting

/-- The quoting behind a byte. -/
def turn : Quoting → UInt8 → Quoting
  | .unquoted, b =>
    if b = 39 then .single else if b = 34 then .double else if b = 92 then .escaped else .unquoted
  | .single, b => if b = 39 then .unquoted else .single
  | .double, b => if b = 34 then .unquoted else if b = 92 then .doubleEscaped else .double
  | .escaped, _ => .unquoted
  | .doubleEscaped, _ => .double

def role : Quoting → UInt8 → Role
  | .unquoted, b =>
    if Blank b then .blank
    else
      match operator b with
      | some kind => .operator kind
      | none => if b = 39 ∨ b = 34 ∨ b = 92 then .mark else .text
  | .single, b => if b = 39 then .mark else .text
  | .double, b => if b = 34 ∨ b = 92 then .mark else .text
  | .escaped, _ | .doubleEscaped, _ => .text

/-- The quoting behind a byte that is text. -/
def behindText : Quoting → Quoting
  | .escaped => .unquoted
  | .doubleEscaped => .double
  | q => q

theorem turn_text {q : Quoting} {b : UInt8} (text : q.role b = .text) : q.turn b = q.behindText := by
  cases q with
  | unquoted =>
    -- Outside quotes the bytes that turn the quoting are marks, and no text
    have special : ¬(b = 39 ∨ b = 34 ∨ b = 92) := by
      intro special
      rw [role, if_pos special] at text
      split_ifs at text
      split at text <;> cases text
    rw [not_or, not_or] at special
    rw [turn, if_neg special.1, if_neg special.2.1, if_neg special.2.2]
    rfl
  | single =>
    rw [role] at text
    split_ifs at text with quote
    rw [turn, if_neg quote]
    rfl
  | double =>
    rw [role] at text
    split_ifs at text with special
    rw [not_or] at special
    rw [turn, if_neg special.1, if_neg special.2]
    rfl
  | escaped => rfl
  | doubleEscaped => rfl

def roles : Quoting → Bytes → List Role
  | _, [] => []
  | q, b :: src => q.role b :: roles (q.turn b) src

/-- The quoting at the end of a line. -/
def behind : Quoting → Bytes → Quoting
  | q, [] => q
  | q, b :: src => behind (q.turn b) src

/-- A line can end here. -/
def Closed (q : Quoting) : Prop := q = .unquoted

instance (q : Quoting) : Decidable q.Closed := inferInstanceAs (Decidable (q = .unquoted))

end Quoting

open Quoting

/-- The operators among the bytes with these roles. -/
def operatorsOf (rs : List Role) : List TokenKind :=
  rs.filterMap fun
    | .operator kind => some kind
    | _ => none

/-! ### Words from roles -/

/-- The word that ends here, if one has been begun. -/
def endOfWord (word : Option Bytes) : List Lexeme := (word.map fun text => ⟨.word, text⟩).toList

/-- The tokens that bytes with their roles make up, behind the word begun. -/
def group : Option Bytes → List (Role × UInt8) → List Lexeme
  | word, [] => endOfWord word
  | word, (.blank, _) :: src => endOfWord word ++ group none src
  | word, (.operator kind, _) :: src => endOfWord word ++ ⟨kind, []⟩ :: group none src
  | word, (.mark, _) :: src => group (some (word.getD [])) src
  | word, (.text, b) :: src => group (some (word.getD [] ++ [b])) src

/-- Only operators are tokens of another kind than words. -/
def operatorTokens (ls : List Lexeme) : List TokenKind := (ls.map Lexeme.kind).filter (· ≠ .word)

theorem operatorTokens_append (ls ls' : List Lexeme) :
    operatorTokens (ls ++ ls') = operatorTokens ls ++ operatorTokens ls' := by
  rw [operatorTokens, List.map_append, List.filter_append]
  rfl

theorem operatorTokens_endOfWord (word : Option Bytes) : operatorTokens (endOfWord word) = [] := by
  cases word <;> rfl

theorem operator_ne_word {b : UInt8} {kind : TokenKind} (op : operator b = some kind) :
    kind ≠ .word := by
  rintro rfl
  rw [operator] at op
  split_ifs at op <;> cases op

theorem role_ne_word (q : Quoting) (b : UInt8) : q.role b ≠ .operator .word := by
  intro same
  cases q with
  | unquoted =>
    rw [role] at same
    cases op : operator b with
    | some kind =>
      simp only [op] at same
      split_ifs at same
      exact operator_ne_word op (Role.operator.inj same)
    | none =>
      simp only [op] at same
      split_ifs at same
  | single =>
    rw [role] at same
    split_ifs at same
  | double =>
    rw [role] at same
    split_ifs at same
  | escaped => cases same
  | doubleEscaped => cases same

theorem operatorTokens_group (word : Option Bytes) (src : List (Role × UInt8))
    (ok : ∀ r ∈ src, r.1 ≠ .operator .word) :
    operatorTokens (group word src) = operatorsOf (src.map Prod.fst) := by
  induction src generalizing word with
  | nil => exact operatorTokens_endOfWord word
  | cons r src ih =>
    rw [List.forall_mem_cons] at ok
    obtain ⟨first, later⟩ := ok
    obtain ⟨role, b⟩ := r
    cases role with
    | blank =>
      rw [group, operatorTokens_append, operatorTokens_endOfWord, ih none later]
      rfl
    | operator kind =>
      -- Only words are left out
      have notWord : kind ≠ .word := fun same => first (congrArg Role.operator same)
      have isOperator : operatorTokens [⟨kind, []⟩] = [kind] := by simp [operatorTokens, notWord]
      rw [group, operatorTokens_append, operatorTokens_endOfWord, List.nil_append,
        ← List.singleton_append, operatorTokens_append, isOperator, ih none later]
      rfl
    | mark => exact ih _ later
    | text => exact ih _ later

/-! ### The scan in two passes -/

/-- The quoting in a mode. -/
def Mode.quoting : Mode → Quoting
  | .between | .word _ => .unquoted
  | .single _ => .single
  | .double _ => .double
  | .escape _ => .escaped
  | .doubleEscape _ => .doubleEscaped

theorem atEnd_eq (mode : Mode) :
    atEnd mode = if mode.quoting.Closed then some (endOfWord mode.text) else none := by
  cases mode <;> rfl

/-- What a byte does outside quotes. -/
theorem next_unquoted {mode : Mode} (h : mode.quoting = .unquoted) (b : UInt8) :
    (Blank b → next mode b = (.between, endOfWord mode.text)) ∧
      (∀ kind, ¬Blank b → operator b = some kind →
        next mode b = (.between, endOfWord mode.text ++ [⟨kind, []⟩])) ∧
      (¬Blank b → operator b = none →
        next mode b = (openSegment (mode.text.getD []) b, [])) := by
  refine ⟨fun blank => ?_, fun kind blank op => ?_, fun blank op => ?_⟩
  all_goals cases mode <;> cases h
  all_goals simp [next, Mode.text, endOfWord, *]

/-- One byte turns the quoting, and with its role it is put into the words. -/
theorem next_eq (mode : Mode) (b : UInt8) :
    (next mode b).1.quoting = mode.quoting.turn b ∧
      ∀ src, group mode.text ((mode.quoting.role b, b) :: src) =
        (next mode b).2 ++ group (next mode b).1.text src := by
  have unquoted (h : mode.quoting = .unquoted) : (next mode b).1.quoting = Quoting.unquoted.turn b ∧
      ∀ src, group mode.text ((Quoting.unquoted.role b, b) :: src) =
        (next mode b).2 ++ group (next mode b).1.text src := by
    obtain ⟨isBlank, isOperator, opens⟩ := next_unquoted h b
    by_cases blank : Blank b
    · have turns : Quoting.unquoted.turn b = .unquoted := by
        rcases blank with rfl | rfl <;> rfl
      rw [isBlank blank, turns, role, if_pos blank]
      exact ⟨rfl, fun _ => rfl⟩
    · cases op : operator b with
      | some kind =>
        have turns : Quoting.unquoted.turn b = .unquoted := by
          rw [operator] at op
          split_ifs at op with pipe redirectIn redirectOut
          · rw [pipe]; rfl
          · rw [redirectIn]; rfl
          · rw [redirectOut]; rfl
        rw [isOperator kind blank op, turns, role, if_neg blank, op]
        exact ⟨rfl, fun _ => by simp [group, Mode.text]⟩
      | none =>
        -- The byte opens a segment of a word
        rw [opens blank op, openSegment, turn, role, if_neg blank, op]
        dsimp only
        split_ifs <;> simp_all [Mode.quoting, group, Mode.text]
  cases mode with
  | between => exact unquoted rfl
  | word text => exact unquoted rfl
  | single text =>
    simp only [next, Mode.quoting, turn, role]
    split_ifs
    · exact ⟨rfl, fun _ => rfl⟩
    · exact ⟨rfl, fun _ => rfl⟩
  | double text =>
    simp only [next, Mode.quoting, turn, role]
    by_cases quote : b = 34
    · rw [if_pos quote, if_pos quote, if_pos (.inl quote)]
      exact ⟨rfl, fun _ => rfl⟩
    · by_cases backslash : b = 92
      · rw [if_neg quote, if_neg quote, if_pos backslash, if_pos backslash, if_pos (.inr backslash)]
        exact ⟨rfl, fun _ => rfl⟩
      · rw [if_neg quote, if_neg quote, if_neg backslash, if_neg backslash,
          if_neg (not_or.mpr ⟨quote, backslash⟩)]
        exact ⟨rfl, fun _ => rfl⟩
  | escape text => exact ⟨rfl, fun _ => rfl⟩
  | doubleEscape text => exact ⟨rfl, fun _ => rfl⟩

/-- A scan gives every byte its role and puts the words together. -/
theorem scan_eq (mode : Mode) (src : Bytes) :
    scan mode src = if (mode.quoting.behind src).Closed
      then some (group mode.text ((mode.quoting.roles src).zip src)) else none := by
  induction src generalizing mode with
  | nil => exact atEnd_eq mode
  | cons b src ih =>
    obtain ⟨turns, grouped⟩ := next_eq mode b
    rw [scan, ih, turns, behind, roles, List.zip_cons_cons, grouped]
    split_ifs <;> rfl

end Smultron.Shell
