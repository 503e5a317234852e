import Smultron.Basic
import Smultron.Lib.Checked
import Smultron.Lib.Utf8

/-!
# Splitting a command line into tokens (userspace/apps/init/src/lib.rs)

The words of a line stand back to back in one buffer; a word token says where its bytes start and
how many they are.
-/

namespace Smultron.Shell

open Checked Checked.Outcome Utf8

def maxLine : Nat := 256
def maxParsedLine : Nat := maxLine * 2
def maxTokens : Nat := 64

inductive TokenKind where
  | word
  | pipe
  | redirectIn
  | redirectOut
  deriving DecidableEq, Repr

structure Token where
  kind : TokenKind
  start : Nat
  len : Nat
  deriving DecidableEq, Repr

/-- The variables of `tokenize_command`: `parsed_out[..parsed_len]`, `tokens_out[..token_count]`,
and the flags. -/
structure Tokenizer where
  parsed : Bytes
  tokens : List Token
  currentStart : Nat
  inToken : Bool
  inSingle : Bool
  inDouble : Bool
  escape : Bool
  deriving DecidableEq

namespace Tokenizer

def start : Tokenizer := ⟨[], [], 0, false, false, false, false⟩

def pushChar (t : Tokenizer) (b : UInt8) : Outcome String Tokenizer := do
  errIf (maxParsedLine ≤ t.parsed.length) "line too long"
  let parsed ← push maxParsedLine t.parsed b
  return { t with parsed }

def pushToken (t : Tokenizer) (kind : TokenKind) (start len : Nat) : Outcome String Tokenizer := do
  errIf (maxTokens ≤ t.tokens.length) "too many tokens"
  let tokens ← push maxTokens t.tokens ⟨kind, start, len⟩
  return { t with tokens }

/-- The word that ends here, if there is one. -/
def endWord (t : Tokenizer) : Outcome String Tokenizer :=
  if t.inToken then do
    let len ← sub t.parsed.length t.currentStart
    let t ← t.pushToken .word t.currentStart len
    return { t with inToken := false }
  else return t

/-- A word starts here, unless one has started already. -/
def startWord (t : Tokenizer) : Tokenizer :=
  if t.inToken then t else { t with currentStart := t.parsed.length, inToken := true }

/-- The body of the loop of `tokenize_command`. -/
def step (t : Tokenizer) (b : UInt8) : Outcome String Tokenizer :=
  -- the byte behind a backslash is taken as it is
  if t.escape then do
    let t ← t.pushChar b
    return { t with inToken := true, escape := false }
  else if t.inSingle then
    -- a backslash has no meaning between single quotes
    if b = 39 then return { t with inSingle := false }
    else do
      let t ← t.pushChar b
      return { t with inToken := true }
  else if t.inDouble then
    if b = 34 then return { t with inDouble := false }
    else if b = 92 then return { t with escape := true }
    else do
      let t ← t.pushChar b
      return { t with inToken := true }
  else if b = 32 ∨ b = 9 then t.endWord
  -- a quote starts a word, so that an empty pair of quotes is an empty word
  else if b = 39 then return { t.startWord with inSingle := true }
  else if b = 34 then return { t.startWord with inDouble := true }
  else if b = 92 then return { t.startWord with escape := true }
  else if b = 124 then do
    let t ← t.endWord
    t.pushToken .pipe 0 0
  else if b = 60 then do
    let t ← t.endWord
    t.pushToken .redirectIn 0 0
  else if b = 62 then do
    let t ← t.endWord
    t.pushToken .redirectOut 0 0
  else t.startWord.pushChar b

/-- What follows the loop. -/
def finish (t : Tokenizer) : Outcome String Tokenizer := do
  errIf t.escape "trailing escape"
  errIf (t.inSingle || t.inDouble) "unclosed quote"
  t.endWord

end Tokenizer

/-- The tokens, and the bytes at the front of the buffer they point into. -/
def tokenizeCommand (line : Bytes) : Outcome String (List Token × Bytes) := do
  let t ← line.foldlM Tokenizer.step Tokenizer.start
  let t ← t.finish
  return (t.tokens, t.parsed)

/-- The buffer of `tokenize_command` after it put `parsed` at its front. -/
def parsedStorage (parsed : Bytes) : Bytes :=
  parsed ++ List.replicate (maxParsedLine - parsed.length) 0

def tokenWord {ε : Type} (token : Token) (parsed : Bytes) : Outcome ε Bytes := do
  let stop ← add token.start token.len
  let word ← slice parsed token.start stop
  return fromUtf8OrEmpty word

end Smultron.Shell
