import Smultron.Properties.StageGrammar

/-!
# Two ways to the arguments

A command without pipes and redirections gets its arguments from `join_word_tokens`, and a stage of
a pipeline gets them from `parse_stage`. Each of the two joins the words in a loop of its own and
stops where its buffer is full. Both come to the words with a space between two of them, or fail
because these are too long.
-/

namespace Smultron.Shell

open Checked Checked.Outcome Utf8

variable {ε : Type} {parsed out part : Bytes} {tokens : List Token}

/-- The word in the range of a token. -/
def wordAt (parsed : Bytes) (t : Token) : Bytes :=
  fromUtf8OrEmpty ((parsed.drop t.start).take t.len)

/-- The token is a word, and its range lies inside the buffer. -/
structure WordIn (parsed : Bytes) (t : Token) : Prop where
  word : t.kind = .word
  inside : t.start + t.len ≤ parsed.length

/-- No slice is longer than this. -/
def maxSlice : Nat := 2 ^ 63 - 1

/-! ### One word -/

theorem length_wordAt (parsed : Bytes) (t : Token) : (wordAt parsed t).length ≤ parsed.length := by
  refine Nat.le_trans (length_fromUtf8OrEmpty_le _) ?_
  rw [List.length_take, List.length_drop]
  omega

theorem tokenWord_inside (size : parsed.length ≤ maxSlice) {t : Token} (h : WordIn parsed t) :
    (tokenWord t parsed : Outcome ε Bytes) = .ok (wordAt parsed t) := by
  have inside := h.inside
  have word : maxSlice < wordBound := by decide
  rw [tokenWord, add_of_lt (by omega), ok_bind, slice_of_le (by omega) inside, ok_bind,
    List.drop_take, Nat.add_sub_cancel_left]
  rfl

theorem joinPart_full (room : out.length ≤ maxArgs) (size : part.length ≤ maxSlice)
    (long : maxArgs < (putWord out part).length) :
    (joinPart out part : Outcome ε (Option Bytes)) = .ok none := by
  have word : maxArgs + 1 + maxSlice < wordBound := by decide
  rw [putWord] at long
  by_cases empty : out = []
  · -- The first word alone is too long
    subst empty
    rw [if_pos rfl] at long
    rw [joinPart, if_neg (by simp), if_neg (by simp), pure_eq, ok_bind,
      add_of_lt (by simp; omega), ok_bind, if_pos (by simpa using long)]
    rfl
  · rw [if_neg empty, List.length_append, List.length_cons] at long
    have some_ : 0 < out.length := List.length_pos_iff.mpr empty
    by_cases space : maxArgs ≤ out.length
    · rw [joinPart, if_pos ⟨some_, space⟩]
      rfl
    · -- There is room for the space, but not for the word
      have longer : (out ++ [32]).length = out.length + 1 := by simp
      rw [joinPart, if_neg (by omega), if_pos some_, push_of_lt (by omega), ok_bind, longer,
        add_of_lt (by omega), ok_bind, if_pos (by omega)]
      rfl

/-! ### The two loops -/

theorem joinWordTokens_words (size : parsed.length ≤ maxSlice) (words : ∀ t ∈ tokens, WordIn parsed t)
    (room : out.length ≤ maxArgs) :
    (joinWordTokens parsed tokens out : Outcome ε (Option Bytes)) =
      .ok (if ((tokens.map (wordAt parsed)).foldl putWord out).length ≤ maxArgs then
        some ((tokens.map (wordAt parsed)).foldl putWord out) else none) := by
  induction tokens generalizing out with
  | nil =>
    rw [List.map_nil, List.foldl_nil, if_pos room]
    rfl
  | cons t tokens ih =>
    rw [List.forall_mem_cons] at words
    rw [List.map_cons, List.foldl_cons, joinWordTokens, if_neg (by simp [words.1.word]),
      tokenWord_inside size words.1, ok_bind]
    by_cases fits : (putWord out (wordAt parsed t)).length ≤ maxArgs
    · rw [joinPart_eq fits, ok_bind]
      exact ih words.2 fits
    · -- The words behind it make it no shorter
      have longer := length_le_foldl (tokens.map (wordAt parsed)) (putWord out (wordAt parsed t))
      rw [joinPart_full room (Nat.le_trans (length_wordAt parsed t) size) (Nat.not_le.mp fits),
        ok_bind, if_neg (by omega)]
      rfl

theorem joinWords_words {parts : List Bytes} (size : ∀ part ∈ parts, part.length ≤ maxSlice)
    (room : out.length ≤ maxArgs) : joinWords parts out =
      if (parts.foldl putWord out).length ≤ maxArgs then .ok (parts.foldl putWord out)
      else .err (str "parse error: args too long\n") := by
  induction parts generalizing out with
  | nil =>
    rw [List.foldl_nil, if_pos room]
    rfl
  | cons part parts ih =>
    rw [List.forall_mem_cons] at size
    rw [List.foldl_cons, joinWords]
    by_cases fits : (putWord out part).length ≤ maxArgs
    · rw [joinPart_eq fits, ok_bind]
      exact ih size.2 fits
    · have longer := length_le_foldl parts (putWord out part)
      rw [joinPart_full room size.1 (Nat.not_le.mp fits), ok_bind, if_neg (by omega)]

/-- A stage of words alone has no files. -/
theorem stageWords_words (size : parsed.length ≤ maxSlice) (words : ∀ t ∈ tokens, WordIn parsed t)
    (few : tokens.length ≤ maxStageTokens) (allowIn allowOut : Bool) :
    stageWords parsed allowIn allowOut tokens ⟨[], none, none⟩ =
      .ok ⟨tokens.map (wordAt parsed), none, none⟩ := by
  have items : Items parsed tokens (tokens.map (wordAt parsed)) [] [] := by
    clear few
    induction tokens with
    | nil => exact .nil
    | cons t tokens ih =>
      rw [List.forall_mem_cons] at words
      exact .word ⟨words.1.word, tokenWord_inside size words.1⟩ (ih words.2)
  exact items.found (by simpa using few) rfl rfl

/-- For a command of words alone, one to thirty-two of them, the arguments are the same with and
without a pipe: the words behind the first one, joined, or none when these are too long. -/
theorem args_agree (parsed : Bytes) (size : parsed.length ≤ maxSlice) (first : Token)
    (rest : List Token) (words : ∀ t ∈ first :: rest, WordIn parsed t)
    (few : (first :: rest).length ≤ 32) (allowIn allowOut : Bool) :
    let args := joined (rest.map (wordAt parsed))
    (args.length ≤ 191 ∧
        (joinWordTokens parsed rest [] : Outcome Empty _) = .ok (some args) ∧
        parseStage parsed allowIn allowOut (first :: rest) =
          .ok ⟨wordAt parsed first, args, none, none⟩) ∨
      191 < args.length ∧
        (joinWordTokens parsed rest [] : Outcome Empty _) = .ok none ∧
        parseStage parsed allowIn allowOut (first :: rest) =
          .err (str "parse error: args too long\n") := by
  intro args
  have later := (List.forall_mem_cons.mp words).2
  have sizes : ∀ part ∈ rest.map (wordAt parsed), part.length ≤ maxSlice := by
    intro part among
    obtain ⟨t, -, rfl⟩ := List.mem_map.mp among
    exact Nat.le_trans (length_wordAt parsed t) size
  have single : (joinWordTokens parsed rest [] : Outcome Empty _) =
      .ok (if args.length ≤ maxArgs then some args else none) :=
    joinWordTokens_words size later (Nat.zero_le _)
  have joins : joinWords (rest.map (wordAt parsed)) [] =
      if args.length ≤ maxArgs then .ok args else .err (str "parse error: args too long\n") :=
    joinWords_words sizes (Nat.zero_le _)
  have stage : parseStage parsed allowIn allowOut (first :: rest) =
      joinWords (rest.map (wordAt parsed)) [] >>= fun args =>
        .ok ⟨wordAt parsed first, args, none, none⟩ := by
    rw [parseStage, stageWords_words size words few]
    rfl
  by_cases fits : args.length ≤ maxArgs
  · rw [if_pos fits] at single joins
    exact .inl ⟨fits, single, by rw [stage, joins, ok_bind]⟩
  · rw [if_neg fits] at single joins
    exact .inr ⟨Nat.not_le.mp fits, single, by rw [stage, joins, err_bind]⟩

/-- The line `cp "" a b`, with an empty word in front. -/
theorem args_agree_empty :
    let tokens : List Token := [⟨.word, 2, 0⟩, ⟨.word, 2, 1⟩, ⟨.word, 3, 1⟩]
    (joinWordTokens (str "cpab") tokens [] : Outcome Empty _) = .ok (some (str "a b")) ∧
      parseStage (str "cpab") true false (⟨.word, 0, 2⟩ :: tokens) =
        .ok ⟨str "cp", str "a b", none, none⟩ := by
  intro tokens
  have args : joined (tokens.map (wordAt (str "cpab"))) = str "a b" := by decide +kernel
  have cmd : wordAt (str "cpab") ⟨.word, 0, 2⟩ = str "cp" := by decide +kernel
  have agree := args_agree (str "cpab") (by decide) ⟨.word, 0, 2⟩ tokens ?_ (by decide) true false
  · rw [args, cmd] at agree
    rcases agree with ⟨-, same⟩ | ⟨long, -⟩
    · exact same
    · exact absurd long (by decide)
  · intro t among
    have all : ∀ t ∈ (⟨.word, 0, 2⟩ : Token) :: tokens, t.kind = .word ∧ t.start + t.len ≤ 4 := by
      decide
    exact ⟨(all t among).1, (all t among).2⟩

end Smultron.Shell
