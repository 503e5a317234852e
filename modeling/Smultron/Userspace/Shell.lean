import Smultron.Userspace.Env
import Smultron.Userspace.Tokenizer

/-!
# The shell (userspace/apps/init/src/lib.rs)

A line is expanded, split into tokens, and dispatched: a builtin, one program, or a pipeline of
programs with redirections. Buffers that stay inside one function are their used part; those handed
to the kernel are modelled whole. The current directory is the variable `CWD`.
-/

namespace Smultron.Shell

open Checked Checked.Outcome Utf8 Proc

def maxPipeStages : Nat := 4
def maxStageTokens : Nat := 32
def maxArgs : Nat := 191
def maxIoBuf : Nat := 4096

def binPrefix : Bytes := str "/bin/"
def cwdKey : Bytes := str "CWD"

/-- `s.starts_with('/')` -/
def isAbsolute (path : Bytes) : Bool := path.head? == some 47

/-! ### Joining words -/

/-- Put `part` behind `out` in the argument buffer, with a space between them; `none` when it does
not fit. -/
def joinPart {ε : Type} (out part : Bytes) : Outcome ε (Option Bytes) := do
  if 0 < out.length ∧ maxArgs ≤ out.length then return none
  let out ← (if 0 < out.length then push maxArgs out 32 else pure out)
  let stop ← add out.length part.length
  if maxArgs < stop then return none
  let out ← append maxArgs out part
  return some out

/-- The bytes `out[..out_len]`. -/
def joinWordTokens {ε : Type} (parsed : Bytes) : List Token → Bytes → Outcome ε (Option Bytes)
  | [], out => return some out
  | t :: tokens, out => do
    if t.kind ≠ .word then return none
    let part ← tokenWord t parsed
    match ← joinPart out part with
    | none => return none
    | some out => joinWordTokens parsed tokens out

/-! ### The current directory -/

/-- The old directory at the front of the new one, with a slash behind it. -/
def cwdFront (env : Env) : Outcome Empty Bytes :=
  match getEnv env cwdKey with
  | none => push 128 [] 47
  | some cwd => do
    -- the directory is cut to leave room for the slash
    let buf ← append 128 [] (cwd.take (128 - 1))
    if buf.length = 0 then return buf
    let last ← sub buf.length 1
    let b ← index buf last
    if b = 47 then return buf
    push 128 buf 47

def relativeCwd (env : Env) (path : Bytes) : Outcome Empty Bytes := do
  let buf ← cwdFront env
  -- a path that does not fit is cut without a message
  let room ← sub 128 buf.length
  let room ← sub room 1
  append 128 buf (path.take room)

/-- The path `set_cwd` makes of its argument. -/
def newCwd (env : Env) (args : Bytes) : Outcome Empty Bytes := do
  let path := if trim args = [] then str "/" else trim args
  let buf ← (if isAbsolute path then append 128 [] (path.take (128 - 1)) else relativeCwd env path)
  if buf.length ≤ 1 then return buf
  let last ← sub buf.length 1
  let b ← index buf last
  if b = 47 then return buf.take last
  return buf

def setCwd (env : Env) (args : Bytes) : User Env := do
  let buf ← lift (newCwd env args)
  match fromUtf8 buf with
  | some path => setEnv env cwdKey path
  | none => return env

/-- The directory part of a relative path. -/
def cwdOf (env : Env) : Bytes :=
  match getEnv env cwdKey with
  | some v => (fromUtf8 v).getD (str "/")
  | none => str "/"

/-- Put a path behind what stands in `out` already. -/
def joinPath {ε : Type} (out path : Bytes) : Outcome ε (Option Bytes) := do
  let stop ← add out.length path.length
  if 128 < stop then return none
  let out ← append 128 out path
  return fromUtf8 out

def resolvePath {ε : Type} (env : Env) (path : Bytes) : Outcome ε (Option Bytes) :=
  if isAbsolute path then
    if 128 < path.length then return none
    else do
      let out ← append 128 [] path
      return fromUtf8 out
  else if cwdOf env = str "/" then do
    let out ← push 128 [] 47
    joinPath out path
  else do
    let size ← add (cwdOf env).length 1
    if 128 < size then return none
    let out ← append 128 [] (cwdOf env)
    -- an empty directory has no last byte: the subtraction panics
    let last ← sub (cwdOf env).length 1
    let b ← index (cwdOf env) last
    let out ← (if b ≠ 47 then push 128 out 47 else pure out)
    joinPath out path

/-! ### Running programs -/

def resolveBinPath {ε : Type} (cmd : Bytes) : Outcome ε (Option Bytes) := do
  if isAbsolute cmd then return some cmd
  let total ← add binPrefix.length cmd.length
  if total = 0 ∨ 63 < total then return none
  let storage ← append 64 [] binPrefix
  let storage ← append 64 storage cmd
  return fromUtf8 storage

/-- The status, the length of the output, and the capture buffer. -/
def execFromBinIo (env : Env) (cmd args : Bytes) (stdin : Option Bytes) (capture : Bool)
    (captureBuf : Bytes) : User (Nat × Nat × Bytes) := do
  let envBuf ← lift (buildEnvStr env)
  let envStr := fromUtf8OrEmpty envBuf
  match ← lift (resolveBinPath cmd) with
  | none => return (u64Max, 0, captureBuf)
  | some path =>
    -- without redirection the program runs on the console
    if stdin.isNone && !capture then
      let status ← Libos.execStrEnv path args envStr
      return (status, 0, captureBuf)
    else
      let stdout := if capture then some captureBuf else none
      let (status, outLen, out) ← Libos.execIoStrEnv path args envStr stdin stdout
      return (status, outLen, out.getD captureBuf)

def execFromBin (env : Env) (cmd args : Bytes) : User Nat := do
  let (status, _, _) ← execFromBinIo env cmd args none false []
  return status

def unknownCommand (cmd : Bytes) : User Unit := do
  writeStr (str "unknown command: ")
  writeStr cmd
  writeStr (str "\n")

def dispatchSimple (env : Env) (cmd args : Bytes) : User (Bool × Env) :=
  if cmd = str "help" then do
    writeStr (str "commands: help, clear, exit, env, export, cd, <binary in /bin>\n")
    writeStr (str "shell I/O: cmd1 | cmd2, cmd > file, cmd < file\n")
    writeStr (str "quotes: use '...' or \"...\" for grouped args/paths\n")
    return (true, env)
  else if cmd = str "clear" then do
    writeStr [27, 91, 50, 74, 27, 91, 72]
    return (true, env)
  else if cmd = str "exit" then return (false, env)
  else if cmd = str "cd" then do
    let env ← setCwd env args
    return (true, env)
  else if cmd = str "env" then do
    let envBuf ← lift (buildEnvStr env)
    writeStr (fromUtf8OrEmpty envBuf)
    return (true, env)
  else if cmd = str "export" then
    match splitOnce 61 args with
    | some (k, v) => do
      let env ← setEnv env (trim k) (trim v)
      return (true, env)
    | none => do
      writeStr (str "usage: export KEY=VALUE\n")
      return (true, env)
  else do
    if (← execFromBin env cmd args) = u64Max then unknownCommand cmd
    return (true, env)

/-! ### Pipelines -/

structure StageParse where
  cmd : Bytes
  args : Bytes
  inFile : Option Bytes
  outFile : Option Bytes
  deriving DecidableEq

/-- What the loop of `parse_stage` has found: `words[..word_count]` and the two files. -/
structure StageWords where
  words : List Bytes
  inFile : Option Bytes
  outFile : Option Bytes

/-- The loop of `parse_stage`; an error is the message it writes. -/
def stageWords (parsed : Bytes) (allowIn allowOut : Bool) :
    List Token → StageWords → Outcome Bytes StageWords
  | [], acc => return acc
  | ⟨.redirectIn, _, _⟩ :: rest, acc => do
    errIf (!allowIn || acc.inFile.isSome) (str "parse error: invalid '<' placement\n")
    match rest with
    | [] => err (str "parse error: missing file after '<'\n")
    | t :: rest => do
      errIf (t.kind ≠ .word) (str "parse error: missing file after '<'\n")
      let file ← tokenWord t parsed
      stageWords parsed allowIn allowOut rest { acc with inFile := some file }
  | ⟨.redirectOut, _, _⟩ :: rest, acc => do
    errIf (!allowOut || acc.outFile.isSome) (str "parse error: invalid '>' placement\n")
    match rest with
    | [] => err (str "parse error: missing file after '>'\n")
    | t :: rest => do
      errIf (t.kind ≠ .word) (str "parse error: missing file after '>'\n")
      let file ← tokenWord t parsed
      stageWords parsed allowIn allowOut rest { acc with outFile := some file }
  | ⟨.pipe, _, _⟩ :: _, _ => err (str "parse error: unexpected '|'\n")
  | t :: rest, acc => do
    errIf (maxStageTokens ≤ acc.words.length) (str "parse error: too many tokens\n")
    let word ← tokenWord t parsed
    let words ← push maxStageTokens acc.words word
    stageWords parsed allowIn allowOut rest { acc with words }

/-- The arguments of a stage, joined in `args_buf`. -/
def joinWords : List Bytes → Bytes → Outcome Bytes Bytes
  | [], out => return out
  | part :: parts, out => do
    match ← joinPart out part with
    | none => err (str "parse error: args too long\n")
    | some out => joinWords parts out

def parseStage (parsed : Bytes) (allowIn allowOut : Bool) (stageTokens : List Token) :
    Outcome Bytes StageParse := do
  let found ← stageWords parsed allowIn allowOut stageTokens ⟨[], none, none⟩
  match found.words with
  | [] => err (str "parse error: empty command stage\n")
  | cmd :: rest => do
    let args ← joinWords rest []
    return ⟨cmd, args, found.inFile, found.outFile⟩

def isBuiltin (cmd : Bytes) : Bool :=
  cmd == str "help" || cmd == str "clear" || cmd == str "exit" || cmd == str "cd" ||
    cmd == str "env" || cmd == str "export"

def builtinError : Bytes := str "error: pipes/redirection are only supported for /bin commands\n"

/-- The stage that ends before token `i`, put behind the stages found so far. -/
def closeStage (stages : List (Nat × Nat)) (start i : Nat) : Outcome Bytes (List (Nat × Nat)) := do
  errIf (maxPipeStages ≤ stages.length) (str "parse error: too many pipeline stages\n")
  errIf (start = i) (str "parse error: empty pipeline stage\n")
  push maxPipeStages stages (start, i)

/-- The first loop of `dispatch_compound_tokens` from token `i` on; an error is the message it
writes. -/
def splitFrom : List Token → Nat → Nat → List (Nat × Nat) → Outcome Bytes (List (Nat × Nat))
  | [], i, start, stages => closeStage stages start i
  | t :: rest, i, start, stages =>
    if t.kind = .pipe then do
      let stages ← closeStage stages start i
      splitFrom rest (i + 1) (i + 1) stages
    else splitFrom rest (i + 1) start stages

/-- The start and the end of every stage. -/
def splitStages (tokens : List Token) : Outcome Bytes (List (Nat × Nat)) := splitFrom tokens 0 0 []

/-- What the stages hand on: `pipe_data[..pipe_len]` and the whole capture buffer. -/
structure PipeState where
  pipe : Bytes
  captureBuf : Bytes

def PipeState.start : PipeState := ⟨[], List.replicate maxIoBuf 0⟩

/-- `dst[..len].copy_from_slice(&src[..len])` for buffers of `maxIoBuf` bytes. -/
def copyPrefix (src : Bytes) (len : Nat) : Outcome Empty Bytes := do
  let part ← slice src 0 len
  append maxIoBuf [] part

def redirectionError (verb path : Bytes) : User Unit := do
  writeStr (str "redirection error: cannot " ++ verb ++ str " ")
  writeStr path
  writeStr (str "\n")

def pathTooLong : User Unit := writeStr (str "redirection error: path too long\n")

/-- The input file of the first stage: what the pipe holds for it, or `none` after a message. -/
def openInput (env : Env) (file : Bytes) : User (Option Bytes) := do
  match ← lift (resolvePath env file) with
  | none => do
    pathTooLong
    return none
  | some path => do
    let (found, fileBuf) ← Libos.readFile path (List.replicate maxIoBuf 0)
    match found with
    | some len => do
      let pipe ← lift (copyPrefix fileBuf len)
      return some pipe
    | none => do
      redirectionError (str "read") path
      return none

/-- The output file of the last stage; false after a message. -/
def storeOutput (env : Env) (file captureBuf : Bytes) (outLen : Nat) : User Bool := do
  match ← lift (resolvePath env file) with
  | none => do
    pathTooLong
    return false
  | some path => do
    let output ← lift (slice captureBuf 0 outLen)
    match ← Libos.writeFile path output with
    | some _ => return true
    | none => do
      redirectionError (str "write") path
      return false

def stageInput (env : Env) (first : Bool) (stage : StageParse) (pipe : Bytes) :
    User (Option Bytes) :=
  match (if first then stage.inFile else none) with
  | some file => openInput env file
  | none => pure (some pipe)

/-- The body of the second loop for a stage that parsed: what it hands on, or `none` where the
function returns. -/
def runStage (env : Env) (first last : Bool) (stage : StageParse) (state : PipeState) :
    User (Option PipeState) := do
  match ← stageInput env first stage state.pipe with
  | none => return none
  | some pipe => do
    -- a later stage gets the pipe even when it is empty
    let stdin := if first && stage.inFile.isNone then none else some pipe
    let capture := !last || stage.outFile.isSome
    let (status, outLen, captureBuf) ←
      execFromBinIo env stage.cmd (fromUtf8OrEmpty stage.args) stdin capture state.captureBuf
    -- a program that returns `u64::MAX` itself is reported as unknown, too
    if status = u64Max then
      unknownCommand stage.cmd
      return none
    else if !capture then return some ⟨pipe, captureBuf⟩
    else if !last then
      let pipe ← lift (copyPrefix captureBuf outLen)
      return some ⟨pipe, captureBuf⟩
    else
      match stage.outFile with
      | none => return some ⟨pipe, captureBuf⟩
      | some file =>
        if ← storeOutput env file captureBuf outLen then return some ⟨pipe, captureBuf⟩
        else return none

/-- A stage of the second loop, up to the point where it is executed. -/
def checkStage (tokens : List Token) (parsed : Bytes) (first last : Bool) (range : Nat × Nat) :
    Outcome Bytes StageParse := do
  let stageTokens ← slice tokens range.1 range.2
  let stage ← parseStage parsed first last stageTokens
  errIf (isBuiltin stage.cmd) builtinError
  return stage

/-- The second loop of `dispatch_compound_tokens`. -/
def runStages (env : Env) (tokens : List Token) (parsed : Bytes) :
    (first : Bool) → List (Nat × Nat) → PipeState → User Unit
  | _, [], _ => return ()
  | first, range :: ranges, state =>
    -- a stage is parsed when its turn comes, with the stages before it executed already
    match checkStage tokens parsed first ranges.isEmpty range with
    | .panic => lift .panic
    | .err msg => writeStr msg
    | .ok stage => do
      match ← runStage env first ranges.isEmpty stage state with
      | none => return ()
      | some state => runStages env tokens parsed false ranges state

def dispatchCompoundTokens (env : Env) (tokens : List Token) (parsed : Bytes) : User Bool := do
  match splitStages tokens with
  | .panic => lift .panic
  | .err msg => do
    writeStr msg
    return true
  | .ok stages => do
    runStages env tokens parsed true stages PipeState.start
    return true

/-! ### Lines -/

/-- The bytes of the line after expansion. -/
def expanded (env : Env) (line : Bytes) : Bytes :=
  trim (fromUtf8OrEmpty (expandLine env (trim (fromUtf8OrEmpty line)) (maxLine * 2)))

/-- False when the shell is left. -/
def dispatch (env : Env) (line : Bytes) : User (Bool × Env) := do
  if trim (fromUtf8OrEmpty line) = [] then return (true, env)
  if expanded env line = [] then return (true, env)
  match tokenizeCommand (expanded env line) with
  | .panic => lift .panic
  | .err msg => do
    writeStr (str "parse error: ")
    writeStr (str msg)
    writeStr (str "\n")
    return (true, env)
  | .ok (tokens, parsed) =>
    match tokens with
    | [] => return (true, env)
    | cmdToken :: argTokens =>
      -- an operator anywhere makes the line a pipeline, also one of a single stage
      if tokens.any (·.kind ≠ .word) then
        let more ← dispatchCompoundTokens env tokens (parsedStorage parsed)
        return (more, env)
      else do
        let cmd ← lift (tokenWord cmdToken (parsedStorage parsed))
        match ← lift (joinWordTokens (parsedStorage parsed) argTokens []) with
        | none => do
          writeStr (str "parse error: args too long\n")
          return (true, env)
        | some args => dispatchSimple env cmd (fromUtf8OrEmpty args)

/-- How far `read_line` came: the line that is being typed, or that was ended. -/
inductive LineRead where
  | editing (line : Bytes)
  | entered (line : Bytes)
  deriving DecidableEq, Repr

/-- `read_line` for a number of reads, with `buf[..len]`. -/
def readLine : Nat → Bytes → User LineRead
  | 0, line => return .editing line
  | reads + 1, line => do
    let (n, byte) ← Libos.read 0 [0]
    if n ≠ 1 then readLine reads line
    else
      let b ← lift (index byte 0)
      if b = 13 ∨ b = 10 then
        writeStr (str "\n")
        return .entered line
      else if b = 8 ∨ b = 127 then
        if 0 < line.length then
          let len ← lift (sub line.length 1)
          -- back, a blank over the character, and back again
          writeStr (str "\x08 \x08")
          readLine reads (line.take len)
        else readLine reads line
      else if line.length < maxLine then
        let line ← lift (push maxLine line b)
        let _ ← Libos.write 1 [b]
        readLine reads line
      -- a key that finds the line full is dropped
      else readLine reads line

def prompt : Bytes := str "smultron$ "

/-- The loop of `run` up to the line it dispatches. -/
def promptLine (reads : Nat) : User LineRead := do
  writeStr prompt
  readLine reads []

/-- Dispatch lines one after the other until one leaves the shell. -/
def dispatchLines (env : Env) : List Bytes → User Env
  | [] => return env
  | line :: lines => do
    let (more, env) ← dispatch env line
    if more then dispatchLines env lines else return env

/-- The environment `run` starts with, and the lines it reads. -/
def session (lines : List Bytes) : User Env := do
  let env ← setEnv Env.empty cwdKey (str "/")
  dispatchLines env lines

end Smultron.Shell
