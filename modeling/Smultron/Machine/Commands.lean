import Smultron.Machine.Programs

/-!
# The language of the shell

A line stands for a command, and a command is a function on the world. Parsing comes first here and
execution after it, while the shell itself parses a stage when its turn comes. There are no tokens, no
buffers and no calls left in what a command means. `none` is a panic of the shell, or a program of
which the machine does not say what it does.
-/

namespace Smultron.Machine

open Checked Shell Utf8 Vfs

/-- What the shell makes of a line. A stage that does not parse ends the list with its message. -/
inductive Command where
  | nothing
  | refused (msg : Bytes)
  | simple (cmd args : Bytes)
  | pipeline (stages : List (Except Bytes StageParse))
  deriving DecidableEq

/-! ### Parsing -/

def stagesOf (tokens : List Token) (parsed : Bytes) :
    (first : Bool) → List (Nat × Nat) → Outcome Empty (List (Except Bytes StageParse))
  | _, [] => return []
  | first, range :: ranges =>
    match checkStage tokens parsed first ranges.isEmpty range with
    | .panic => .panic
    | .err msg => return [.error msg]
    | .ok stage => do
      let later ← stagesOf tokens parsed false ranges
      return .ok stage :: later

/-- A line with an operator in it. -/
def pipelineOf (tokens : List Token) (parsed : Bytes) : Outcome Empty Command :=
  match splitStages tokens with
  | .panic => .panic
  | .err msg => return .refused msg
  | .ok ranges => do
    let stages ← stagesOf tokens parsed true ranges
    return .pipeline stages

def commandOf (env : Env) (line : Bytes) : Outcome Empty Command := do
  if trim (fromUtf8OrEmpty line) = [] ∨ expanded env line = [] then return .nothing
  match tokenizeCommand (expanded env line) with
  | .panic => .panic
  | .err msg => return .refused (str "parse error: " ++ str msg ++ str "\n")
  | .ok ([], _) => return .nothing
  | .ok (cmdToken :: argTokens, parsed) =>
    if (cmdToken :: argTokens).any (·.kind ≠ .word) then
      pipelineOf (cmdToken :: argTokens) (parsedStorage parsed)
    else do
      let cmd ← tokenWord cmdToken (parsedStorage parsed)
      match ← joinWordTokens (parsedStorage parsed) argTokens [] with
      | none => return .refused (str "parse error: args too long\n")
      | some args => return .simple cmd (fromUtf8OrEmpty args)

/-! ### Programs -/

section Meaning

variable (boot : Boot)

/-- An exec out of the shell. An empty input counts as none. -/
def Boot.exec (path args envText : Bytes) (stdin : Option Bytes) (cap : Option Nat) (w : World) :
    Option (Nat × Bytes × World) :=
  if Libos.maxPath < path.length ∨ Libos.maxArgs < args.length ∨ Libos.maxEnv < envText.length then
    some (u64Max, [], w)
  else
    boot.launch 0 (cstrToStr path) (cstrToStr args) (cstrToStr envText) (redirected stdin) cap w

/-- A program by its name, with the variables of the shell. -/
def Boot.program (env : Env) (cmd args : Bytes) (stdin : Option Bytes) (capture : Bool) (w : World) :
    Option (Nat × Bytes × World) :=
  match (resolveBinPath cmd : Outcome Empty _) with
  | .ok (some path) =>
    boot.exec path args (fromUtf8OrEmpty env.text) stdin (if capture then some maxIoBuf else none) w
  | .ok none => some (u64Max, [], w)
  | .panic => none

def unknown (cmd : Bytes) : Bytes := str "unknown command: " ++ cmd ++ str "\n"

/-! ### Pipelines -/

def cannot (verb path : Bytes) : Bytes :=
  str "redirection error: cannot " ++ verb ++ str " " ++ path ++ str "\n"

def tooLong : Bytes := str "redirection error: path too long\n"

/-- The input of a stage, or a message. -/
def Boot.input (env : Env) (file : Option Bytes) (pipe : Bytes) (w : World) :
    Option (Except Bytes Bytes) :=
  match file with
  | none => some (.ok pipe)
  | some file =>
    match (resolvePath env file : Outcome Empty _) with
    | .panic => none
    | .ok none => some (.error tooLong)
    | .ok (some path) =>
      match fileAt boot.images w.ram path with
      | none => some (.error (cannot (str "read") path))
      | some data => some (.ok data)

/-- The output goes to a file; false with a message. -/
def storeIn (env : Env) (file out : Bytes) (w : World) : Option (Bool × World) :=
  match (resolvePath env file : Outcome Empty _) with
  | .panic => none
  | .ok none => some (false, w.show tooLong)
  | .ok (some path) =>
    let (stored, ram) := store w.ram path out
    if stored then some (true, { w with ram })
    else some (false, World.show { w with ram } (cannot (str "write") path))

/-- What a stage hands on, if it comes to that. -/
def Boot.stage (env : Env) (first last : Bool) (stage : StageParse) (pipe : Bytes) (w : World) :
    Option (Option Bytes × World) := do
  match ← boot.input env (if first then stage.inFile else none) pipe w with
  | .error msg => return (none, w.show msg)
  | .ok pipe =>
    let stdin := if first && stage.inFile.isNone then none else some pipe
    let (status, out, w) ←
      boot.program env stage.cmd (fromUtf8OrEmpty stage.args) stdin (!last || stage.outFile.isSome) w
    if status = u64Max then return (none, w.show (unknown stage.cmd))
    else if !last then return (some out, w)
    else
      match stage.outFile with
      | none => return (some out, w)
      | some file =>
        let (stored, w) ← storeIn env file out w
        return (if stored then some out else none, w)

def Boot.stages (env : Env) :
    (first : Bool) → List (Except Bytes StageParse) → Bytes → World → Option World
  | _, [], _, w => some w
  | _, .error msg :: _, _, w => some (w.show msg)
  | first, .ok stage :: later, pipe, w => do
    match ← boot.stage env first later.isEmpty stage pipe w with
    | (none, w) => return w
    | (some out, w) => Boot.stages env false later out w

/-! ### Commands -/

/-- A variable is set, or a message says why not. -/
def assign (env : Env) (key val : Bytes) (w : World) : Env × World :=
  match storeEnv env key val with
  | .ok env' => (env', w)
  | .error msg => (env, w.show msg)

def helpText : Bytes :=
  str "commands: help, clear, exit, env, export, cd, <binary in /bin>\n" ++
    str "shell I/O: cmd1 | cmd2, cmd > file, cmd < file\n" ++
    str "quotes: use '...' or \"...\" for grouped args/paths\n"

/-- A command without operators; false when the shell is left. -/
def Boot.simple (env : Env) (cmd args : Bytes) (w : World) : Option (Bool × Env × World) :=
  if cmd = str "help" then some (true, env, w.show helpText)
  else if cmd = str "clear" then some (true, env, w.show [27, 91, 50, 74, 27, 91, 72])
  else if cmd = str "exit" then some (false, env, w)
  else if cmd = str "cd" then
    match newCwd env args with
    | .panic => none
    | .ok buf =>
      match fromUtf8 buf with
      | none => some (true, env, w)
      | some path => some (true, assign env cwdKey path w)
  else if cmd = str "env" then some (true, env, w.show (fromUtf8OrEmpty env.text))
  else if cmd = str "export" then
    match splitOnce 61 args with
    | some (k, v) => some (true, assign env (trim k) (trim v) w)
    | none => some (true, env, w.show (str "usage: export KEY=VALUE\n"))
  else do
    let (status, _, w) ← boot.program env cmd args none false w
    return (true, env, if status = u64Max then w.show (unknown cmd) else w)

def Boot.command (env : Env) (c : Command) (w : World) : Option (Bool × Env × World) :=
  match c with
  | .nothing => some (true, env, w)
  | .refused msg => some (true, env, w.show msg)
  | .simple cmd args => boot.simple env cmd args w
  | .pipeline stages => (boot.stages env true stages [] w).map fun w => (true, env, w)

/-- What a line means: parsing, then execution. -/
def Boot.line (env : Env) (line : Bytes) (w : World) : Option (Bool × Env × World) :=
  match commandOf env line with
  | .ok c => boot.command env c w
  | .panic => none

end Meaning

end Smultron.Machine
