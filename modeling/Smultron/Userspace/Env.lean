import Smultron.Lib.Buffer
import Smultron.Lib.Checked
import Smultron.Lib.SlotTable
import Smultron.Lib.Utf8
import Smultron.Userspace.Libos

/-!
# The environment of the shell (userspace/apps/init/src/lib.rs)

Sixteen variables in arrays of fixed size, the string a child gets of them, and the expansion of
`$NAME` in a line. Sums of lengths are sums of `usize`; counters that go up by one stay below the
length of a buffer.
-/

namespace Smultron.Shell

open Checked SlotTable Utf8

def maxEnvVars : Nat := 16
def maxEnvLen : Nat := 511
def maxKey : Nat := 32
def maxVal : Nat := 64

/-- A variable. The arrays keep their old bytes behind the two lengths. -/
structure EnvVar where
  key : Buffer maxKey
  keyLen : Nat
  val : Buffer maxVal
  valLen : Nat
  key_fits : keyLen ≤ maxKey
  val_fits : valLen ≤ maxVal

namespace EnvVar

def empty : EnvVar where
  key := Buffer.zero maxKey
  keyLen := 0
  val := Buffer.zero maxVal
  valLen := 0
  key_fits := Nat.zero_le _
  val_fits := Nat.zero_le _

def keyBytes (v : EnvVar) : Bytes := v.key.front v.keyLen
def valBytes (v : EnvVar) : Bytes := v.val.front v.valLen

/-- `ENV[i].key_len == key.len() && &ENV[i].key[..key.len()] == key_bytes` -/
def holds (key : Bytes) (v : EnvVar) : Bool := v.keyLen == key.length && v.keyBytes == key

def setVal (val : Bytes) (fits : val.length ≤ maxVal) (v : EnvVar) : EnvVar :=
  { v with
    valLen := val.length
    val := v.val.blit 0 val (by simpa using fits)
    val_fits := fits }

def create (key : Bytes) (keyFits : key.length ≤ maxKey) (val : Bytes)
    (valFits : val.length ≤ maxVal) (v : EnvVar) : EnvVar :=
  { v with
    keyLen := key.length
    key := v.key.blit 0 key (by simpa using keyFits)
    key_fits := keyFits }.setVal val valFits

end EnvVar

/-- `ENV` -/
structure Env where
  vars : List EnvVar
  length_eq : vars.length = maxEnvVars

namespace Env

def empty : Env := ⟨List.replicate maxEnvVars EnvVar.empty, List.length_replicate⟩

def updateFirst (env : Env) (p : EnvVar → Bool) (f : EnvVar → EnvVar) : Option Env :=
  match h : SlotTable.updateFirst p f env.vars with
  | some vars => some ⟨vars, (length_updateFirst h).trans env.length_eq⟩
  | none => none

end Env

/-- `set_env` up to the message it writes. The loop returns at the first variable that has the key;
the free entry it remembers on the way is used when there is none. -/
def storeEnv (env : Env) (key val : Bytes) : Except Bytes Env :=
  if h : maxKey < key.length ∨ maxVal < val.length then .error (str "error: env var too long\n")
  else
    match env.updateFirst (·.holds key) (·.setVal val (by omega)) with
    | some env' => .ok env'
    | none =>
      match env.updateFirst (·.keyLen == 0) (·.create key (by omega) val (by omega)) with
      | some env' => .ok env'
      | none => .error (str "error: too many env vars\n")

def writeStr (s : Bytes) : User Unit := do
  let _ ← Libos.write 1 s
  return ()

def setEnv (env : Env) (key val : Bytes) : User Env :=
  match storeEnv env key val with
  | .ok env' => return env'
  | .error msg => do
    writeStr msg
    return env

def getEnv (env : Env) (key : Bytes) : Option Bytes :=
  (env.vars.find? (·.holds key)).map EnvVar.valBytes

/-- The loop of `build_env_str`, with `buf[..offset]`; it stops at the first pair that does not
fit. -/
def buildEnvFrom : List EnvVar → Bytes → Outcome Empty Bytes
  | [], buf => return buf
  | v :: vars, buf =>
    -- an empty key marks a free entry
    if v.keyLen = 0 then buildEnvFrom vars buf
    else do
      let pairLen ← add (v.keyLen + 1) (v.valLen + 1)
      let stop ← add buf.length pairLen
      if maxEnvLen < stop then return buf
      let buf ← append (maxEnvLen + 1) buf v.keyBytes
      let buf ← push (maxEnvLen + 1) buf 61
      let buf ← append (maxEnvLen + 1) buf v.valBytes
      let buf ← push (maxEnvLen + 1) buf 10
      buildEnvFrom vars buf

def buildEnvStr (env : Env) : Outcome Empty Bytes := buildEnvFrom env.vars []

/-- `b.is_ascii_alphanumeric() || b == b'_'` -/
def isNameByte (b : UInt8) : Bool :=
  (48 ≤ b && b ≤ 57) || (65 ≤ b && b ≤ 90) || (97 ≤ b && b ≤ 122) || b == 95

/-- Copy bytes behind `out` while it is shorter than `cap`. -/
def copyWhileRoom (cap : Nat) (out bs : Bytes) : Bytes := out ++ bs.take (cap - out.length)

/-- The loop of `expand_line`, with `out[..out_idx]`; every round takes at least one byte. -/
def expandFrom (env : Env) (cap : Nat) : Nat → Bytes → Bytes → Bytes
  | 0, _, out => out
  | _ + 1, [], out => out
  | rounds + 1, b :: rest, out =>
    if cap ≤ out.length then out
    else if b = 36 then
      let name := rest.takeWhile isNameByte
      let rest' := rest.drop name.length
      -- a `$` without a name stands for itself; a variable that is not set expands to nothing
      if name = [] then expandFrom env cap rounds rest' (copyWhileRoom cap out [36])
      else
        match getEnv env (fromUtf8OrEmpty name) with
        | some v => expandFrom env cap rounds rest' (copyWhileRoom cap out v)
        | none => expandFrom env cap rounds rest' out
    else expandFrom env cap rounds rest (copyWhileRoom cap out [b])

/-- `out[..n]` for an `out` of `cap` bytes. -/
def expandLine (env : Env) (line : Bytes) (cap : Nat) : Bytes :=
  expandFrom env cap line.length line []

end Smultron.Shell
