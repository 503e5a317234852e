import Smultron.Properties.FileAppRuns
import Smultron.Properties.Redirection

/-!
# Paths that are no text

A handler that cannot decode its path goes on with the empty one and leaves it to the layer below
to turn that away. No file is stored under the empty path, none is taken under it, and no image has
it, so four of the five handlers fail. The fifth lists a directory, and to the lister the empty path
is the root.
-/

namespace Smultron

open Memory Process Utf8 Vfs

/-- The path of a call that takes one: the size of the kernel's buffer, and the bytes at the
pointer. -/
def Syscall.pathArg : Syscall → Option (Nat × Bytes)
  | .execve path _ _ => path.map (64, ·)
  | .readDir path _ => path.map (128, ·)
  | .readFile path _ => path.map (128, ·)
  | .execIo (some req) => req.path.map (64, ·)
  | .writeFile path _ => path.map (128, ·)
  | _ => none

/-- The call asks for a listing and has a buffer for it. -/
def Syscall.lists : Syscall → Bool
  | .readDir _ buf => buf.getD 0 ≠ 0
  | _ => false

/-- The call reports failure, hands out nothing, starts no program and stores no file. -/
structure TurnedAway (k : Kernel) (r : Reply) (k' : Kernel) : Prop where
  reports : r.ret = u64Max ∨ r.status = some u64Max
  nothing : r.data = []
  files : k'.ram = k.ram
  processes : k'.pm = k.pm
  memory : k'.mem = k.mem
  runs : k'.history = k.history

theorem turnedAway_failed (k : Kernel) : TurnedAway k .failed k :=
  ⟨.inl rfl, rfl, rfl, rfl, rfl, rfl⟩

/-- What a handler goes on with: the empty path. -/
theorem cstr_undecodable {size : Nat} {text rest : Bytes} (fits : text.length < size)
    (nulFree : 0 ∉ text) (undecodable : ¬Valid text) :
    cstr size (some (text ++ 0 :: rest)) = some [] := by
  have front : ((text ++ 0 :: rest).take size).takeWhile (· != 0) = text := by
    obtain ⟨left, rfl⟩ : ∃ left, size = text.length + (left + 1) :=
      ⟨size - text.length - 1, by omega⟩
    rw [List.take_length_add_append, List.take_succ_cons, takeWhile_nul nulFree]
  have found : text.length < min size (text ++ 0 :: rest).length := by
    rw [List.length_append, List.length_cons]
    omega
  have none_ : fromUtf8 text = none := if_neg undecodable
  simp only [cstr, copyCstr, front]
  rw [if_pos found, Option.map_some, fromUtf8OrEmpty, none_, Option.getD_none]

/-- No file of the boot image has the empty path. -/
theorem readFile_nil (images : Images) : readFile images [] = none := rfl

theorem startProcess_nil (images : Images) (pm : ProcessManager) (args env : Bytes) :
    ∃ msg, startProcess images pm [] args env = .error msg := by
  rw [startProcess, readFile_nil]
  exact ⟨_, rfl⟩

section Dispatch

variable {sys : System} {run : Runner} {k : Kernel} {text rest : Bytes}

/-- An exec of the empty path writes its message and closes the context of the caller. -/
theorem execWithIo_nil (sys : System) (run : Runner) (k : Kernel) (args env : Bytes) (stdin : Option Bytes) (cap : Option Nat) :
    ∃ k', execWithIo sys run k [] args env stdin cap = some (u64Max, [], k') ∧
      k'.ram = k.ram ∧ k'.pm = k.pm ∧ k'.mem = k.mem ∧ k'.history = k.history := by
  obtain ⟨msg, refused⟩ := startProcess_nil sys.images k.pm args env
  have nothing : ((k.io.setUp stdin cap.isSome).tearDown cap).1 = [] := by
    cases cap with
    | none => rfl
    | some c =>
      have captured : (k.io.setUp stdin true).stdio.stdout = some [] := by
        rw [IoState.stdio_setUp]
        rfl
      simpa using tearDown_captured captured c
  simp only [execWithIo, execInternal, refused, nothing]
  exact ⟨_, rfl, rfl, rfl, rfl, rfl⟩

theorem turnedAway_of_failed {c : Syscall} (h : dispatch sys run c k = some (.failed, k)) :
    ∃ r k', dispatch sys run c k = some (r, k') ∧ TurnedAway k r k' :=
  ⟨_, _, h, turnedAway_failed k⟩

section Path

variable (nulFree : 0 ∉ text) (undecodable : ¬Valid text)

include nulFree undecodable

theorem execArgs_undecodable (fits : text.length < 64) {args env : Option Bytes} {p a e : Bytes}
    (strings : execArgs (some (text ++ 0 :: rest)) args env = some (p, a, e)) : p = [] := by
  simp only [execArgs, cstr_undecodable fits nulFree undecodable, Option.bind_eq_bind,
    Option.bind_some, Option.bind_eq_some_iff, Option.pure_def, Option.some.injEq,
    Prod.mk.injEq] at strings
  obtain ⟨_, -, _, -, rfl, -⟩ := strings
  rfl

theorem execve_undecodable (fits : text.length < 64) (args env : Option Bytes) :
    ∃ r k', dispatch sys run (.execve (some (text ++ 0 :: rest)) args env) k = some (r, k') ∧
      TurnedAway k r k' := by
  cases strings : execArgs (some (text ++ 0 :: rest)) args env with
  | none => exact turnedAway_of_failed (by simp only [dispatch, strings])
  | some found =>
    obtain ⟨p, a, e⟩ := found
    obtain rfl := execArgs_undecodable nulFree undecodable fits strings
    obtain ⟨k', ran, ram, pm, mem, history⟩ := execWithIo_nil sys run k a e none none
    simp only [dispatch, strings, exec, ran]
    exact ⟨_, _, rfl, .inl rfl, rfl, ram, pm, mem, history⟩

theorem execIo_undecodable (fits : text.length < 64) {req : ExecIoRequest}
    (path : req.path = some (text ++ 0 :: rest)) :
    ∃ r k', dispatch sys run (.execIo (some req)) k = some (r, k') ∧ TurnedAway k r k' := by
  by_cases enters : (Syscall.execIo (some req)).entersExec = true
  · rw [entersExec_execIo, Bool.and_eq_true, Bool.not_eq_true'] at enters
    obtain ⟨pointers, strings⟩ := enters
    obtain ⟨⟨p, a, e⟩, strings⟩ := Option.isSome_iff_exists.mp strings
    obtain rfl := execArgs_undecodable nulFree undecodable fits (path ▸ strings)
    obtain ⟨k', ran, ram, pm, mem, history⟩ := execWithIo_nil sys run k a e req.stdio.1 req.stdio.2
    simp only [dispatch, sysExecIo_eq run req strings pointers, ran]
    exact ⟨_, _, rfl, .inr rfl, rfl, ram, pm, mem, history⟩
  · exact turnedAway_of_failed (dispatch_refused rfl (by simpa using enters))

theorem readFile_undecodable (fits : text.length < 128) (buf : Option Nat)
    (absent : ∀ len, readFileBytes sys.images k.ram [] len = none) :
    ∃ r k', dispatch sys run (.readFile (some (text ++ 0 :: rest)) buf) k = some (r, k') ∧
      TurnedAway k r k' := by
  apply turnedAway_of_failed
  by_cases nothing : buf.getD 0 = 0
  · simp [dispatch, nothing]
  · simp [dispatch, nothing, cstr_undecodable fits nulFree undecodable, absent]

theorem writeFile_undecodable (fits : text.length < 128) (data : Option Bytes) :
    ∃ r k', dispatch sys run (.writeFile (some (text ++ 0 :: rest)) data) k = some (r, k') ∧
      TurnedAway k r k' := by
  apply turnedAway_of_failed
  cases data with
  | none => rfl
  | some data => simp [dispatch, cstr_undecodable fits nulFree undecodable, Vfs.writeFile]

end Path

/-- No file is stored under the empty path. -/
theorem readFileBytes_nil {ws : List (Bytes × Bytes)} (files : k.ram = (writeFiles RamFiles.empty ws).2)
    (len : Nat) : readFileBytes sys.images k.ram [] len = none := by
  have unstored : [] ∉ SlotTable.keys k.ram.slots := by
    rw [files]
    exact fun stored => ((paths_writeFiles ws).2 [] stored).1 rfl
  rw [readFileBytes_overlay _ _ _ _ (readFile_nil _), SlotTable.lookup_eq_none.mpr unstored]
  rfl

/-- Every handler but the lister turns the call away. -/
theorem dispatch_undecodable {c : Syscall} {size : Nat} {ws : List (Bytes × Bytes)}
    (files : k.ram = (writeFiles RamFiles.empty ws).2)
    (path : c.pathArg = some (size, text ++ 0 :: rest)) (fits : text.length < size)
    (nulFree : 0 ∉ text) (undecodable : ¬Valid text) (lists : c.lists = false) :
    ∃ r k', dispatch sys run c k = some (r, k') ∧ TurnedAway k r k' := by
  cases c with
  | read | write | exit | other => cases path
  | execve pathBuf args env =>
    obtain ⟨_, rfl, same⟩ := Option.map_eq_some_iff.mp path
    obtain ⟨rfl, rfl⟩ := Prod.mk.inj same
    exact execve_undecodable nulFree undecodable fits args env
  | execIo req =>
    cases req with
    | none => cases path
    | some req =>
      obtain ⟨_, given, same⟩ := Option.map_eq_some_iff.mp path
      obtain ⟨rfl, rfl⟩ := Prod.mk.inj same
      exact execIo_undecodable nulFree undecodable fits given
  | readDir pathBuf buf =>
    have nothing : buf.getD 0 = 0 := by simpa [Syscall.lists] using lists
    exact turnedAway_of_failed (by simp [dispatch, nothing])
  | readFile pathBuf buf =>
    obtain ⟨_, rfl, same⟩ := Option.map_eq_some_iff.mp path
    obtain ⟨rfl, rfl⟩ := Prod.mk.inj same
    exact readFile_undecodable nulFree undecodable fits buf (readFileBytes_nil files)
  | writeFile pathBuf data =>
    obtain ⟨_, rfl, same⟩ := Option.map_eq_some_iff.mp path
    obtain ⟨rfl, rfl⟩ := Prod.mk.inj same
    exact writeFile_undecodable nulFree undecodable fits data

/-- The lister never turns it away: it hands out names, or returns that there are none. -/
theorem lists_not_turnedAway {c : Syscall} {size : Nat}
    (path : c.pathArg = some (size, text ++ 0 :: rest)) (fits : text.length < size)
    (nulFree : 0 ∉ text) (undecodable : ¬Valid text) (lists : c.lists = true) {r : Reply}
    {k' : Kernel} (answered : dispatch sys run c k = some (r, k')) : ¬TurnedAway k r k' := by
  intro away
  cases c with
  | readDir pathBuf buf =>
    obtain ⟨_, rfl, same⟩ := Option.map_eq_some_iff.mp path
    obtain ⟨rfl, rfl⟩ := Prod.mk.inj same
    have some_ : buf.getD 0 ≠ 0 := by simpa [Syscall.lists] using lists
    simp only [dispatch, Option.isNone_some, Bool.false_eq_true, some_, or_self, if_false,
      cstr_undecodable fits nulFree undecodable] at answered
    split at answered
    next listed _ =>
      cases answered
      have nothing : listed = [] := away.nothing
      subst nothing
      rcases away.reports with ret | status
      · exact absurd ret (by decide)
      · cases status
    next => cases answered
  | _ => cases lists

/-- The context of the caller is kept unless an exec closes it. -/
theorem stdio_kept_iff {c : Syscall} {r : Reply} {k' : Kernel} {p : Nat × Bytes}
    (path : c.pathArg = some p) (answered : dispatch sys run c k = some (r, k')) :
    k'.io.stdio = k.io.stdio ↔ (c.entersExec = true → k.io.stdio = ⟨none, none⟩) := by
  by_cases enters : c.entersExec = true
  · rw [stdio_entered answered enters]
    simp [enters, eq_comm]
  · have quiet : c.entersExec = false := by simpa using enters
    refine iff_of_true ?_ fun impossible => absurd impossible enters
    rcases dispatch_cases answered quiet with ⟨fd, buf, rfl, -⟩ | ⟨fd, buf, rfl, -⟩ | ⟨-, -, ram, rfl⟩
    · cases path
    · cases path
    · rfl

end Dispatch

/-- A call whose path ends inside its buffer and is no text is turned away exactly when it is not a
listing with a buffer. It leaves the caller its context as well when it is no exec that gets past
its strings, or when there is no context to lose. -/
theorem undecodable_turned_away_iff (sys : System) (run : Runner) (k : Kernel)
    (ws : List (Bytes × Bytes)) (c : Syscall) (size : Nat) (text rest : Bytes)
    (files : k.ram = (writeFiles RamFiles.empty ws).2)
    (path : c.pathArg = some (size, text ++ 0 :: rest)) (fits : text.length < size)
    (nulFree : 0 ∉ text) (undecodable : ¬Valid text) :
    ((∃ r k', dispatch sys run c k = some (r, k') ∧ TurnedAway k r k') ↔ c.lists = false) ∧
      ((∃ r k', dispatch sys run c k = some (r, k') ∧ TurnedAway k r k' ∧
          k'.io.stdio = k.io.stdio) ↔
        c.lists = false ∧ (c.entersExec = true → k.io.stdio = ⟨none, none⟩)) := by
  have away_iff : (∃ r k', dispatch sys run c k = some (r, k') ∧ TurnedAway k r k') ↔
      c.lists = false := by
    constructor
    · rintro ⟨r, k', answered, away⟩
      by_contra lists
      exact lists_not_turnedAway path fits nulFree undecodable (by simpa using lists) answered away
    · exact dispatch_undecodable files path fits nulFree undecodable
  refine ⟨away_iff, ?_⟩
  constructor
  · rintro ⟨r, k', answered, away, kept⟩
    exact ⟨away_iff.mp ⟨r, k', answered, away⟩, (stdio_kept_iff path answered).mp kept⟩
  · rintro ⟨lists, kept⟩
    obtain ⟨r, k', answered, away⟩ := away_iff.mpr lists
    exact ⟨r, k', answered, away, (stdio_kept_iff path answered).mpr kept⟩

/-- Reading a file under such a path fails. -/
theorem undecodable_turned_away_readFile :
    ∃ r k', dispatch bareSystem (runImage bareSystem 0) (.readFile (some [0xFF, 0]) (some 8))
        (Kernel.boot fun _ => 0) = some (r, k') ∧ TurnedAway (Kernel.boot fun _ => 0) r k' :=
  (undecodable_turned_away_iff bareSystem (runImage bareSystem 0) (Kernel.boot fun _ => 0) []
    (.readFile (some [0xFF, 0]) (some 8)) 128 [0xFF] [] rfl rfl (by decide) (by decide)
    (by decide)).1.mpr rfl

/-- Listing the directory of such a path hands out the names in the root. -/
theorem undecodable_lists_root :
    (dispatch bareSystem (runImage bareSystem 0) (.readDir (some [0xFF, 0]) (some 64))
        (Kernel.boot fun _ => 0)).map Prod.fst =
      some ⟨14, str "hello.txt" ++ [0] ++ str "bin" ++ [0], none⟩ ∧
    ¬∃ r k', dispatch bareSystem (runImage bareSystem 0) (.readDir (some [0xFF, 0]) (some 64))
        (Kernel.boot fun _ => 0) = some (r, k') ∧ TurnedAway (Kernel.boot fun _ => 0) r k' := by
  have listed : (dispatch bareSystem (runImage bareSystem 0) (.readDir (some [0xFF, 0]) (some 64))
      (Kernel.boot fun _ => 0)).map Prod.fst =
        some ⟨14, str "hello.txt" ++ [0] ++ str "bin" ++ [0], none⟩ := by
    decide +kernel
  refine ⟨listed, ?_⟩
  rintro ⟨r, k', answered, away⟩
  rw [answered, Option.map_some] at listed
  obtain rfl := Option.some.inj listed
  exact absurd away.nothing (by decide)

end Smultron
