import Smultron.Machine.Session
import Smultron.Properties.LineEffects

/-!
# Sessions of the shell

The loop of the shell reads a line key by key, with an echo for each, dispatches it, and starts over.
On the machine this is the session: nothing that a line starts takes a key from the lines behind it,
so every entry is read as it was typed.

## Main result

- `eval_runLoop`: the loop does what the entries mean that were typed.
-/

namespace Smultron

open Checked Checked.Outcome LineEditing Machine Proc Process Utf8 Vfs

variable {boot : Boot} {w w' : World}

/-! ### The console -/

/-- All that is shown goes to the two outputs. -/
theorem World.show_eq (w : World) (s : Bytes) :
    ∃ serial, w.show s = { w with console := { w.console with
      serial := serial
      vga := w.console.vga ++ s } } := by
  induction s generalizing w with
  | nil => exact ⟨w.console.serial, by simp [World.show]⟩
  | cons b s ih =>
    obtain ⟨serial, h⟩ := ih { w with console := w.console.put b }
    refine ⟨serial, ?_⟩
    simp only [World.show, List.foldl_cons] at h ⊢
    rw [h]
    simp [Console.put]

/-- The console has the same keys ahead. -/
structure Unread (w w' : World) : Prop where
  input : w'.console.input = w.console.input
  taken : w'.console.taken = w.console.taken

theorem Unread.rfl : Unread w w := ⟨Eq.refl _, Eq.refl _⟩

theorem Unread.trans {w₁ : World} (h : Unread w w₁) (h' : Unread w₁ w') : Unread w w' :=
  ⟨h'.input.trans h.input, h'.taken.trans h.taken⟩

theorem unread_show (w : World) (s : Bytes) : Unread w (w.show s) := by
  obtain ⟨serial, h⟩ := World.show_eq w s
  exact ⟨by rw [h], by rw [h]⟩

theorem unread_files (ram : RamFiles) : Unread w { w with ram } := ⟨rfl, rfl⟩

/-! ### Lines leave the keys alone -/

/-- Whatever runs and whatever is stored. -/
theorem unread_kept (boot : Boot) : Kept boot (fun _ _ => True) (fun _ => True) Unread where
  refl _ := .rfl
  trans := .trans
  shown := unread_show
  logged _ _ := ⟨rfl, rfl⟩
  program _ _ := unread_files _
  stored _ _ := unread_files _

theorem unread_line {env env' : Shell.Env} {line : Bytes} {more : Bool}
    (h : boot.line env line w = some (more, env', w')) : Unread w w' :=
  (unread_kept boot).line (fun command _ => commandWithin_any env command) h

/-! ### Keys -/

theorem Unread.upcoming (h : Unread w w') (n : Nat) : w'.upcoming n = w.upcoming n := by
  rw [World.upcoming, World.upcoming, h.input, h.taken]

theorem upcoming_add (w : World) (m n : Nat) :
    w.upcoming (m + n) = w.upcoming m ++ (w.takes m).upcoming n := by
  simp [World.upcoming, World.takes, List.range_add, Nat.add_assoc]

theorem takes_takes (w : World) (m n : Nat) : (w.takes m).takes n = w.takes (m + n) := by
  simp [World.takes, Nat.add_assoc]

theorem takes_show (w : World) (n : Nat) (s : Bytes) : (w.show s).takes n = (w.takes n).show s := by
  simp only [World.show, World.takes]
  induction s generalizing w with
  | nil => rfl
  | cons b s ih => simpa [Console.put] using ih { w with console := w.console.put b }

theorem eval_read : (Libos.read 0 [0]).eval (boot.answer 0) w =
    some ((1, [w.console.input w.console.taken]), w.takes 1) := by
  have console : w.kernel.io.takeStdinByte = (.unavailable, w.kernel.io) :=
    IoState.takeStdinByte_console rfl
  have answered : boot.answer 0 (.read 0 (some 1)) w =
      some (⟨1, [w.console.input w.console.taken], none⟩, w.takes 1) := by
    simp only [Boot.answer, dispatch, sysRead, readLoop, console]
    split_ifs <;> simp_all [ofKernel, World.kernel, World.takes]
  exact eval_request_bind answered _

theorem upcoming_cons {b : UInt8} {keys : Bytes} {n : Nat} (h : w.upcoming (n + 1) = b :: keys) :
    w.console.input w.console.taken = b ∧ (w.takes 1).upcoming n = keys := by
  rw [Nat.add_comm, upcoming_add] at h
  simpa [World.upcoming] using h

/-- One key: the line is changed and the key is echoed before the next read. -/
theorem eval_readLine_key {key : UInt8} (plain : ¬(key = 13 ∨ key = 10)) (reads : Nat)
    (line : Bytes) (typed : w.console.input w.console.taken = key) :
    (Shell.readLine (reads + 1) line).eval (boot.answer 0) w =
      (Shell.readLine reads (press line key)).eval (boot.answer 0)
        ((w.takes 1).show (echo line key)) := by
  have byte : index [key] 0 = (.ok key : Outcome Empty _) := index_of_lt Nat.zero_lt_one
  rw [Shell.readLine, eval_bind_of eval_read, typed]
  dsimp only
  rw [if_neg (by simp), eval_lift_bind byte, if_neg plain]
  by_cases erase : key = 8 ∨ key = 127
  · have isErase : isErase key = true := by simpa [isErase] using erase
    rw [if_pos erase, press, LineEditing.echo, if_pos isErase, if_pos isErase]
    by_cases empty : line = []
    · -- There is nothing to erase
      simp [empty, World.show]
    · have some_ : 0 < line.length := List.length_pos_iff.mpr empty
      have bytes : str "\x08 \x08" = [8, 32, 8] := by decide +kernel
      rw [if_pos some_, eval_lift_bind (sub_of_le some_), eval_bind_of (eval_writeStr _), if_neg empty,
        bytes, List.dropLast_eq_take]
  · have isOther : ¬isErase key = true := by simpa [isErase] using erase
    rw [if_neg erase, press, LineEditing.echo, if_neg isOther, if_neg isOther]
    by_cases room : line.length < Shell.maxLine
    · rw [if_pos room, eval_lift_bind (push_of_lt room), eval_bind_of (eval_write _), if_pos room,
        if_pos room]
    · simp [room, World.show]

/-- A line that is typed is read and echoed. -/
theorem eval_readLine {keys : Bytes} {stop : UInt8} (plain : ∀ b ∈ keys, ¬(b = 13 ∨ b = 10))
    (ends : stop = 13 ∨ stop = 10) {reads : Nat} (enough : keys.length < reads) (line : Bytes)
    (typed : w.upcoming (keys.length + 1) = keys ++ [stop]) :
    (Shell.readLine reads line).eval (boot.answer 0) w =
      some (.entered (keys.foldl press line),
        (w.takes (keys.length + 1)).show (echoes line keys ++ str "\n")) := by
  induction keys generalizing reads line w with
  | nil =>
    obtain ⟨reads, rfl⟩ := Nat.exists_eq_succ_of_ne_zero (Nat.ne_of_gt enough)
    obtain ⟨first, -⟩ := upcoming_cons typed
    have byte : index [stop] 0 = (.ok stop : Outcome Empty _) := index_of_lt Nat.zero_lt_one
    rw [Shell.readLine, eval_bind_of eval_read, first]
    dsimp only
    rw [if_neg (by simp), eval_lift_bind byte, if_pos ends]
    simp [eval_bind, echoes]
  | cons key keys ih =>
    obtain ⟨reads, rfl⟩ := Nat.exists_eq_succ_of_ne_zero (Nat.ne_of_gt (Nat.zero_lt_of_lt enough))
    obtain ⟨first, later⟩ := upcoming_cons typed
    rw [eval_readLine_key (plain key List.mem_cons_self) reads line first,
      ih (fun b hb => plain b (List.mem_cons_of_mem _ hb)) (Nat.lt_of_succ_lt_succ enough) _
        (((unread_show _ _).upcoming _).trans later),
      takes_show, takes_takes, ← World.show_append]
    simp [echoes, Nat.add_comm]

/-! ### The loop -/

section Loop

variable {reads : Nat} {env env' : Shell.Env} {entries : List TypedLine} {more : Bool}

theorem eval_promptLine (e : TypedLine) (enough : e.keys.length < reads)
    (typed : w.upcoming e.bytes.length = e.bytes) :
    (Shell.promptLine reads).eval (boot.answer 0) w =
      some (.entered e.line, (w.takes e.bytes.length).show e.shown) := by
  have size : e.bytes.length = e.keys.length + 1 := by simp [TypedLine.bytes]
  rw [size] at typed ⊢
  rw [Shell.promptLine, eval_bind_of (eval_writeStr _),
    eval_readLine e.plain e.ends enough [] (((unread_show _ _).upcoming _).trans typed),
    takes_show, ← World.show_append, TypedLine.shown, List.append_assoc]
  rfl

/-- The loop, from any of its rounds on: it has ended with the entries, or goes on behind them. -/
theorem eval_runLoop (enough : ∀ e ∈ entries, e.keys.length < reads)
    (typed : w.upcoming (entries.flatMap TypedLine.bytes).length = entries.flatMap TypedLine.bytes)
    (meant : boot.session entries env w = some (more, env', w')) (lines : Nat) :
    (Shell.runLoop reads (entries.length + lines) env).eval (boot.answer 0) w =
      if more then (Shell.runLoop reads lines env').eval (boot.answer 0) w'
      else some (.ended (), w') := by
  induction entries generalizing env w with
  | nil =>
    obtain ⟨rfl, rfl, rfl⟩ := by simpa [Boot.session] using meant
    simp
  | cons e entries ih =>
    obtain ⟨short, enough⟩ := List.forall_mem_cons.mp enough
    rw [List.flatMap_cons, List.length_append, upcoming_add] at typed
    obtain ⟨first, later⟩ := List.append_inj typed (by simp [World.upcoming])
    rw [Boot.session] at meant
    obtain ⟨⟨more₁, env₁, w₁⟩, ran, meant⟩ := Option.bind_eq_some_iff.mp meant
    have count : (e :: entries).length + lines = entries.length + lines + 1 := by
      simp only [List.length_cons]
      omega
    have dispatched : (Shell.dispatch env e.line).eval (boot.answer 0)
        ((w.takes e.bytes.length).show e.shown) = _ := eval_line env e.line
    rw [ran] at dispatched
    rw [count, Shell.runLoop, eval_bind_of (eval_promptLine e short first)]
    dsimp only
    rw [eval_bind_of dispatched]
    dsimp only at meant ⊢
    cases more₁ with
    | false =>
      obtain ⟨rfl, rfl, rfl⟩ := by simpa using meant
      simp
    | true =>
      refine ih enough ?_ meant
      -- The line has left the entries behind it where they are
      rw [(unread_line ran).upcoming, (unread_show _ _).upcoming]
      exact later

/-- A session takes the keys of the entries that it comes to. -/
theorem session_takes (meant : boot.session entries env w = some (more, env', w')) :
    ∃ done rest, entries = done ++ rest ∧ (more = true → rest = []) ∧
      w'.console.input = w.console.input ∧
      w'.console.taken = w.console.taken + (done.flatMap TypedLine.bytes).length := by
  induction entries generalizing env w with
  | nil =>
    obtain ⟨-, -, rfl⟩ := by simpa [Boot.session] using meant
    exact ⟨[], [], by simp⟩
  | cons e entries ih =>
    rw [Boot.session] at meant
    obtain ⟨⟨more₁, env₁, w₁⟩, ran, meant⟩ := Option.bind_eq_some_iff.mp meant
    dsimp only at meant
    obtain ⟨input, taken⟩ := (unread_show _ _).trans (unread_line ran)
    simp only [World.takes] at input taken
    cases more₁ with
    | false =>
      obtain ⟨rfl, -, rfl⟩ := by simpa using meant
      exact ⟨[e], entries, rfl, by simp, input, by simpa using taken⟩
    | true =>
      obtain ⟨done, rest, rfl, whole, input', taken'⟩ := ih meant
      refine ⟨e :: done, rest, rfl, whole, input'.trans input, ?_⟩
      rw [taken', taken, List.flatMap_cons, List.length_append, Nat.add_assoc]

end Loop

/-- On any machine, and whatever is typed behind the entries: the loop takes the keys of its entries
and no others, and goes on with the variables and in the world of the session, or ends with it. -/
theorem loop_runs_session (boot : Boot) (reads lines : Nat) (entries : List TypedLine)
    (env env' : Shell.Env) (w w' : World) (more : Bool)
    (enough : ∀ e ∈ entries, e.keys.length < reads)
    (typed : w.upcoming (entries.flatMap TypedLine.bytes).length = entries.flatMap TypedLine.bytes)
    (meant : boot.session entries env w = some (more, env', w')) :
    (Shell.runLoop reads (entries.length + lines) env).eval (boot.answer 0) w =
        (if more then (Shell.runLoop reads lines env').eval (boot.answer 0) w'
        else some (.ended (), w')) ∧
      ∃ done rest, entries = done ++ rest ∧ (more = true → rest = []) ∧
        w'.console.input = w.console.input ∧
        w'.console.taken = w.console.taken + (done.flatMap TypedLine.bytes).length :=
  ⟨eval_runLoop enough typed meant lines, session_takes meant⟩

/-- A file is made, read and edited, and the shell is left. -/
def sampleEntries : List TypedLine :=
  [⟨str "echo hi > /a", 10, by decide +kernel, .inr rfl⟩,
   ⟨str "cat /a | sed s/h/H/", 13, by decide +kernel, .inl rfl⟩,
   ⟨str "exit", 10, by decide +kernel, .inr rfl⟩]

def sampleKernel : Kernel :=
  Kernel.boot fun i => (sampleEntries.flatMap TypedLine.bytes).getD i 0

theorem loop_runs_session_sample :
    ∃ w', (Shell.runLoop 32 4 Shell.Env.empty).eval ((bootMachine bareImages).answer 0)
        (ofKernel sampleKernel) = some (.ended (), w') ∧
      w'.console.taken ≤ (sampleEntries.flatMap TypedLine.bytes).length := by
  have left : ((bootMachine bareImages).session sampleEntries Shell.Env.empty
      (ofKernel sampleKernel)).map Prod.fst = some false := by decide +kernel
  obtain ⟨⟨more, env', w'⟩, meant, same⟩ := Option.map_eq_some_iff.mp left
  obtain rfl : more = false := same
  obtain ⟨ended, done, rest, whole, -, -, taken⟩ := loop_runs_session (bootMachine bareImages) 32 1
    sampleEntries Shell.Env.empty env' (ofKernel sampleKernel) w' false (by decide +kernel)
    (by decide +kernel) meant
  refine ⟨w', ended, ?_⟩
  have start : (ofKernel sampleKernel).console.taken = 0 := rfl
  rw [taken, start, whole, List.flatMap_append, List.length_append]
  omega

end Smultron
