import Smultron.Properties.SlotSafety
import Smultron.Properties.Stdio
import Mathlib.Data.List.Induction

/-!
# Programs run with redirected stdio

The run of a program under `exec_with_io`, call by call. While it makes no nested exec its context
is a function of the calls made so far; a nested exec that gets past its arguments leaves no context
behind, and a write that finds the capture full goes to the console.
-/

namespace Smultron

open Memory Process Checked

/-! ### The run of a child -/

/-- The kernel as a program started by `exec_with_io` finds it. -/
def childKernel (k : Kernel) (stdin : Option Bytes) (cap : Option Nat) (started : Started) : Kernel :=
  { k with
    io := k.io.setUp stdin cap.isSome
    pm := started.pm
    mem := applyAll started.image started.ops k.mem }

variable {sys : System} {depth : Nat} {k : Kernel} {path args env : Bytes} {stdin : Option Bytes}
  {cap : Option Nat} {ran : Program.Ran Syscall Reply Kernel Nat}

/-- What the program at `path` does when `exec_with_io` starts it; `none` when it is not started. -/
def childRun (sys : System) (depth : Nat) (k : Kernel) (path args env : Bytes)
    (stdin : Option Bytes) (cap : Option Nat) : Option (Program.Ran Syscall Reply Kernel Nat) :=
  match startProcess sys.images k.pm path args env with
  | .error _ => none
  | .ok started =>
    match started.entry with
    | .ok entry =>
      (sys.image path entry.argBuf entry.envBuf).run (dispatch sys (runImage sys depth))
        (childKernel k stdin cap started)
    | _ => none

theorem childRun_eq_some :
    childRun sys depth k path args env stdin cap = some ran ↔
      ∃ started entry, startProcess sys.images k.pm path args env = .ok started ∧
        started.entry = .ok entry ∧
        (sys.image path entry.argBuf entry.envBuf).run (dispatch sys (runImage sys depth))
          (childKernel k stdin cap started) = some ran := by
  constructor
  · intro h
    rw [childRun] at h
    split at h
    · cases h
    next started begun =>
      split at h
      next entry entered => exact ⟨started, entry, begun, entered, h⟩
      · cases h
  · rintro ⟨started, entry, begun, entered, ended⟩
    simp only [childRun, begun, entered, ended]

/-- What `exec_with_io` returns when the child has run. -/
theorem execWithIo_child (h : childRun sys depth k path args env stdin cap = some ran) :
    ∃ k', execWithIo sys (runImage sys (depth + 1)) k path args env stdin cap =
        some (ran.result, (ran.state.io.tearDown cap).1, k') ∧
      k'.console = ran.state.console := by
  obtain ⟨started, entry, begun, entered, ended⟩ := childRun_eq_some.mp h
  simp only [childKernel] at ended
  simp only [execWithIo, execInternal, begun, entered, runImage, ended]
  exact ⟨_, rfl, rfl⟩

theorem tearDown_captured {io : IoState} {out : Bytes} (h : io.stdio.stdout = some out) (c : Nat) :
    (io.tearDown (some c)).1 = out.take c := by
  simp only [IoState.stdio] at h
  split at h
  · obtain rfl := Option.some.inj h
    rw [Buffer.front_front, Nat.min_comm]
    rfl
  · cases h

/-! ### The context as a function of the calls -/

/-- The context of a program that has made the calls `done`: the redirected input without what was
delivered, and what was written, both up to 4096 bytes. -/
def Tracks (stdin : Option Bytes) (capture : Bool) (done : List (Syscall × Reply)) (k : Kernel) :
    Prop :=
  k.io.stdio =
    ⟨(stdin.map (List.take maxIoStdin)).map (List.drop (delivered done).length),
     if capture then some ((written done).take maxIoStdout) else none⟩

theorem take_append_take {α : Type} (xs ys : List α) (n : Nat) :
    (xs.take n ++ ys).take n = (xs ++ ys).take n := by
  rcases Nat.le_total xs.length n with h | h
  · rw [List.take_of_length_le h]
  · have full : n ≤ (xs.take n).length := by simp [h]
    rw [List.take_append_of_le_length full, List.take_append_of_le_length h, List.take_take,
      Nat.min_self]

/-- The context as `exec_with_io` sets it up. -/
theorem tracks_setUp (k : Kernel) (stdin : Option Bytes) (capture : Bool) :
    Tracks stdin capture [] { k with io := k.io.setUp stdin capture } := by
  have context := IoState.stdio_setUp k.io stdin capture
  have all : (stdin.map (List.take maxIoStdin)).map (List.drop ([] : Bytes).length) =
      stdin.map (List.take maxIoStdin) := by
    cases stdin <;> rfl
  rw [Tracks]
  exact context.trans (by rw [show delivered [] = [] from rfl, all]; rfl)

theorem tracks_start (k : Kernel) (stdin : Option Bytes) (cap : Option Nat) (started : Started) :
    Tracks stdin cap.isSome [] (childKernel k stdin cap started) := tracks_setUp k stdin cap.isSome

theorem tracks_step {capture : Bool} {run : Runner} {done : List (Syscall × Reply)} {c : Syscall}
    {r : Reply} {k k' : Kernel} (quiet : c.entersExec = false)
    (answered : dispatch sys run c k = some (r, k')) (h : Tracks stdin capture done k) :
    Tracks stdin capture (done ++ [(c, r)]) k' := by
  rw [Tracks] at h ⊢
  rw [stdio_dispatch answered quiet, h, delivered_append, written_append, delivered_singleton,
    written_singleton, List.length_append]
  congr 1
  · simp only [Option.map_map]
    congr 1
    funext data
    simp only [Function.comp, List.drop_drop]
  · cases capture with
    | false => rfl
    | true => exact congrArg some (take_append_take ..)

/-- A run in which no exec gets through keeps the context to its end. -/
theorem Tracks.run {α : Type} {p : Program Syscall Reply α} {capture : Bool} {runner : Runner}
    {ran : Program.Ran Syscall Reply Kernel α} (h : Tracks stdin capture [] k)
    (ended : p.run (dispatch sys runner) k = some ran)
    (quiet : ∀ st ∈ ran.steps, st.call.entersExec = false) :
    Tracks stdin capture ran.calls ran.state :=
  Program.run_invariant (I := Tracks stdin capture) (P := fun c => c.entersExec = false)
    (fun _ _ _ _ _ quiet answered held => tracks_step quiet answered held) h ended quiet

/-- A program in whose run no nested exec gets through keeps its own context to the end. -/
theorem tracks_run (h : childRun sys depth k path args env stdin cap = some ran)
    (quiet : ∀ st ∈ ran.steps, st.call.entersExec = false) :
    Tracks stdin cap.isSome ran.calls ran.state := by
  obtain ⟨started, entry, -, -, ended⟩ := childRun_eq_some.mp h
  exact (tracks_start k stdin cap started).run ended quiet

/-- Before each step, when no nested exec has got through yet. -/
theorem tracks_before (h : childRun sys depth k path args env stdin cap = some ran)
    {pre post : List (Program.Step Syscall Reply Kernel)} {st : Program.Step Syscall Reply Kernel}
    (split : ran.steps = pre ++ st :: post) (quiet : ∀ st' ∈ pre, st'.call.entersExec = false) :
    Tracks stdin cap.isSome (Program.callsOf pre) st.before ∧
      dispatch sys (runImage sys depth) st.call st.before = some (st.reply, st.after) := by
  obtain ⟨started, entry, -, -, ended⟩ := childRun_eq_some.mp h
  exact Program.run_invariant_before (I := Tracks stdin cap.isSome)
    (P := fun c => c.entersExec = false)
    (fun _ _ _ _ _ quiet answered held => tracks_step quiet answered held)
    (tracks_start k stdin cap started) ended split quiet

/-! ### Small programs -/

/-- The program that makes the given calls and exits with 0. -/
def calling (calls : List Syscall) : Program Syscall Reply Nat :=
  calls.foldr (fun c rest => .call c fun _ => rest) (.ret 0)

/-- A system whose images all hold that program. -/
def uniform (calls : List Syscall) : System := ⟨bareImages, fun _ _ _ => calling calls⟩

/-- A console on which somebody keeps typing `c`. -/
def typing : Kernel := Kernel.boot fun _ => 99

/-- A run of `cat` on the redirected input `ab` with a capture buffer of 4096 bytes. -/
def catRun (calls : List Syscall) : Option (Program.Ran Syscall Reply Kernel Nat) :=
  childRun (uniform calls) 1 typing (str "/bin/cat") [] [] (some (str "ab")) (some 4096)

/-! ### Nested execs -/

/-- The program's own context as a nested exec should leave it: each exec restores the context, each
read delivers the next bytes of the redirected input, and the capture is what was written. -/
structure KeepsContext (stdin : Option Bytes) (cap : Option Nat)
    (ran : Program.Ran Syscall Reply Kernel Nat) (captured : Bytes) : Prop where
  restored : ∀ st ∈ ran.steps, st.call.isExec = true → st.after.io.stdio = st.before.io.stdio
  reads : ∀ data, stdin = some data → ∀ pre len reply post,
    ran.calls = pre ++ (.read 0 (some len), reply) :: post →
      reply.ret = reply.data.length ∧
        reply.data = ((data.take maxIoStdin).drop (delivered pre).length).take len
  capture : ∀ c, cap = some c → captured = (written ran.calls).take (min maxIoStdout c)

theorem callsOf_split {ran : Program.Ran Syscall Reply Kernel Nat} {pre post : List (Syscall × Reply)}
    {cr : Syscall × Reply} (split : ran.calls = pre ++ cr :: post) :
    ∃ spre st spost, ran.steps = spre ++ st :: spost ∧ Program.callsOf spre = pre ∧
      (st.call, st.reply) = cr := by
  obtain ⟨spre, srest, steps, before, after⟩ := List.map_eq_append_iff.mp split
  obtain ⟨st, spost, rfl, same, -⟩ := List.map_eq_cons_iff.mp after
  exact ⟨spre, st, spost, steps, before, same⟩

theorem sysRead_ret (k : Kernel) (len : Nat) :
    (sysRead k 0 (some len)).1.ret = (sysRead k 0 (some len)).1.data.length := by
  simp only [sysRead, ne_eq, not_true_eq_false, if_false]
  split <;> rfl

/-- Every read of the redirected input delivers the next bytes of it. -/
theorem read_reply {data : Bytes}
    (h : childRun sys depth k path args env (some data) cap = some ran)
    (quiet : ∀ st ∈ ran.steps, st.call.entersExec = false) {pre post : List (Syscall × Reply)}
    {len : Nat} {reply : Reply}
    (split : ran.calls = pre ++ (.read 0 (some len), reply) :: post) :
    reply.ret = reply.data.length ∧
      reply.data = ((data.take maxIoStdin).drop (delivered pre).length).take len := by
  obtain ⟨spre, st, spost, steps, rfl, same⟩ := callsOf_split split
  obtain ⟨before, answered⟩ :=
    tracks_before h steps fun st' h' => quiet st' (by rw [steps]; simp [h'])
  obtain ⟨hc, hr⟩ := Prod.mk.inj same
  rw [hc, hr] at answered
  obtain ⟨io', -, read, -⟩ := sysRead_redirected (congrArg Stdio.stdin before) 0 (some len)
  have answer : (sysRead st.before 0 (some len)).1 = reply :=
    congrArg Prod.fst (Option.some.inj answered)
  rw [← answer]
  exact ⟨sysRead_ret .., read⟩

theorem keepsContext_of_quiet (h : childRun sys depth k path args env stdin cap = some ran)
    (quiet : ∀ st ∈ ran.steps, st.call.entersExec = false) :
    KeepsContext stdin cap ran (ran.state.io.tearDown cap).1 where
  restored := by
    intro st hst exec
    obtain ⟨pre, post, split⟩ := List.append_of_mem hst
    have before := (tracks_before h split fun st' h' => quiet st' (by rw [split]; simp [h'])).2
    -- An exec that does not get past its arguments is answered without a step of the kernel.
    rw [dispatch_refused exec (quiet st hst)] at before
    have same := congrArg Prod.snd (Option.some.inj before)
    exact congrArg (·.io.stdio) same.symm
  reads := by
    rintro data rfl pre len reply post split
    exact read_reply h quiet split
  capture := by
    rintro c rfl
    have final := congrArg Stdio.stdout (tracks_run h quiet)
    rw [tearDown_captured final, List.take_take, Nat.min_comm]

/-- The first exec that gets through finds the context in place and leaves none. -/
theorem entersExec_loses (h : childRun sys depth k path args env stdin cap = some ran)
    (redirected : stdin.isSome = true ∨ cap.isSome = true)
    {st : Program.Step Syscall Reply Kernel} (hst : st ∈ ran.steps)
    (enters : st.call.entersExec = true) :
    ∃ first ∈ ran.steps, first.call.isExec = true ∧
      first.after.io.stdio ≠ first.before.io.stdio := by
  have found : (ran.steps.find? (·.call.entersExec)).isSome = true := by
    rw [List.find?_isSome]
    exact ⟨st, hst, enters⟩
  obtain ⟨first, hfirst⟩ := Option.isSome_iff_exists.mp found
  obtain ⟨entered, pre, post, split, quiet⟩ := List.find?_eq_some_iff_append.mp hfirst
  obtain ⟨before, answered⟩ := tracks_before h split fun st' h' => by simpa using quiet st' h'
  refine ⟨first, by rw [split]; simp, isExec_of_entersExec entered, fun same => ?_⟩
  rw [stdio_entered answered entered, before] at same
  obtain ⟨noInput, noOutput⟩ := Stdio.mk.inj same
  rcases redirected with input | output
  · obtain ⟨data, rfl⟩ := Option.isSome_iff_exists.mp input
    cases noInput
  · rw [output] at noOutput
    cases noOutput

/-- The context survives exactly the runs in which every nested exec is turned away at its
arguments. -/
theorem keeps_context_iff (sys : System) (depth : Nat) (k : Kernel) (path args env : Bytes)
    (stdin : Option Bytes) (cap : Option Nat) (ran : Program.Ran Syscall Reply Kernel Nat)
    (redirected : stdin.isSome = true ∨ cap.isSome = true)
    (h : childRun sys depth k path args env stdin cap = some ran) :
    ∃ captured k', execWithIo sys (runImage sys (depth + 1)) k path args env stdin cap =
        some (ran.result, captured, k') ∧
      (KeepsContext stdin cap ran captured ↔ ∀ st ∈ ran.steps, st.call.entersExec = false) := by
  obtain ⟨k', returned, -⟩ := execWithIo_child h
  refine ⟨_, k', returned, ?_, ?_⟩
  · intro keeps st hst
    by_contra enters
    obtain ⟨first, hfirst, exec, lost⟩ := entersExec_loses h redirected hst (by simpa using enters)
    exact lost (keeps.restored first hfirst exec)
  · exact keepsContext_of_quiet h

/-- Reads, writes, asks for a program without a path, and reads and writes again. -/
def turnedAway : List Syscall :=
  [.read 0 (some 1), .write 1 (some [120]), .execve none none none, .read 0 (some 1),
    .write 1 (some [121])]

theorem keeps_context_quiet :
    ∃ ran captured k', catRun turnedAway = some ran ∧
      execWithIo (uniform turnedAway) (runImage (uniform turnedAway) 2) typing (str "/bin/cat") [] []
        (some (str "ab")) (some 4096) = some (ran.result, captured, k') ∧
      (∃ st ∈ ran.steps, st.call.isExec = true) ∧
      KeepsContext (some (str "ab")) (some 4096) ran captured := by
  obtain ⟨ran, hran⟩ := Option.isSome_iff_exists.mp
    (by decide +kernel : (catRun turnedAway).isSome = true)
  have facts : (catRun turnedAway).all (fun ran =>
      (ran.steps.any (·.call.isExec)) && ran.steps.all fun st => !st.call.entersExec) = true := by
    decide +kernel
  rw [hran] at facts
  simp only [Option.all_some, Bool.and_eq_true, List.any_eq_true, List.all_eq_true,
    Bool.not_eq_true'] at facts
  obtain ⟨captured, k', returned, keeps⟩ := keeps_context_iff _ _ _ _ _ _ _ _ ran (by decide) hran
  exact ⟨ran, captured, k', hran, returned, facts.1, keeps.mpr facts.2⟩

/-- Reads, writes, starts a program that does not exist, and reads and writes again. -/
def nesting : List Syscall :=
  [.read 0 (some 1), .write 1 (some [120]), .execve (some (str "/x" ++ [0])) none none,
    .read 0 (some 1), .write 1 (some [121])]

theorem nested_exec_loses_context :
    ∃ ran captured k', catRun nesting = some ran ∧
      execWithIo (uniform nesting) (runImage (uniform nesting) 2) typing (str "/bin/cat") [] []
        (some (str "ab")) (some 4096) = some (ran.result, captured, k') ∧
      delivered ran.calls = str "ac" ∧ written ran.calls = str "xy" ∧ captured = [] ∧
      ¬KeepsContext (some (str "ab")) (some 4096) ran captured := by
  obtain ⟨ran, hran⟩ := Option.isSome_iff_exists.mp
    (by decide +kernel : (catRun nesting).isSome = true)
  have facts : (catRun nesting).map (fun ran =>
      (delivered ran.calls, written ran.calls, (ran.state.io.tearDown (some 4096)).1)) =
        some (str "ac", str "xy", []) := by decide +kernel
  rw [hran, Option.map_some, Option.some.injEq, Prod.mk.injEq, Prod.mk.injEq] at facts
  obtain ⟨read, wrote, nothing⟩ := facts
  obtain ⟨k', returned, -⟩ := execWithIo_child hran
  refine ⟨ran, _, k', hran, returned, read, wrote, nothing, fun keeps => ?_⟩
  have all := keeps.capture 4096 rfl
  rw [nothing, wrote] at all
  revert all
  decide

/-! ### Captured output -/

/-- What calls write while `n` bytes or more of output have been captured before. -/
def spilled (n : Nat) : List (Syscall × Reply) → Bytes
  | [] => []
  | cr :: calls =>
    (if maxIoStdout ≤ n then cr.1.output else []) ++ spilled (n + cr.1.output.length) calls

theorem spilled_append (n : Nat) (calls calls' : List (Syscall × Reply)) :
    spilled n (calls ++ calls') =
      spilled n calls ++ spilled (n + (written calls).length) calls' := by
  induction calls generalizing n with
  | nil => rfl
  | cons cr calls ih =>
    have more : (written (cr :: calls)).length = cr.1.output.length + (written calls).length := by
      simp [written]
    rw [List.cons_append, spilled, spilled, ih, List.append_assoc, more, Nat.add_assoc]

/-- Nothing spills exactly when every write of a byte starts with room in the buffer. -/
theorem spilled_eq_nil {calls : List (Syscall × Reply)} :
    spilled 0 calls = [] ↔ ∀ pre cr post, calls = pre ++ cr :: post → cr.1.output ≠ [] →
      (written pre).length < maxIoStdout := by
  constructor
  · -- A write behind 4096 bytes spills
    intro none pre cr post split some
    rw [split, spilled_append, List.append_eq_nil_iff, Nat.zero_add] at none
    by_contra full
    have spills := (List.append_eq_nil_iff.mp none.2).1
    rw [if_pos (Nat.not_lt.mp full)] at spills
    exact some spills
  · intro room
    induction calls using List.reverseRecOn with
    | nil => rfl
    | append_singleton calls cr ih =>
      have before : spilled 0 calls = [] := ih fun pre cr' post split some =>
        room pre cr' (post ++ [cr]) (by simp [split]) some
      rw [spilled_append, before, List.nil_append, Nat.zero_add, spilled, spilled, List.append_nil]
      split
      next full =>
        by_contra some
        exact absurd (room calls cr [] rfl some) (Nat.not_lt.mpr full)
      · rfl

/-- What the console has been sent since `start` by calls that spill `bytes`. -/
def Sent (start now : Console) (bytes : Bytes) : Prop :=
  now.vga = start.vga ++ bytes ∧
    now.serial = start.serial ++ bytes.flatMap fun b => String.utf8EncodeChar (Char.ofNat b.toNat)

theorem sent_nil (console : Console) : Sent console console [] := by simp [Sent]

theorem sent_put {start now : Console} {bytes : Bytes} (h : Sent start now bytes) (more : Bytes) :
    Sent start (more.foldl .put now) (bytes ++ more) := by
  induction more generalizing now bytes with
  | nil => simpa using h
  | cons b more ih =>
    have one : Sent start (now.put b) (bytes ++ [b]) := by simp [Sent, Console.put, h.1, h.2]
    simpa using ih one

theorem Sent.same {start now : Console} {bytes : Bytes} (h : Sent start now bytes) :
    (now.serial = start.serial ∧ now.vga = start.vga) ↔ bytes = [] := by
  constructor
  · rintro ⟨-, vga⟩
    exact List.append_right_eq_self.mp (h.1.symm.trans vga)
  · rintro rfl
    exact ⟨by simpa using h.2, by simpa using h.1⟩

theorem Sent.congr {start now now' : Console} {bytes : Bytes} (h : Sent start now bytes)
    (serial : now'.serial = now.serial) (vga : now'.vga = now.vga) : Sent start now' bytes :=
  ⟨vga.trans h.1, serial.trans h.2⟩

/-- Only a write sends anything to the console. -/
theorem dispatch_console {run : Runner} {c : Syscall} {r : Reply} {k k' : Kernel}
    (answered : dispatch sys run c k = some (r, k')) (quiet : c.entersExec = false) :
    (∃ fd buf, c = .write fd buf ∧ k' = (sysWrite k fd buf).2) ∨
      (c.output = [] ∧ k'.console.serial = k.console.serial ∧
        k'.console.vga = k.console.vga) := by
  rcases dispatch_cases answered quiet with ⟨fd, buf, rfl, read⟩ | ⟨fd, buf, rfl, wrote⟩ |
      ⟨output, -, ram, rfl⟩
  · obtain rfl : k' = (sysRead k fd buf).2 := congrArg Prod.snd read.symm
    exact .inr ⟨rfl, sysRead_outputs k fd buf⟩
  · exact .inl ⟨fd, buf, rfl, congrArg Prod.snd wrote.symm⟩
  · exact .inr ⟨output, rfl, rfl⟩

/-- The console of a program whose output is captured has been sent what its calls spilled. -/
theorem sent_step {run : Runner} {start : Console} {done : List (Syscall × Reply)} {c : Syscall}
    {r : Reply} {k k' : Kernel} (quiet : c.entersExec = false)
    (answered : dispatch sys run c k = some (r, k'))
    (context : Tracks stdin true done k) (h : Sent start k.console (spilled 0 done)) :
    Sent start k'.console (spilled 0 (done ++ [(c, r)])) := by
  have captured : k.io.stdio.stdout = some ((written done).take maxIoStdout) :=
    congrArg Stdio.stdout context
  have last : spilled 0 (done ++ [(c, r)]) =
      spilled 0 done ++ if maxIoStdout ≤ (written done).length then c.output else [] := by
    rw [spilled_append, Nat.zero_add, spilled, spilled, List.append_nil]
  rw [last]
  rcases dispatch_console answered quiet with ⟨fd, buf, rfl, rfl⟩ | ⟨output, serial, vga⟩
  · -- The capture takes the whole write as long as it has room at all.
    by_cases room : ((written done).take maxIoStdout).length < maxIoStdout
    · obtain ⟨io', after, -⟩ := sysWrite_captured captured room fd buf
      have open_ : ¬maxIoStdout ≤ (written done).length := by
        rw [List.length_take] at room
        omega
      rw [after, if_neg open_, List.append_nil]
      exact h
    · have full := Nat.not_lt.mp room
      have full' : maxIoStdout ≤ (written done).length := by
        rw [List.length_take] at full
        omega
      rw [sysWrite_console fd buf (IoState.captureStdout_full captured full _), if_pos full']
      exact sent_put h _
  · rw [output, ite_self, List.append_nil]
    exact h.congr serial vga

/-- The console after a captured run has been sent exactly what spilled. -/
theorem sent_run {c : Nat} (h : childRun sys depth k path args env stdin (some c) = some ran)
    (quiet : ∀ st ∈ ran.steps, st.call.entersExec = false) :
    Sent k.console ran.state.console (spilled 0 ran.calls) := by
  obtain ⟨started, entry, -, -, ended⟩ := childRun_eq_some.mp h
  -- What a write does to the console depends on the capture, so the invariant carries both.
  have both := Program.run_invariant
    (I := fun done k' => Tracks stdin true done k' ∧ Sent k.console k'.console (spilled 0 done))
    (P := fun c => c.entersExec = false)
    (fun _ _ _ _ _ quiet answered held =>
      ⟨tracks_step quiet answered held.1, sent_step quiet answered held.1 held.2⟩)
    ⟨tracks_start k stdin (some c) started, sent_nil k.console⟩ ended quiet
  exact both.2

/-- What comes back of a captured run is the front of what its calls wrote. -/
theorem captured_run {c : Nat} (h : childRun sys depth k path args env stdin (some c) = some ran)
    (quiet : ∀ st ∈ ran.steps, st.call.entersExec = false) :
    (ran.state.io.tearDown (some c)).1 = (written ran.calls).take (min maxIoStdout c) := by
  have final := congrArg Stdio.stdout (tracks_run h quiet)
  rw [tearDown_captured final, List.take_take, Nat.min_comm c]

/-- The capture is right whatever the chunks are; the console stays silent exactly when every write
of a byte starts before 4096 bytes were written. -/
theorem captured_output_iff (sys : System) (depth : Nat) (k : Kernel) (path args env : Bytes)
    (stdin : Option Bytes) (c : Nat) (ran : Program.Ran Syscall Reply Kernel Nat)
    (h : childRun sys depth k path args env stdin (some c) = some ran)
    (noExec : ∀ st ∈ ran.steps, st.call.isExec = false) :
    ∃ captured k', execWithIo sys (runImage sys (depth + 1)) k path args env stdin (some c) =
        some (ran.result, captured, k') ∧
      captured = (written ran.calls).take (min (written ran.calls).length (min maxIoStdout c)) ∧
      ((k'.console.serial = k.console.serial ∧ k'.console.vga = k.console.vga) ↔
        ∀ pre cr post, ran.calls = pre ++ cr :: post → cr.1.output ≠ [] →
          (written pre).length < maxIoStdout) := by
  have quiet : ∀ st ∈ ran.steps, st.call.entersExec = false :=
    fun st hst => entersExec_of_isExec (noExec st hst)
  obtain ⟨k', returned, console⟩ := execWithIo_child h
  refine ⟨_, k', returned, ?_, ?_⟩
  · rw [captured_run h quiet, Buffer.take_min_length]
  · rw [console, (sent_run h quiet).same, spilled_eq_nil]

theorem captured_output_short :
    ∃ ran k', catRun [.write 1 (some [120]), .write 2 (some [121])] = some ran ∧
      execWithIo (uniform [.write 1 (some [120]), .write 2 (some [121])])
        (runImage (uniform [.write 1 (some [120]), .write 2 (some [121])]) 2) typing
        (str "/bin/cat") [] [] (some (str "ab")) (some 4096) = some (ran.result, str "xy", k') := by
  obtain ⟨ran, hran⟩ := Option.isSome_iff_exists.mp
    (by decide +kernel :
      (catRun [.write 1 (some [120]), .write 2 (some [121])]).isSome = true)
  have facts : (catRun [.write 1 (some [120]), .write 2 (some [121])]).all (fun ran =>
      (ran.steps.all fun st => !st.call.isExec) && written ran.calls == str "xy") = true := by
    decide +kernel
  rw [hran] at facts
  simp only [Option.all_some, Bool.and_eq_true, List.all_eq_true, Bool.not_eq_true', beq_iff_eq]
    at facts
  obtain ⟨captured, k', returned, all, -⟩ :=
    captured_output_iff _ _ _ _ _ _ _ _ ran hran facts.1
  have whole : (str "xy").take (min (str "xy").length (min maxIoStdout 4096)) = str "xy" := by decide
  rw [all, facts.2, whole] at returned
  exact ⟨ran, k', hran, returned⟩

/-- Fills the capture with one write and writes one byte more. -/
def overfull : List Syscall := [.write 1 (some (List.replicate 4096 97)), .write 1 (some [98])]

theorem full_capture_spills :
    ∃ ran captured k', catRun overfull = some ran ∧
      execWithIo (uniform overfull) (runImage (uniform overfull) 2) typing (str "/bin/cat") [] []
        (some (str "ab")) (some 4096) = some (ran.result, captured, k') ∧
      (∀ st ∈ ran.steps, st.call.isExec = false) ∧
      typing.console.vga = [] ∧ k'.console.vga = [98] ∧ k'.console.serial = [98] := by
  obtain ⟨ran, hran⟩ := Option.isSome_iff_exists.mp
    (by decide +kernel : (catRun overfull).isSome = true)
  have facts : (catRun overfull).all (fun ran =>
      (ran.steps.all fun st => !st.call.isExec) && ran.state.console.vga == [98] &&
        ran.state.console.serial == [98]) = true := by decide +kernel
  rw [hran] at facts
  simp only [Option.all_some, Bool.and_eq_true, List.all_eq_true, Bool.not_eq_true', beq_iff_eq]
    at facts
  obtain ⟨k', returned, console⟩ := execWithIo_child hran
  exact ⟨ran, _, k', hran, returned, facts.1.1, rfl, console ▸ facts.1.2, console ▸ facts.2⟩

end Smultron
