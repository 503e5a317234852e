import Smultron.Kernel.Main
import Smultron.Properties.ImageProbe
import Smultron.Properties.MappedRegions
import Smultron.Properties.Screen
import Smultron.Properties.SessionMeanings

/-!
# From the boot to the end of the shell

The kernel maps its memory and starts the shell in an empty table, the shell reads its lines and starts
its programs, each in a slot of its own, and when it is left the kernel reports its status. Of all this
the machine knows only what is typed, what is shown and what is in the files; that is what comes of it
on the kernel.

## Main result

- `boot_runs_session`: from the boot to the exit of the shell, the kernel does what the session means.
-/

namespace Smultron

open Checked Checked.Outcome ElfLoader FrameAllocator LineEditing Machine Paging Proc Process Utf8 Vfs

variable {images : Images} {limits : Limits} {boot : Boot} {w w' : World} {entries : List TypedLine}
  {env' : Shell.Env} {more : Bool} {reads : Nat}

/-! ### The shell on the machine -/

/-- The shell from its start on. -/
theorem eval_run (enough : ∀ e ∈ entries, e.keys.length < reads)
    (typed : w.upcoming (entries.flatMap TypedLine.bytes).length = entries.flatMap TypedLine.bytes)
    (meant : boot.shell entries w = some (false, env', w')) {lines : Nat}
    (few : entries.length ≤ lines) :
    (Shell.run reads lines).eval (boot.answer 0) w = some (.ended (), w') := by
  obtain ⟨rest, rfl⟩ := Nat.exists_eq_add_of_le few
  obtain ⟨env, w₁, assigned⟩ : ∃ env w₁, assign Shell.Env.empty Shell.cwdKey (str "/") w = (env, w₁) :=
    ⟨_, _, rfl⟩
  have started : (Shell.setEnv Shell.Env.empty Shell.cwdKey (str "/")).eval (boot.answer 0) w =
      some (env, w₁) := by rw [eval_setEnv, assigned]
  simp only [Boot.shell, assigned, greeting, World.show_append] at meant
  have ahead : Unread w ((w₁.show (str "smultron shell (userspace)\n")).show
      (str "type 'help' for commands\n")) :=
    ((unread_kept boot).assign assigned).trans ((unread_show _ _).trans (unread_show _ _))
  rw [Shell.run, eval_bind_of started, eval_bind_of (eval_writeStr _), eval_bind_of (eval_writeStr _),
    eval_runLoop enough ((ahead.upcoming _).trans typed) meant rest]
  rfl

/-! ### The shell on the kernel -/

section Boot

variable {k : Kernel} {image : Bytes} (accepted : AcceptedImages images)
  (enough : 17 ≤ limits.rounds) (depth : Nat) (fresh : k.pm = ProcessManager.new)
  (init : readFile images initPath = some image)
  (typed : (ofKernel k).upcoming (entries.flatMap TypedLine.bytes).length =
    entries.flatMap TypedLine.bytes)
  (short : ∀ e ∈ entries, e.keys.length < limits.reads) (few : entries.length ≤ limits.lines)
  (meant : (bootMachine images).shell entries (ofKernel k) = some (false, env', w'))

include accepted enough fresh init typed short few meant

/-- The shell comes to its end, and the kernel gets the table back in which it started it. -/
theorem exec_shell : ∃ k', exec (bootSystem images limits)
      (runImage (bootSystem images limits) (depth + 2)) k initPath [] [] = some (0, k') ∧
    ofKernel k' = w' ∧ k'.io.stdio = ⟨none, none⟩ ∧ Regained ProcessManager.new k'.pm := by
  have slot : slotForPath initPath = some 0 := by decide
  obtain ⟨hdr, valid, nonzero⟩ := accepted initPath image 0 init slot
  have free : k.pm.slotsInUse[0]? = some false := by rw [fresh]; rfl
  have tidy : Tidy k.pm := fresh ▸ tidy_new
  have none_ : ([] : Bytes).length ≤ maxArgLen ∧ ([] : Bytes).length ≤ maxEnvLen := by decide
  obtain ⟨started, begun, atSlot, -, entered⟩ :=
    startProcess_enters tidy init slot free valid nonzero none_.1 none_.2
  obtain ⟨spawned, -⟩ := startProcess_eq_ok begun
  rw [atSlot, fresh] at spawned
  have alone := alone_spawned spawned
  -- The shell runs on the kernel as it runs on the machine
  have hosts : Hosts started.pm (childKernel k none none started) (ofKernel k) :=
    ⟨rfl, IoState.stdio_setUp k.io none false, .rfl alone.bound⟩
  obtain ⟨k₁, ran, last⟩ := simulates_eval
    (dispatch_simulates (bootSystem_holds accepted enough 0) alone depth) hosts
    (eval_run short typed meant few)
  obtain ⟨steps, ended, result, rfl⟩ := eval_eq_some.mp ran
  have whole : (Shell.start limits.reads limits.lines limits.other ([] ++ [0]) ([] ++ [0])).run
      (dispatch (bootSystem images limits) (runImage (bootSystem images limits) (depth + 1)))
      (childKernel k none none started) = some ⟨0, steps.steps, steps.state⟩ := by
    rw [Shell.start, Program.run_bind_eq_some]
    exact ⟨steps, _, ended, Program.run_ret _ _, by simp [result, exitStatus]⟩
  have program : (bootSystem images limits).image initPath =
    Shell.start limits.reads limits.lines limits.other := rfl
  have table : Regained ProcessManager.new (steps.state.pm.finish started.pid 0) :=
    tidy_new.finish_regained (by decide) spawned last.table 0
  have begun' : startProcess (bootSystem images limits).images k.pm initPath [] [] = .ok started :=
    begun
  obtain ⟨history, returned⟩ : ∃ history, runImage (bootSystem images limits) (depth + 2) initPath
      ([] ++ [0]) ([] ++ [0]) (childKernel k none none started) =
        some (0, { steps.state with history }) := by
    rw [runImage, program, whole]
    exact ⟨_, rfl⟩
  simp only [childKernel] at returned
  simp only [exec, execWithIo, execInternal, begun', entered, returned]
  refine ⟨_, rfl, ?_, IoState.stdio_tearDown _ none, table⟩
  rw [← last.world]
  rfl

end Boot

/-! ### The boot -/

section Main

variable {VirtAddr Page PhysAddr PhysFrame Table : Type} {x86 : X86 PhysAddr PhysFrame}
  {mapper : Mapper VirtAddr Page PhysFrame Table} {memoryMap : List MemoryRegion} {table : Table}
  {m : Space Table} {input : Nat → UInt8} {run : Runner}

/-- The kernel in front of the probe. -/
def setUpKernel (input : Nat → UInt8) : Kernel :=
  { Kernel.boot input with console := ⟨input, 0, bootLog, bootScreen⟩ }

theorem kernelMain_eq (mapped : mapRegions x86 mapper ⟨table, .init memoryMap⟩ = .ok m) :
    kernelMain x86 mapper (bootSystem images limits) run memoryMap table (Kernel.boot input) =
      .ok (m, launchInit (bootSystem images limits) run (setUpKernel input)) := by
  obtain ⟨m₁, heap, slots⟩ := bind_eq_ok.mp mapped
  have hello : readFile (bootSystem images limits).images (str "/hello.txt") = some helloTxt := by
    simp [readFile, files]
  have text : Valid helloTxt := by decide +kernel
  simp only [kernelMain, heap, slots, expect, ok_bind, hello, Option.getD_some, if_pos text]
  refine congrArg (fun k => ok (m, launchInit (bootSystem images limits) run k)) ?_
  simp only [Kernel.println, Kernel.serialPrintln, Console.serialPrint, Kernel.boot, setUpKernel,
    Kernel.mk.injEq, Console.mk.injEq, true_and, and_true]
  exact ⟨by decide +kernel, by decide +kernel⟩

/-- The kernel that launches the shell. -/
theorem launching (input : Nat → UInt8) :
    ofKernel ((((setUpKernel input).serialPrintln
      (str "[ok][phase8] execve ELF load path completed")).serialPrintln
        (str "[ok] all-phases boot flow completed")).serialPrintln
        (str "[ok] launching userspace init shell")) = .booted input := by
  have log : ((bootLog ++ (str "[ok][phase8] execve ELF load path completed" ++ str "\n")) ++
      (str "[ok] all-phases boot flow completed" ++ str "\n")) ++
      (str "[ok] launching userspace init shell" ++ str "\n") = bootLog ++ launchLog := by
    decide +kernel
  simp only [ofKernel, Kernel.serialPrintln, Console.serialPrint, setUpKernel, Kernel.boot,
    World.booted, log]

theorem launchInit_runs (accepted : AcceptedImages images) (enough : 17 ≤ limits.rounds) (depth : Nat)
    (typed : (List.range (entries.flatMap TypedLine.bytes).length).map input =
      entries.flatMap TypedLine.bytes)
    (short : ∀ e ∈ entries, e.keys.length < limits.reads) (few : entries.length ≤ limits.lines)
    (meant : (bootMachine images).main entries input = some w') :
    ∃ k', launchInit (bootSystem images limits)
        (runImage (bootSystem images limits) (depth + 2)) (setUpKernel input) = some k' ∧
      ofKernel k' = w' ∧ k'.io.stdio = ⟨none, none⟩ ∧ Regained ProcessManager.new k'.pm := by
  have init : readFile images initPath = some images.init := by
    have other : str "/hello.txt" ≠ str "/bin/init" := by decide
    simp [readFile, files, initPath, other]
  have slot : slotForPath initPath = some 0 := by decide
  have probed : probeExecutable (bootSystem images limits).images initPath = true := by
    obtain ⟨hdr, valid, -⟩ := accepted initPath images.init 0 init slot
    have found : readFile (bootSystem images limits).images initPath = some images.init := init
    simp only [probeExecutable, found, slot, probeElfForSlot, valid]
  obtain ⟨⟨more, env', w₁⟩, ran, meant⟩ := Option.bind_eq_some_iff.mp meant
  cases more with
  | true => simp at meant
  | false =>
    rw [← launching] at ran
    obtain ⟨k₁, ended, world, context, table⟩ := exec_shell accepted enough depth rfl init
      (by simpa [World.upcoming, ofKernel, Kernel.serialPrintln, Console.serialPrint, setUpKernel]
        using typed) short few ran
    have status : str "[ok] userspace init exited with status " ++ str (toString 0) ++ str "\n" =
        str "[ok] userspace init exited with status 0\n" := by decide +kernel
    simp only [launchInit, probed, if_true, ended]
    refine ⟨_, rfl, ?_, context, table⟩
    obtain rfl := Option.some.inj meant
    rw [← world, ← status]
    rfl

/-- `println!` leaves the screen on which `write_string` has written the text and a line end. -/
theorem println_screen {k : Kernel} {w screen : Vga.Writer}
    (shown : (Vga.writeBytes w k.console.vga : Outcome Empty _) = .ok screen) (text : Bytes) :
    (Vga.writeBytes w (k.println text).console.vga : Outcome Empty _) =
      screen.writeString (text ++ str "\n") := by
  rw [Kernel.println, Vga.writeBytes_append, shown, ok_bind, Vga.writeString_eq]

/-- What is sent to the screen from `clear_screen` on stands on it. -/
theorem cleared_shows (w : Vga.Writer) (bytes : Bytes) :
    ∃ screen, (Vga.clearScreen w >>= fun w => Vga.writeBytes w bytes : Outcome Empty _) =
      .ok screen ∧ Vga.Shows screen (bytes.foldl Vga.typeByte .empty) := by
  refine (sound_bind (Vga.clearScreen_sound.mono fun w' cleared => ?_)).value
  obtain ⟨column, color, cells⟩ := cleared
  have blank : w'.blank = w.blank := by rw [Vga.Writer.blank, color]; rfl
  exact ((Vga.shows_empty column (blank ▸ cells)).writeBytes bytes).mono fun screen last => last.2

end Main

/-- On a machine that is ready, from the boot to the report of the shell's status. Whatever lines are
typed, and whatever programs, pipelines and redirections are in them: the regions are mapped, the
files and the console are those of the session, the screen shows the last rows of the console's text,
and no process is left. -/
theorem boot_runs_session {VirtAddr Page PhysAddr PhysFrame Table : Type}
    (x86 : X86 PhysAddr PhysFrame) (docs : x86.Documented)
    (mapper : Mapper VirtAddr Page PhysFrame Table) (crate : mapper.Documented)
    (huge : Table → Page → Prop) (succeeds : mapper.Succeeds huge) (memoryMap : List MemoryRegion)
    (table : Table) (ready : Ready mapper huge memoryMap table) (images : Images) (limits : Limits)
    (depth : Nat) (input : Nat → UInt8) (entries : List TypedLine) (w' : World)
    (accepted : AcceptedImages images) (enough : 17 ≤ limits.rounds)
    (typed : (List.range (entries.flatMap TypedLine.bytes).length).map input =
      entries.flatMap TypedLine.bytes)
    (short : ∀ e ∈ entries, e.keys.length < limits.reads) (few : entries.length ≤ limits.lines)
    (meant : (bootMachine images).main entries input = some w') :
    ∃ m k', kernelMain x86 mapper (bootSystem images limits)
        (runImage (bootSystem images limits) (depth + 2)) memoryMap table (Kernel.boot input) =
          .ok (m, some k') ∧
      mapRegions x86 mapper ⟨table, .init memoryMap⟩ = .ok m ∧
      ofKernel k' = w' ∧ k'.io.stdio = ⟨none, none⟩ ∧ Regained ProcessManager.new k'.pm ∧
      ∀ w, ∃ screen,
        (Vga.clearScreen w >>= fun w => Vga.writeBytes w k'.console.vga : Outcome Empty _) =
          .ok screen ∧
        Vga.Shows screen (w'.console.vga.foldl Vga.typeByte .empty) := by
  obtain ⟨m, mapped⟩ := ready.maps docs crate succeeds
  obtain ⟨k', ran, world, context, regained⟩ :=
    launchInit_runs accepted enough depth typed short few meant
  refine ⟨m, k', by rw [kernelMain_eq mapped, ran], mapped, world, context, regained, fun w => ?_⟩
  rw [← world]
  exact cleared_shows w k'.console.vga

theorem boot_runs_session_sample :
    ∃ m k', kernelMain frameNumbers pageNumbers (bootSystem bareImages ⟨17, 32, 3, 0⟩)
        (runImage (bootSystem bareImages ⟨17, 32, 3, 0⟩) 2) smallMemory (fun _ => none)
        sampleKernel = .ok (m, some k') ∧
      k'.console.vga = bootScreen ++ greeting ++
        str "smultron$ echo hi > /a\nsmultron$ cat /a | sed s/h/H/\nHi\n" ++
        str "smultron$ exit\n" := by
  have shows : ((bootMachine bareImages).main sampleEntries sampleKernel.console.input).map
      (·.console.vga) = some (bootScreen ++ greeting ++
        str "smultron$ echo hi > /a\nsmultron$ cat /a | sed s/h/H/\nHi\n" ++
          str "smultron$ exit\n") := by decide +kernel
  obtain ⟨w', meant, vga⟩ := Option.map_eq_some_iff.mp shows
  obtain ⟨m, k', ended, -, world, -⟩ := boot_runs_session frameNumbers documented_frameNumbers
    pageNumbers documented_pageNumbers _ succeeds_pageNumbers smallMemory (fun _ => none)
    ready_smallMemory bareImages ⟨17, 32, 3, 0⟩ 0 _ sampleEntries w' acceptedImages_bare
    (Nat.le_refl 17) (by decide +kernel) (by decide +kernel) (by decide +kernel) meant
  exact ⟨m, k', ended, (congrArg (·.console.vga) world).trans vga⟩

end Smultron
