import Smultron.Properties.FileAppRuns

/-!
# The counts of the byte sinks

`Write` and `WriteFile` return the length they were called with, while the layers below keep what
fits: a file takes 4096 bytes, and so does the capture of the output. The count is right as long as
nothing is cut there.
-/

namespace Smultron

open Process SlotTable Vfs

variable {sys : System} {run : Runner} {k k' : Kernel} {r : Reply} {α : Type}

/-! ### What arrives -/

/-- How many bytes have reached the capture or the console. -/
def outputSize (k : Kernel) : Nat := (k.io.stdio.stdout.getD []).length + k.console.vga.length

/-- How many bytes the file of a path holds. -/
def storedSize (k : Kernel) (path : Option Bytes) : Nat :=
  (((cstr 128 path).bind fun path => lookup path k.ram.slots).getD []).length

/-- The capture, if there is one, is full already or takes all of the bytes. -/
def HasRoom (k : Kernel) (bytes : Bytes) : Prop :=
  ∀ out, k.io.stdio.stdout = some out → 4096 ≤ out.length ∨ out.length + bytes.length ≤ 4096

theorem write_ret {fd : Nat} {bytes : Bytes} (out : fd = 1 ∨ fd = 2) :
    (sysWrite k fd (some bytes)).1.ret = bytes.length := by
  rw [sysWrite, if_neg (by omega)]
  split
  next empty => exact empty.symm
  · split <;> rfl

/-- What is written to the console arrives. -/
theorem outputSize_console {fd : Nat} {bytes : Bytes} (out : fd = 1 ∨ fd = 2)
    (console : k.io.captureStdout bytes = (false, k.io)) :
    outputSize (sysWrite k fd (some bytes)).2 = outputSize k + bytes.length := by
  have all : (Syscall.write fd (some bytes)).output = bytes := if_pos out
  have sent : (bytes.foldl .put k.console).vga = k.console.vga ++ bytes :=
    (sent_put (sent_nil k.console) bytes).1
  rw [sysWrite_console fd (some bytes) (by rw [all]; exact console), all, outputSize, outputSize,
    sent, List.length_append]
  exact (Nat.add_assoc _ _ _).symm

/-- A write delivers at most its bytes, and all of them where they have room. -/
theorem write_output {fd : Nat} {bytes : Bytes} (out : fd = 1 ∨ fd = 2)
    (answer : sysWrite k fd (some bytes) = (r, k')) :
    r.ret = bytes.length ∧ outputSize k ≤ outputSize k' ∧
      outputSize k' ≤ outputSize k + bytes.length ∧
      (outputSize k' = outputSize k + bytes.length ↔ HasRoom k bytes) := by
  have all : (Syscall.write fd (some bytes)).output = bytes := if_pos out
  obtain rfl : (sysWrite k fd (some bytes)).1 = r := congrArg Prod.fst answer
  obtain rfl : (sysWrite k fd (some bytes)).2 = k' := congrArg Prod.snd answer
  refine ⟨write_ret out, ?_⟩
  cases stdout : k.io.stdio.stdout with
  | none =>
    have size := outputSize_console out (IoState.captureStdout_console stdout bytes)
    refine ⟨by omega, by omega, iff_of_true size fun captured some_ => ?_⟩
    rw [stdout] at some_
    cases some_
  | some captured =>
    have room_iff : HasRoom k bytes ↔
        4096 ≤ captured.length ∨ captured.length + bytes.length ≤ 4096 := by
      simp [HasRoom, stdout]
    rw [room_iff]
    by_cases full : maxIoStdout ≤ captured.length
    · have size := outputSize_console out (IoState.captureStdout_full stdout full bytes)
      exact ⟨by omega, by omega, iff_of_true size (.inl full)⟩
    · -- The capture takes what fits behind the bytes it holds
      obtain ⟨io', after, last⟩ := sysWrite_captured stdout (Nat.not_le.mp full) fd (some bytes)
      have most : maxIoStdout = 4096 := rfl
      rw [after, outputSize, outputSize, last, stdout, all, Option.getD_some, Option.getD_some,
        List.length_take, List.length_append, most]
      dsimp only
      omega

theorem storedSize_writeFile {path : Option Bytes} {data : Bytes}
    (answered : dispatch sys run (.writeFile path (some data)) k = some (r, k'))
    (success : r.ret ≠ u64Max) :
    r.ret = data.length ∧ storedSize k' path = min data.length 4096 := by
  simp only [dispatch] at answered
  split at answered
  · obtain ⟨rfl, -⟩ := Prod.mk.inj (Option.some.inj answered)
    exact absurd rfl success
  next path' named =>
    have found := @lookup_write _ _ _ storable k.ram.slots path' (data.take maxRamFileLen) path'
    rw [← slots_writeFile, ← writeFile_accepted] at found
    cases outcome : Vfs.writeFile k.ram path' data with
    | mk accepted ram =>
      rw [outcome] at answered found
      cases accepted with
      | true =>
        obtain ⟨rfl, rfl⟩ := Prod.mk.inj (Option.some.inj answered)
        rw [if_pos ⟨rfl, rfl⟩] at found
        refine ⟨rfl, ?_⟩
        rw [storedSize, named, Option.bind_some, found, Option.getD_some, List.length_take,
          Nat.min_comm]
        rfl
      | false =>
        obtain ⟨rfl, -⟩ := Prod.mk.inj (Option.some.inj answered)
        exact absurd rfl success

/-! ### Whole runs -/

/-- How many bytes a call to a sink reports as written. -/
def reported (st : Program.Step Syscall Reply Kernel) : Nat :=
  match st.call with
  | .write fd (some _) => if fd = 1 ∨ fd = 2 then st.reply.ret else 0
  | .writeFile _ (some _) => if st.reply.ret = u64Max then 0 else st.reply.ret
  | _ => 0

/-- How many bytes of it arrived where they were sent. -/
def arrived (st : Program.Step Syscall Reply Kernel) : Nat :=
  match st.call with
  | .write fd (some _) =>
    if fd = 1 ∨ fd = 2 then outputSize st.after - outputSize st.before else 0
  | .writeFile path (some _) => if st.reply.ret = u64Max then 0 else storedSize st.after path
  | _ => 0

/-- The output has room for what is written to it, and a file that is written is not too long. -/
def Fits (st : Program.Step Syscall Reply Kernel) : Prop :=
  (∀ fd bytes, st.call = .write fd (some bytes) → fd = 1 ∨ fd = 2 → HasRoom st.before bytes) ∧
    ∀ path data, st.call = .writeFile path (some data) → st.reply.ret ≠ u64Max → data.length ≤ 4096

/-- No more arrives than is reported, and as much exactly where it fits. -/
theorem step_counts {st : Program.Step Syscall Reply Kernel}
    (answered : dispatch sys run st.call st.before = some (st.reply, st.after)) :
    arrived st ≤ reported st ∧ (reported st = arrived st ↔ Fits st) := by
  obtain ⟨k, c, r, k'⟩ := st
  dsimp only at answered
  -- Every other call counts for nothing on both sides
  have other (r₀ : reported ⟨k, c, r, k'⟩ = 0) (a₀ : arrived ⟨k, c, r, k'⟩ = 0)
      (fits : Fits ⟨k, c, r, k'⟩) : arrived ⟨k, c, r, k'⟩ ≤ reported ⟨k, c, r, k'⟩ ∧
        (reported ⟨k, c, r, k'⟩ = arrived ⟨k, c, r, k'⟩ ↔ Fits ⟨k, c, r, k'⟩) := by
    rw [r₀, a₀]
    exact ⟨Nat.le_refl _, iff_of_true rfl fits⟩
  cases c with
  | write fd buf =>
    cases buf with
    | none => exact other rfl rfl ⟨nofun, nofun⟩
    | some bytes =>
      by_cases out : fd = 1 ∨ fd = 2
      · obtain ⟨ret, grows, most, all_iff⟩ := write_output out (Option.some.inj answered)
        have fits_iff : Fits ⟨k, .write fd (some bytes), r, k'⟩ ↔ HasRoom k bytes := by
          refine ⟨fun fits => fits.1 fd bytes rfl out, fun room => ⟨?_, nofun⟩⟩
          rintro _ _ ⟨⟩ -
          exact room
        have told : reported ⟨k, .write fd (some bytes), r, k'⟩ = bytes.length := (if_pos out).trans ret
        have came : arrived ⟨k, .write fd (some bytes), r, k'⟩ = outputSize k' - outputSize k :=
          if_pos out
        rw [fits_iff, ← all_iff, told, came]
        omega
      · refine other (if_neg out) (if_neg out) ⟨?_, nofun⟩
        rintro _ _ ⟨⟩ output
        exact absurd output out
  | writeFile path data =>
    cases data with
    | none => exact other rfl rfl ⟨nofun, nofun⟩
    | some data =>
      by_cases failed : r.ret = u64Max
      · refine other (if_pos failed) (if_pos failed) ⟨nofun, ?_⟩
        rintro _ _ ⟨⟩ success
        exact absurd failed success
      · obtain ⟨ret, size⟩ := storedSize_writeFile answered failed
        have fits_iff : Fits ⟨k, .writeFile path (some data), r, k'⟩ ↔ data.length ≤ 4096 := by
          refine ⟨fun fits => fits.2 path data rfl failed, fun short => ⟨nofun, ?_⟩⟩
          rintro _ _ ⟨⟩ -
          exact short
        have told : reported ⟨k, .writeFile path (some data), r, k'⟩ = data.length :=
          (if_neg failed).trans ret
        have came : arrived ⟨k, .writeFile path (some data), r, k'⟩ = min data.length 4096 :=
          (if_neg failed).trans size
        rw [fits_iff, told, came]
        omega
  | _ => exact other rfl rfl ⟨nofun, nofun⟩

/-- Sums that are ordered term by term agree where all terms do. -/
theorem sum_eq_iff {f g : α → Nat} {xs : List α} (le : ∀ x ∈ xs, f x ≤ g x) :
    (xs.map f).sum ≤ (xs.map g).sum ∧
      ((xs.map g).sum = (xs.map f).sum ↔ ∀ x ∈ xs, g x = f x) := by
  induction xs with
  | nil => simp
  | cons x xs ih =>
    rw [List.forall_mem_cons] at le ⊢
    obtain ⟨sums, same⟩ := ih le.2
    have first := le.1
    rw [← same, List.map_cons, List.map_cons, List.sum_cons, List.sum_cons]
    omega

/-- A write to the output returns how many of its bytes arrived exactly where they had room, a write to
a file exactly where the file was not too long; and a run has written what it was told exactly where
all of its calls were like that. -/
theorem write_counts_iff (sys : System) (run : Runner) :
    (∀ k fd bytes r k', fd = 1 ∨ fd = 2 →
        dispatch sys run (.write fd (some bytes)) k = some (r, k') →
        (r.ret = outputSize k' - outputSize k ↔ HasRoom k bytes)) ∧
      (∀ k path data r k', dispatch sys run (.writeFile path (some data)) k = some (r, k') →
        r.ret ≠ u64Max → (r.ret = storedSize k' path ↔ data.length ≤ 4096)) ∧
      ∀ (p : Program Syscall Reply α) k ran, p.run (dispatch sys run) k = some ran →
        ((ran.steps.map reported).sum = (ran.steps.map arrived).sum ↔ ∀ st ∈ ran.steps, Fits st) := by
  refine ⟨?_, ?_, ?_⟩
  · intro k fd bytes r k' out answered
    obtain ⟨ret, grows, -, all_iff⟩ := write_output out (Option.some.inj answered)
    rw [ret, ← all_iff]
    omega
  · intro k path data r k' answered success
    obtain ⟨ret, size⟩ := storedSize_writeFile answered success
    rw [ret, size]
    omega
  · intro p k ran ended
    have counts : ∀ st ∈ ran.steps, arrived st ≤ reported st ∧ (reported st = arrived st ↔ Fits st) := by
      intro st hst
      obtain ⟨pre, post, split⟩ := List.append_of_mem hst
      exact step_counts (Program.run_answered ended split)
    rw [(sum_eq_iff fun st hst => (counts st hst).1).2]
    exact forall₂_congr fun st hst => (counts st hst).2

/-- A kernel that captures what is written, with some bytes captured already. -/
def capturing (captured : Bytes) : Kernel :=
  { Kernel.boot (fun _ => 10) with
    io := ((IoState.new.setUp none true).captureStdout captured).2 }

/-- Writes two bytes to the output and to a file. -/
def twoSinks : Program Syscall Reply Nat :=
  .call (.write 1 (some (str "hi"))) fun _ =>
    .call (.writeFile (some (str "/note" ++ [0])) (some (str "hi"))) fun _ => .ret 0

/-- The two bytes fill a capture that has taken 4094. -/
theorem write_counts_iff_note : ∃ k₁ k₂ ran,
    dispatch bareSystem (runImage bareSystem 0) (.write 1 (some (str "hi")))
        (capturing (List.replicate 4094 97)) = some (Reply.value 2, k₁) ∧
      outputSize k₁ - outputSize (capturing (List.replicate 4094 97)) = 2 ∧
      dispatch bareSystem (runImage bareSystem 0) (.writeFile (some (str "/note" ++ [0]))
        (some (str "hi"))) (capturing (List.replicate 4094 97)) = some (Reply.value 2, k₂) ∧
      storedSize k₂ (some (str "/note" ++ [0])) = 2 ∧
      twoSinks.run (dispatch bareSystem (runImage bareSystem 0)) (capturing (List.replicate 4094 97)) =
        some ran ∧
      (ran.steps.map reported).sum = (ran.steps.map arrived).sum := by
  obtain ⟨output, file, whole⟩ := @write_counts_iff Nat bareSystem (runImage bareSystem 0)
  have room (k : Kernel) (filled : k.io.stdio.stdout.map List.length = some 4094) :
      HasRoom k (str "hi") := by
    intro out some_
    have length : out.length = 4094 := by simpa [some_] using filled
    have two : (str "hi").length = 2 := by decide
    exact .inr (by omega)
  have first : (dispatch bareSystem (runImage bareSystem 0) (.write 1 (some (str "hi")))
      (capturing (List.replicate 4094 97))).map Prod.fst = some (Reply.value 2) := by decide +kernel
  have second : (dispatch bareSystem (runImage bareSystem 0)
      (.writeFile (some (str "/note" ++ [0])) (some (str "hi")))
      (capturing (List.replicate 4094 97))).map Prod.fst = some (Reply.value 2) := by decide +kernel
  obtain ⟨⟨r, k₁⟩, wrote, rfl⟩ := Option.map_eq_some_iff.mp first
  obtain ⟨⟨r, k₂⟩, stored, rfl⟩ := Option.map_eq_some_iff.mp second
  obtain ⟨ran, ended⟩ := Option.isSome_iff_exists.mp (by decide +kernel :
    (twoSinks.run (dispatch bareSystem (runImage bareSystem 0))
      (capturing (List.replicate 4094 97))).isSome = true)
  -- The one write of the run finds the capture as it was
  have filled : (twoSinks.run (dispatch bareSystem (runImage bareSystem 0))
      (capturing (List.replicate 4094 97))).all (fun ran => ran.steps.all fun st =>
        st.before.io.stdio.stdout.map List.length == some 4094 || st.call.output == []) = true := by
    decide +kernel
  rw [ended, Option.all_some, List.all_eq_true] at filled
  have calls : twoSinks.Only fun c =>
      (∀ fd bytes, c = .write fd (some bytes) → bytes = str "hi") ∧
        ∀ path data, c = .writeFile path (some data) → data.length ≤ 4096 := by
    refine ⟨⟨?_, nofun⟩, fun _ => ⟨⟨nofun, ?_⟩, fun _ => trivial⟩⟩
    · rintro _ _ ⟨⟩
      rfl
    · rintro _ _ ⟨⟩
      decide
  refine ⟨k₁, k₂, ran, wrote, ?_, stored, ?_, ended, (whole _ _ _ ended).mpr fun st hst => ?_⟩
  · exact ((output _ _ _ _ _ (.inl rfl) wrote).mpr (room _ (by decide +kernel))).symm
  · exact ((file _ _ _ _ _ stored (by decide)).mpr (by decide)).symm
  · obtain ⟨text, short⟩ := calls.steps ended st hst
    refine ⟨fun fd bytes called sink => ?_, fun path data called _ => short path data called⟩
    obtain rfl := text fd bytes called
    have some_ : st.call.output ≠ [] := by
      rw [called, Syscall.output, if_pos sink]
      decide
    exact room _ (by simpa [some_] using filled st hst)

/-- A file keeps 4096 of 4097 bytes, and a capture with 4095 bytes takes one of two. -/
theorem counts_exceed_storage :
    (∃ k', dispatch bareSystem (runImage bareSystem 0) (.writeFile (some (str "/note" ++ [0]))
        (some (List.replicate 4097 97))) (pipedKernel []) = some (Reply.value 4097, k') ∧
      storedSize k' (some (str "/note" ++ [0])) = 4096) ∧
    ∃ k', dispatch bareSystem (runImage bareSystem 0) (.write 1 (some (str "hi")))
        (capturing (List.replicate 4095 97)) = some (Reply.value 2, k') ∧
      outputSize k' - outputSize (capturing (List.replicate 4095 97)) = 1 := by
  have file : (dispatch bareSystem (runImage bareSystem 0) (.writeFile (some (str "/note" ++ [0]))
      (some (List.replicate 4097 97))) (pipedKernel [])).map
        (fun answer => (answer.1, storedSize answer.2 (some (str "/note" ++ [0])))) =
      some (Reply.value 4097, 4096) := by decide +kernel
  have output : (dispatch bareSystem (runImage bareSystem 0) (.write 1 (some (str "hi")))
      (capturing (List.replicate 4095 97))).map (fun answer =>
        (answer.1, outputSize answer.2 - outputSize (capturing (List.replicate 4095 97)))) =
      some (Reply.value 2, 1) := by decide +kernel
  obtain ⟨⟨r, k'⟩, answered, same⟩ := Option.map_eq_some_iff.mp file
  obtain ⟨rfl, size⟩ := Prod.mk.inj same
  refine ⟨⟨k', answered, size⟩, ?_⟩
  obtain ⟨⟨r, k'⟩, answered, same⟩ := Option.map_eq_some_iff.mp output
  obtain ⟨rfl, size⟩ := Prod.mk.inj same
  exact ⟨k', answered, size⟩

end Smultron
