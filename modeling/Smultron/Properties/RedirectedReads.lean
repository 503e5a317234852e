import Smultron.Lib.Chunks
import Smultron.Properties.StageRuns

/-!
# Reads of redirected input

Every call of a program under `exec_with_io` gets the next bytes of the input it was started with,
as many as it asks for. The bytes are a function of the input and of the sizes asked for alone, so
nothing that an earlier program left in the buffer shows.
-/

namespace Smultron

open Chunks Memory Process

/-- How many input bytes a call asks for. -/
def Syscall.asked : Syscall → Nat
  | .read fd buf => if fd = 0 then buf.getD 0 else 0
  | _ => 0

variable {sys : System} {run : Runner} {depth : Nat} {k k' : Kernel} {c : Syscall} {r : Reply}
  {path args env : Bytes} {cap : Option Nat} {ran : Program.Ran Syscall Reply Kernel Nat}

/-- A call takes from the redirected input what it asks for, as long as there is something left. -/
theorem inputOf_redirected {rest : Bytes} (input : k.io.stdio.stdin = some rest)
    (answered : dispatch sys run c k = some (r, k')) (quiet : c.entersExec = false) :
    c.inputOf r = rest.take c.asked := by
  cases c with
  | read fd buf =>
    obtain ⟨io', -, bytes, -⟩ := sysRead_redirected input fd buf
    have reply : (sysRead k fd buf).1 = r := congrArg Prod.fst (Option.some.inj answered)
    rw [Syscall.inputOf, Syscall.asked, ← reply, bytes]
    split
    · rfl
    · exact List.take_zero.symm
  | _ => rfl

/-- The input each of some calls got. -/
def inputs (calls : List (Syscall × Reply)) : List Bytes := calls.map fun cr => cr.1.inputOf cr.2

/-- The input each of some calls asked for. -/
def sizes (calls : List (Syscall × Reply)) : List Nat := calls.map fun cr => cr.1.asked

theorem delivered_eq_flatten (calls : List (Syscall × Reply)) :
    delivered calls = (inputs calls).flatten := rfl

/-- The program has read its input in order, and has not asked the console. -/
structure InOrder (data : Bytes) (capture : Bool) (taken : Nat) (done : List (Syscall × Reply))
    (k : Kernel) : Prop where
  tracks : Tracks (some data) capture done k
  reads : inputs done = chunks (sizes done) (data.take maxIoStdin)
  console : k.console.taken = taken

theorem InOrder.step {data : Bytes} {capture : Bool} {taken : Nat}
    {done : List (Syscall × Reply)} (h : InOrder data capture taken done k)
    (quiet : c.entersExec = false) (answered : dispatch sys run c k = some (r, k')) :
    InOrder data capture taken (done ++ [(c, r)]) k' where
  tracks := tracks_step quiet answered h.tracks
  reads := by
    -- What is left in the context is what the calls so far have not got
    have input : k.io.stdio.stdin =
        some ((data.take maxIoStdin).drop (delivered done).length) := congrArg Stdio.stdin h.tracks
    have last := inputOf_redirected input answered quiet
    have sized : sizes (done ++ [(c, r)]) = sizes done ++ [c.asked] := by simp [sizes]
    have got : inputs (done ++ [(c, r)]) = inputs done ++ [c.inputOf r] := by simp [inputs]
    rw [sized, got, chunks_concat, last, delivered_eq_flatten, h.reads]
  console := by
    have input : k.io.stdio.stdin.isSome = true := by
      rw [congrArg Stdio.stdin h.tracks]
      rfl
    rw [(dispatch_taken answered quiet).1 (.inl input), h.console]

/-- Before each step of a run, when no exec has been called yet, and after it. -/
theorem inOrder_steps {data : Bytes}
    (h : childRun sys depth k path args env (some data) cap = some ran)
    {pre post : List (Program.Step Syscall Reply Kernel)} {st : Program.Step Syscall Reply Kernel}
    (split : ran.steps = pre ++ st :: post) (noExec : ∀ st' ∈ pre ++ [st], st'.call.isExec = false) :
    InOrder data cap.isSome k.console.taken (Program.callsOf (pre ++ [st])) st.after := by
  obtain ⟨started, entry, -, -, ended⟩ := childRun_eq_some.mp h
  have quiet : ∀ st' ∈ pre ++ [st], st'.call.entersExec = false :=
    fun st' hst => entersExec_of_isExec (noExec st' hst)
  obtain ⟨before, answered⟩ := Program.run_invariant_before
    (I := InOrder data cap.isSome k.console.taken) (P := fun c => c.entersExec = false)
    (fun _ _ _ _ _ quiet answered held => held.step quiet answered)
    ⟨tracks_start k (some data) cap started, rfl, rfl⟩ ended split
    fun st' h' => quiet st' (List.mem_append_left _ h')
  rw [Program.callsOf_append]
  exact before.step (quiet st (by simp)) answered

/-- The calls made so far, as long as none of them is an exec. -/
theorem inputs_eq_chunks {data : Bytes}
    (h : childRun sys depth k path args env (some data) cap = some ran)
    {done post : List (Program.Step Syscall Reply Kernel)} (split : ran.steps = done ++ post)
    (noExec : ∀ st ∈ done, st.call.isExec = false) :
    inputs (Program.callsOf done) =
      chunks (sizes (Program.callsOf done)) (data.take maxIoStdin) := by
  rcases List.eq_nil_or_concat' done with rfl | ⟨pre, st, rfl⟩
  · rfl
  · exact (inOrder_steps h (by simpa using split) noExec).reads

/-! ### What this says of one read -/

section Reads

variable {data : Bytes} {done pre post : List (Syscall × Reply)} {len : Nat} {reply : Reply}

theorem read_of_chunks (inOrder : inputs done = chunks (sizes done) data)
    (split : done = pre ++ (.read 0 (some len), reply) :: post) :
    inputs pre = chunks (sizes pre) data ∧
      reply.data = (data.drop (delivered pre).length).take len ∧
      inputs post = chunks (sizes post) (data.drop ((delivered pre).length + len)) := by
  have sized : sizes done = sizes pre ++ (len :: sizes post) := by
    rw [split]
    simp [sizes, Syscall.asked]
  have got : inputs done = inputs pre ++ (reply.data :: inputs post) := by
    rw [split]
    simp [inputs, Syscall.inputOf]
  rw [got, sized] at inOrder
  exact chunks_middle inOrder (by simp [inputs, sizes])

/-- A read that asks and gets nothing has found the end, and so do all later ones. -/
theorem read_at_end (inOrder : inputs done = chunks (sizes done) data)
    (split : done = pre ++ (.read 0 (some len), reply) :: post) (asks : 0 < len)
    (nothing : reply.data = []) :
    delivered pre = data ∧ ∀ cr ∈ post, cr.1.inputOf cr.2 = [] := by
  obtain ⟨front, part, back⟩ := read_of_chunks inOrder split
  have ended : delivered pre = data := by
    rw [delivered_eq_flatten] at part ⊢
    rw [front] at part ⊢
    exact flatten_of_empty asks (part.symm.trans nothing)
  refine ⟨ended, fun cr hcr => ?_⟩
  have beyond : data.drop ((delivered pre).length + len) = [] := by
    rw [ended]
    exact List.drop_of_length_le (Nat.le_add_right _ _)
  rw [beyond] at back
  have member : cr.1.inputOf cr.2 ∈ inputs post := List.mem_map_of_mem hcr
  rw [back] at member
  exact chunks_nil _ _ member

/-- What a read returns is how many bytes it wrote to the buffer. -/
theorem read_ret {ran : Program.Ran Syscall Reply Kernel Nat} {stdin : Option Bytes}
    (h : childRun sys depth k path args env stdin cap = some ran)
    (called : (.read 0 (some len), reply) ∈ ran.calls) : reply.ret = reply.data.length := by
  obtain ⟨started, entry, -, -, ended⟩ := childRun_eq_some.mp h
  obtain ⟨pre, post, split⟩ := List.append_of_mem called
  obtain ⟨spre, st, spost, steps, -, same⟩ := callsOf_split split
  have answered := Program.run_answered ended steps
  obtain ⟨call, rfl⟩ := Prod.mk.inj same
  rw [call] at answered
  have answer : (sysRead st.before 0 (some len)).1 = st.reply :=
    congrArg Prod.fst (Option.some.inj answered)
  rw [← answer]
  exact sysRead_ret ..

end Reads

/-- Redirected input is read in order, whatever the sizes asked for and whatever ran before: up to
any point before an exec the calls got the successive parts of the first 4096 bytes, with 0 from
the end on, and the console was not asked. -/
theorem redirected_input_in_order (sys : System) (depth : Nat) (k : Kernel)
    (path args env data : Bytes) (cap : Option Nat) (ran : Program.Ran Syscall Reply Kernel Nat)
    (h : childRun sys depth k path args env (some data) cap = some ran)
    (done post : List (Program.Step Syscall Reply Kernel)) (split : ran.steps = done ++ post)
    (noExec : ∀ st ∈ done, st.call.isExec = false) :
    inputs (Program.callsOf done) =
        chunks (sizes (Program.callsOf done)) (data.take maxIoStdin) ∧
      (∀ pre len reply later, Program.callsOf done = pre ++ (.read 0 (some len), reply) :: later →
        reply.data = ((data.take maxIoStdin).drop (delivered pre).length).take len ∧
        reply.ret = min len ((data.take maxIoStdin).length - (delivered pre).length) ∧
        (0 < len → reply.ret = 0 → delivered pre = data.take maxIoStdin ∧
          ∀ len' reply', (.read 0 (some len'), reply') ∈ later →
            reply'.ret = 0 ∧ reply'.data = [])) ∧
      delivered (Program.callsOf done) <+: data.take maxIoStdin ∧
      ∀ st ∈ done, st.after.console.taken = k.console.taken := by
  have inOrder := inputs_eq_chunks h split noExec
  refine ⟨inOrder, ?_, ?_, ?_⟩
  · intro pre len reply later at_
    -- A read returns how much it wrote, so 0 means that there was nothing
    have counted : ∀ len' reply', (.read 0 (some len'), reply') ∈ Program.callsOf done →
        reply'.ret = reply'.data.length := by
      intro len' reply' called
      refine read_ret h (?_ : (.read 0 (some len'), reply') ∈ ran.calls)
      rw [Program.Ran.calls, split, Program.callsOf_append]
      exact List.mem_append_left _ called
    have ret := counted len reply (by rw [at_]; simp)
    obtain ⟨-, part, -⟩ := read_of_chunks inOrder at_
    refine ⟨part, ?_, ?_⟩
    · rw [ret, part, List.length_take, List.length_drop]
    · intro asks zero
      have nothing : reply.data = [] := List.eq_nil_of_length_eq_zero (ret.symm.trans zero)
      -- Behind the end there is nothing for any later read
      obtain ⟨ended, rest⟩ := read_at_end inOrder at_ asks nothing
      refine ⟨ended, fun len' reply' called => ?_⟩
      have empty : reply'.data = [] := rest _ called
      refine ⟨?_, empty⟩
      rw [counted len' reply' (by rw [at_]; simp [called]), empty]
      rfl
  · rw [delivered_eq_flatten, inOrder, flatten_chunks]
    exact List.take_prefix ..
  · intro st hst
    obtain ⟨pre, later, rfl⟩ := List.append_of_mem hst
    -- The steps up to this one are no execs, so the console is as it was
    have calm : ∀ st' ∈ pre ++ [st], st'.call.isExec = false := by
      intro st' hst'
      refine noExec st' ?_
      simp only [List.mem_append, List.mem_cons] at hst' ⊢
      tauto
    exact (inOrder_steps h (by simpa using split) calm).console

/-- Reads one byte, then up to five, then one more. -/
def threeReads : List Syscall := [.read 0 (some 1), .read 0 (some 5), .read 0 (some 1)]

theorem redirected_input_in_order_cat :
    ∃ ran, catRun threeReads = some ran ∧ inputs ran.calls = [str "a", str "b", []] ∧
      delivered ran.calls <+: str "ab" := by
  obtain ⟨ran, hran⟩ := Option.isSome_iff_exists.mp
    (by decide +kernel : (catRun threeReads).isSome = true)
  have facts : (catRun threeReads).all (fun ran =>
      (ran.steps.all fun st => !st.call.isExec) && sizes ran.calls == [1, 5, 1]) = true := by
    decide +kernel
  rw [hran] at facts
  simp only [Option.all_some, Bool.and_eq_true, List.all_eq_true, Bool.not_eq_true', beq_iff_eq]
    at facts
  obtain ⟨inOrder, -, whole, -⟩ := redirected_input_in_order _ _ _ _ _ _ _ _ ran hran ran.steps []
    (by simp) facts.1
  have parts : chunks [1, 5, 1] ((str "ab").take maxIoStdin) = [str "a", str "b", []] := by decide
  rw [show sizes (Program.callsOf ran.steps) = [1, 5, 1] from facts.2, parts] at inOrder
  exact ⟨ran, hran, inOrder, whole⟩

end Smultron
