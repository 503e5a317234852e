import Smultron.Properties.Redirection

/-!
# One program under `exec_with_io`

What the history gains when a program that makes no nested exec is run: what it read, what was
captured of its output, and how many bytes it took from the console.
-/

namespace Smultron

open Memory Process Checked

/-- The call asks for at least one byte of the input. -/
def Syscall.asks : Syscall → Bool
  | .read fd (some len) => fd == 0 && 0 < len
  | _ => false

/-- Some call of the run asks for input. -/
def ProcessRun.asks (r : ProcessRun) : Bool := r.calls.any (·.1.asks)

variable {sys : System} {run : Runner} {depth : Nat} {k k' : Kernel} {c : Syscall} {r : Reply}
  {path args env : Bytes} {stdin : Option Bytes} {cap : Option Nat}
  {ran : Program.Ran Syscall Reply Kernel Nat}

/-! ### One call -/

theorem foldl_put_keys (bytes : Bytes) (console : Console) :
    (bytes.foldl .put console).input = console.input ∧
      (bytes.foldl .put console).taken = console.taken := by
  induction bytes generalizing console with
  | nil => exact ⟨rfl, rfl⟩
  | cons b bytes ih => exact ih _

theorem sysWrite_frame (k : Kernel) (fd : Nat) (buf : Option Bytes) :
    (sysWrite k fd buf).2.history = k.history ∧
      (sysWrite k fd buf).2.console.input = k.console.input ∧
      (sysWrite k fd buf).2.console.taken = k.console.taken := by
  rw [sysWrite_eq]
  split
  · exact ⟨rfl, rfl, rfl⟩
  · split
    · exact ⟨rfl, rfl, rfl⟩
    · exact ⟨rfl, foldl_put_keys _ _⟩

theorem sysRead_history (k : Kernel) (fd : Nat) (buf : Option Nat) :
    (sysRead k fd buf).2.history = k.history := by
  simp only [sysRead]
  split
  · rfl
  · split
    · rfl
    split
    · rfl
    · rfl

theorem sysRead_taken (k : Kernel) (fd : Nat) (buf : Option Nat) :
    (k.io.stdio.stdin.isSome = true ∨ (Syscall.read fd buf).asks = false →
      (sysRead k fd buf).2.console.taken = k.console.taken) ∧
    (k.io.stdio.stdin = none → (Syscall.read fd buf).asks = true →
      k.console.taken < (sysRead k fd buf).2.console.taken) := by
  constructor
  · rintro (redirected | idle)
    · -- The bytes come from the buffer alone
      obtain ⟨rest, stdin⟩ := Option.isSome_iff_exists.mp redirected
      obtain ⟨io', after, -⟩ := sysRead_redirected stdin fd buf
      rw [after]
    · cases buf with
      | none => rfl
      | some len =>
        rw [sysRead]
        by_cases wrong : fd ≠ 0
        · simp [wrong]
        · have empty : len = 0 := by
            simpa [Syscall.asks, not_not.mp wrong] using idle
          simp [wrong, empty]
  · intro stdin asks
    cases buf with
    | none => cases asks
    | some len =>
      have asked : fd = 0 ∧ 0 < len := by simpa [Syscall.asks] using asks
      obtain ⟨rfl, some⟩ := asked
      have notEmpty : len ≠ 0 := by omega
      -- The loop asks the console at least once
      obtain ⟨bytes, console, looped, -, -, -, taken⟩ := readLoop_console len k.console stdin
      simp only [sysRead, ne_eq, not_true_eq_false, if_false, notEmpty, looped]
      omega

theorem dispatch_history (answered : dispatch sys run c k = some (r, k'))
    (quiet : c.entersExec = false) : k'.history = k.history := by
  rcases dispatch_cases answered quiet with ⟨fd, buf, rfl, read⟩ | ⟨fd, buf, rfl, wrote⟩ |
      ⟨-, -, ram, rfl⟩
  · rw [← sysRead_history k fd buf, read]
  · rw [← (sysWrite_frame k fd buf).1, wrote]
  · rfl

theorem dispatch_taken (answered : dispatch sys run c k = some (r, k'))
    (quiet : c.entersExec = false) :
    (k.io.stdio.stdin.isSome = true ∨ c.asks = false → k'.console.taken = k.console.taken) ∧
      (k.io.stdio.stdin = none → c.asks = true → k.console.taken < k'.console.taken) := by
  rcases dispatch_cases answered quiet with ⟨fd, buf, rfl, read⟩ | ⟨fd, buf, rfl, wrote⟩ |
      ⟨-, input, ram, rfl⟩
  · have both := sysRead_taken k fd buf
    rw [read] at both
    exact both
  · have same := (sysWrite_frame k fd buf).2.2
    rw [wrote] at same
    exact ⟨fun _ => same, fun _ asks => by cases asks⟩
  · refine ⟨fun _ => rfl, fun stdin asks => ?_⟩
    -- The third case leaves open that the call is a read
    cases c with
    | read fd buf =>
      have took := (sysRead_taken k fd buf).2 stdin asks
      have same : sysRead k fd buf = (r, { k with ram }) := Option.some.inj answered
      rwa [same] at took
    | _ => cases asks

theorem dispatch_idle (answered : dispatch sys run c k = some (r, k'))
    (quiet : c.entersExec = false) (idle : c.asks = false) : c.inputOf r = [] := by
  rcases dispatch_cases answered quiet with ⟨fd, buf, rfl, read⟩ | ⟨fd, buf, rfl, -⟩ |
      ⟨-, nothing, -⟩
  · obtain rfl : (sysRead k fd buf).1 = r := congrArg Prod.fst read
    cases buf with
    | none => rfl
    | some len =>
      by_cases wrong : fd ≠ 0
      · simp [Syscall.inputOf, sysRead, wrong, Reply.failed, Reply.value]
      · have empty : len = 0 := by simpa [Syscall.asks, not_not.mp wrong] using idle
        simp [Syscall.inputOf, sysRead, wrong, empty, Reply.value]
  · rfl
  · exact nothing

/-! ### The run of a child -/

/-- The bytes of a beginning, and those that come next, are a beginning. -/
theorem prefix_append_take {α : Type} {front data : List α} (h : front <+: data) (n : Nat) :
    front ++ (data.drop front.length).take n <+: data := by
  obtain ⟨rest, rfl⟩ := h
  rw [List.drop_left]
  exact (List.prefix_append_right_inj front).mpr (List.take_prefix n rest)

theorem delivered_step {data : Bytes} (short : data.length ≤ maxIoStdin) {capture : Bool}
    {done : List (Syscall × Reply)} (quiet : c.entersExec = false)
    (answered : dispatch sys run c k = some (r, k')) (tracks : Tracks (some data) capture done k)
    (so_far : delivered done <+: data) : delivered (done ++ [(c, r)]) <+: data := by
  have input : k.io.stdio.stdin = some (data.drop (delivered done).length) := by
    rw [congrArg Stdio.stdin tracks, Option.map_some, Option.map_some, List.take_of_length_le short]
  rw [delivered_append, delivered_singleton]
  rcases dispatch_cases answered quiet with ⟨fd, buf, rfl, read⟩ | ⟨fd, buf, rfl, -⟩ |
      ⟨-, nothing, -⟩
  · obtain ⟨io', -, bytes, -⟩ := sysRead_redirected input fd buf
    rw [read] at bytes
    have got : (Syscall.read fd buf).inputOf r =
        if fd = 0 then (data.drop (delivered done).length).take (buf.getD 0) else [] := bytes
    rw [got]
    split
    · exact prefix_append_take so_far _
    · rwa [List.append_nil]
  · have got : (Syscall.write fd buf).inputOf r = [] := rfl
    rwa [got, List.append_nil]
  · rwa [nothing, List.append_nil]

section Run

variable (h : childRun sys depth k path args env stdin cap = some ran)
  (noExec : ∀ st ∈ ran.steps, st.call.isExec = false)

include noExec in
theorem childRun_quiet : ∀ st ∈ ran.steps, st.call.entersExec = false :=
  fun st hst => entersExec_of_isExec (noExec st hst)

include h noExec

theorem childRun_history : ran.state.history = k.history := by
  obtain ⟨started, entry, -, -, ended⟩ := childRun_eq_some.mp h
  exact Program.run_keeps (I := fun k' => k'.history = k.history)
    (P := fun c => c.entersExec = false)
    (fun _ _ _ _ quiet answered held => (dispatch_history answered quiet).trans held)
    rfl ended (childRun_quiet noExec)

/-- With redirected input the console is not asked. -/
theorem childRun_redirected_taken (redirected : stdin.isSome = true) :
    ran.state.console.taken = k.console.taken := by
  obtain ⟨started, entry, -, -, ended⟩ := childRun_eq_some.mp h
  have both := Program.run_invariant
    (I := fun done k' => Tracks stdin cap.isSome done k' ∧ k'.console.taken = k.console.taken)
    (P := fun c => c.entersExec = false)
    (fun done _ k₁ _ _ quiet answered held => by
      have input : k₁.io.stdio.stdin.isSome = true := by
        rw [congrArg Stdio.stdin held.1]
        simpa using redirected
      exact ⟨tracks_step quiet answered held.1,
        ((dispatch_taken answered quiet).1 (.inl input)).trans held.2⟩)
    ⟨tracks_start k stdin cap started, rfl⟩ ended (childRun_quiet noExec)
  exact both.2

/-- Without it, the console is asked exactly when the program asks. -/
theorem childRun_console_taken (console : stdin = none) :
    (ran.calls.any (·.1.asks) = false → ran.state.console.taken = k.console.taken) ∧
      (ran.calls.any (·.1.asks) = true → k.console.taken < ran.state.console.taken) := by
  obtain ⟨started, entry, -, -, ended⟩ := childRun_eq_some.mp h
  have both := Program.run_invariant
    (I := fun done k' => Tracks stdin cap.isSome done k' ∧
      (done.any (·.1.asks) = false → k'.console.taken = k.console.taken) ∧
      (done.any (·.1.asks) = true → k.console.taken < k'.console.taken) ∧
      k.console.taken ≤ k'.console.taken)
    (P := fun c => c.entersExec = false)
    (fun done c k₁ r k₂ quiet answered held => by
      obtain ⟨tracks, idle, asked, order⟩ := held
      have input : k₁.io.stdio.stdin = none := by
        rw [congrArg Stdio.stdin tracks, console]
        rfl
      obtain ⟨same, more⟩ := dispatch_taken answered quiet
      have last : (done ++ [(c, r)]).any (·.1.asks) = (done.any (·.1.asks) || c.asks) := by simp
      refine ⟨tracks_step quiet answered tracks, ?_⟩
      -- A call that asks moves the console on; the others leave it where it is.
      cases asks : c.asks with
      | false =>
        rw [last, asks, Bool.or_false, same (.inr asks)]
        exact ⟨idle, asked, order⟩
      | true =>
        have grown := more input asks
        have behind : k.console.taken < k₂.console.taken := by omega
        rw [last, asks, Bool.or_true]
        exact ⟨nofun, fun _ => behind, Nat.le_of_lt behind⟩)
    ⟨tracks_start k stdin cap started, fun _ => rfl, nofun, Nat.le_refl _⟩ ended
    (childRun_quiet noExec)
  exact ⟨both.2.1, both.2.2.1⟩

/-- A program that asks for nothing gets nothing. -/
theorem childRun_idle (idle : ran.calls.any (·.1.asks) = false) : delivered ran.calls = [] := by
  obtain ⟨started, entry, -, -, ended⟩ := childRun_eq_some.mp h
  have start : ([] : List (Syscall × Reply)).any (·.1.asks) = false → delivered [] = [] :=
    fun _ => rfl
  -- As long as nobody has asked, nothing has been delivered
  have step : ∀ done c (k₁ : Kernel) r (k₂ : Kernel), c.entersExec = false →
      dispatch sys (runImage sys depth) c k₁ = some (r, k₂) →
      (done.any (·.1.asks) = false → delivered done = []) →
      (done ++ [(c, r)]).any (·.1.asks) = false → delivered (done ++ [(c, r)]) = [] := by
    intro done c _ r _ quiet answered held idle
    rw [List.any_append, Bool.or_eq_false_iff] at idle
    have last : c.asks = false := by simpa using idle.2
    rw [delivered_append, held idle.1, delivered_singleton, dispatch_idle answered quiet last]
    rfl
  exact Program.run_invariant
    (I := fun done (_ : Kernel) => done.any (·.1.asks) = false → delivered done = [])
    step start ended (childRun_quiet noExec) idle

/-- The redirected input, read by read: what was delivered is a beginning of it, and every read
delivers the next bytes. -/
theorem childRun_reads {data : Bytes} (redirected : stdin = some data)
    (short : data.length ≤ maxIoStdin) :
    delivered ran.calls <+: data ∧
      ∀ pre len reply post, ran.calls = pre ++ (.read 0 (some len), reply) :: post →
        delivered pre <+: data ∧ reply.ret = reply.data.length ∧
          reply.data = (data.drop (delivered pre).length).take len := by
  subst redirected
  obtain ⟨started, entry, -, -, ended⟩ := childRun_eq_some.mp h
  -- The context follows the calls, and what they got is a beginning of the input
  have step : ∀ done c k₁ r k₂, c.entersExec = false →
      dispatch sys (runImage sys depth) c k₁ = some (r, k₂) →
      Tracks (some data) cap.isSome done k₁ ∧ delivered done <+: data →
      Tracks (some data) cap.isSome (done ++ [(c, r)]) k₂ ∧ delivered (done ++ [(c, r)]) <+: data :=
    fun _ _ _ _ _ quiet answered held =>
      ⟨tracks_step quiet answered held.1, delivered_step short quiet answered held.1 held.2⟩
  have start := tracks_start k (some data) cap started
  have quiet := childRun_quiet noExec
  refine ⟨(Program.run_invariant step ⟨start, List.nil_prefix⟩ ended quiet).2, ?_⟩
  intro pre len reply post split
  have reply_eq := read_reply h quiet split
  rw [List.take_of_length_le short] at reply_eq
  obtain ⟨spre, st, spost, steps, rfl, -⟩ := callsOf_split split
  obtain ⟨⟨-, so_far⟩, -⟩ := Program.run_invariant_before step
    ⟨start, List.nil_prefix⟩ ended steps fun st' h' => quiet st' (by rw [steps]; simp [h'])
  exact ⟨so_far, reply_eq⟩

end Run

/-! ### What the history gains -/

/-- The run was given `stdin`: a text is read in order and nothing else is, and without one it is
the console that answers. -/
structure ProcessRun.Reads (stdin : Option Bytes) (run : ProcessRun) : Prop where
  text : ∀ data, stdin = some data → run.taken = 0 ∧ delivered run.calls <+: data ∧
    ∀ pre len reply post, run.calls = pre ++ (.read 0 (some len), reply) :: post →
      delivered pre <+: data ∧ reply.ret = reply.data.length ∧
        reply.data = (data.drop (delivered pre).length).take len
  console : stdin = none → run.asks = true → 0 < run.taken
  idle : run.asks = false → run.taken = 0 ∧ delivered run.calls = []

theorem childRun_reads_of (h : childRun sys depth k path args env stdin cap = some ran)
    (noExec : ∀ st ∈ ran.steps, st.call.isExec = false)
    (short : ∀ data, stdin = some data → data.length ≤ maxIoStdin) (argBuf envBuf : Bytes) :
    ProcessRun.Reads stdin
      ⟨path, argBuf, envBuf, ran.calls, ran.result, ran.state.console.taken - k.console.taken⟩ where
  text := by
    intro data redirected
    have taken := childRun_redirected_taken h noExec (by rw [redirected]; rfl)
    obtain ⟨all, reads⟩ := childRun_reads h noExec redirected (short data redirected)
    exact ⟨by rw [taken, Nat.sub_self], all, reads⟩
  console := by
    intro console asks
    have taken := (childRun_console_taken h noExec console).2 asks
    exact Nat.sub_pos_of_lt taken
  idle := by
    intro idle
    refine ⟨?_, childRun_idle h noExec idle⟩
    cases redirected : stdin with
    | some data =>
      have taken := childRun_redirected_taken h noExec (by rw [redirected]; rfl)
      exact Nat.sub_eq_zero_of_le (Nat.le_of_eq taken)
    | none =>
      have taken := (childRun_console_taken h noExec redirected).1 idle
      exact Nat.sub_eq_zero_of_le (Nat.le_of_eq taken)

variable {status : Nat} {captured : Bytes}

/-- An exec starts nothing, or its program is the one thing the history gains. -/
theorem execWithIo_history (noExec : ∀ path a e, (sys.image path a e).Only (·.isExec = false))
    (short : ∀ data, stdin = some data → data.length ≤ maxIoStdin)
    (h : execWithIo sys (runImage sys depth) k path args env stdin cap =
      some (status, captured, k')) :
    (status = u64Max ∧ k'.history = k.history) ∨
      ∃ run : ProcessRun, k'.history = k.history ++ [run] ∧ run.path = path ∧
        run.status = status ∧ run.Reads stdin ∧
        ∀ c, cap = some c → captured = (written run.calls).take (min maxIoStdout c) := by
  cases begun : startProcess sys.images k.pm path args env with
  | error msg =>
    -- No process is started
    simp only [execWithIo, execInternal, begun] at h
    obtain ⟨rfl, rest⟩ := Prod.mk.inj (Option.some.inj h)
    obtain ⟨-, rfl⟩ := Prod.mk.inj rest
    exact .inl ⟨rfl, rfl⟩
  | ok started =>
    cases entered : started.entry with
    | panic =>
      simp only [execWithIo, execInternal, begun, entered] at h
      cases h
    | err msg =>
      -- The process ends before its image is entered
      simp only [execWithIo, execInternal, begun, entered] at h
      obtain ⟨rfl, rest⟩ := Prod.mk.inj (Option.some.inj h)
      obtain ⟨-, rfl⟩ := Prod.mk.inj rest
      exact .inl ⟨rfl, rfl⟩
    | ok entry =>
      -- The image is entered, so there must be depth left for its run
      cases depth with
      | zero =>
        simp only [execWithIo, execInternal, begun, entered, runImage] at h
        cases h
      | succ depth =>
        cases ended : (sys.image path entry.argBuf entry.envBuf).run
            (dispatch sys (runImage sys depth)) (childKernel k stdin cap started) with
        | none =>
          simp only [childKernel] at ended
          simp only [execWithIo, execInternal, begun, entered, runImage, ended] at h
          cases h
        | some ran =>
          have child : childRun sys depth k path args env stdin cap = some ran :=
            childRun_eq_some.mpr ⟨started, entry, begun, entered, ended⟩
          have quiet := (noExec path entry.argBuf entry.envBuf).steps ended
          simp only [childKernel] at ended
          simp only [execWithIo, execInternal, begun, entered, runImage, ended] at h
          obtain ⟨rfl, rest⟩ := Prod.mk.inj (Option.some.inj h)
          obtain ⟨rfl, rfl⟩ := Prod.mk.inj rest
          refine .inr ⟨_, ?_, rfl, rfl, childRun_reads_of child quiet short entry.argBuf
            entry.envBuf, ?_⟩
          · exact congrArg (· ++ _) (childRun_history child quiet)
          · rintro c rfl
            have final := congrArg Stdio.stdout (tracks_run child (childRun_quiet quiet))
            rw [tearDown_captured final, List.take_take, Nat.min_comm]

/-! ### A program that is not captured -/

theorem sent_console {start : Console} {done : List (Syscall × Reply)} (quiet : c.entersExec = false)
    (answered : dispatch sys run c k = some (r, k')) (uncaptured : k.io.stdio.stdout = none)
    (h : Sent start k.console (written done)) :
    Sent start k'.console (written (done ++ [(c, r)])) := by
  rw [written_append, written_singleton]
  rcases dispatch_console answered quiet with ⟨fd, buf, rfl, rfl⟩ | ⟨output, serial, vga⟩
  · rw [sysWrite_console fd buf (IoState.captureStdout_console uncaptured _)]
    exact sent_put h _
  · rw [output, List.append_nil]
    exact h.congr serial vga

/-- The console is sent what the program writes. -/
theorem childRun_sent (h : childRun sys depth k path args env stdin none = some ran)
    (noExec : ∀ st ∈ ran.steps, st.call.isExec = false) :
    Sent k.console ran.state.console (written ran.calls) := by
  obtain ⟨started, entry, -, -, ended⟩ := childRun_eq_some.mp h
  have both := Program.run_invariant
    (I := fun done k' => Tracks stdin false done k' ∧ Sent k.console k'.console (written done))
    (P := fun c => c.entersExec = false)
    (fun _ _ _ _ _ quiet answered held =>
      ⟨tracks_step quiet answered held.1,
        sent_console quiet answered (congrArg Stdio.stdout held.1) held.2⟩)
    ⟨tracks_start k stdin none started, sent_nil k.console⟩ ended (childRun_quiet noExec)
  exact both.2

/-- The history has gained one run, of the program at `path`, and the console what it wrote. -/
structure RanOnce (path out : Bytes) (k k' : Kernel) : Prop where
  history : ∃ run : ProcessRun, k'.history = k.history ++ [run] ∧ run.path = path ∧
    written run.calls = out
  console : Sent k.console k'.console out

theorem execWithIo_ranOnce (h : childRun sys depth k path args env stdin none = some ran)
    (noExec : ∀ st ∈ ran.steps, st.call.isExec = false) :
    ∃ captured k', execWithIo sys (runImage sys (depth + 1)) k path args env stdin none =
        some (ran.result, captured, k') ∧ RanOnce path (written ran.calls) k k' := by
  have sent := childRun_sent h noExec
  have before := childRun_history h noExec
  obtain ⟨started, entry, begun, entered, ended⟩ := childRun_eq_some.mp h
  simp only [childKernel] at ended
  simp only [execWithIo, execInternal, begun, entered, runImage, ended]
  exact ⟨_, _, rfl, ⟨_, congrArg (· ++ _) before, rfl, rfl⟩, sent⟩

end Smultron
