import Brainfuck.Invocation
import Brainfuck.Proofs.Accounting
import Brainfuck.Proofs.Stopping

/-! What comes of an invocation. The instructions that its run executed tell what it
wrote, byte by byte, and the way the run came to rest tells the exit code and the last
of stderr. -/

namespace Brainfuck

/-! ## What instructions write -/

/-- What an instruction sends to a sink: a `.` the current cell, a `,` the prompt. -/
def Executed.sent (prompt : String) (e : Executed) : Channel → List UInt8
  | .output => if e.command = .output then [e.cell] else []
  | .cue => if e.command = .input then utf8 prompt else []

theorem bytesTo_promptEvents (prompt : String) (c : Channel) :
    (Streams.promptEvents prompt).flatMap (Event.bytesTo c) =
      if c = .cue then utf8 prompt else [] := by
  cases hp : prompt.isEmpty with
  | true =>
    rw [String.isEmpty_iff] at hp
    subst hp
    cases c <;> rfl
  | false => cases c <;> simp [Streams.promptEvents, hp, Event.bytesTo]

theorem bytesTo_received (byte : Option UInt8) (c : Channel) :
    Event.bytesTo c (Streams.received byte) = [] := by
  cases byte <;> rfl

namespace Machine

variable {σ : Type} [Terminal σ] {m m' : Machine} {es : List Executed} {r : Ending}

theorem Transition.bytesTo_events {io io' : σ} {e : Executed}
    (ht : Transition m io (.executed e) m' io') (prompt : String) (c : Channel) :
    (e.effect.events prompt).flatMap (Event.bytesTo c) = e.sent prompt c := by
  cases ht with
  | executed _ _ ha =>
    cases ha with
    | input =>
      simp only [Effect.events, List.flatMap_append, bytesTo_promptEvents, List.flatMap_singleton,
        bytesTo_received, List.append_nil]
      cases c <;> rfl
    | _ => cases c <;> rfl

theorem Course.bytesTo_events {io io' : σ} (hc : m.Course io es r m' io') (prompt : String)
    (c : Channel) :
    ((es.map Deed.executed).flatMap (Deed.events prompt)).flatMap (Event.bytesTo c) =
      es.flatMap (·.sent prompt c) := by
  induction hc with
  | paused | halted | failed => rfl
  | executed ht _ ih =>
    rw [List.map_cons, List.flatMap_cons, List.flatMap_append, ih, List.flatMap_cons, Deed.events,
      ht.bytesTo_events]

/-- Nothing is read in silence. -/
theorem Course.reads_none {io io' : Silent} (hc : m.Course io es r m' io') {e : Executed}
    (he : e ∈ es) (hi : e.command = .input) : e.effect = .read none := by
  induction hc with
  | paused | halted | failed => cases he
  | executed ht _ ih =>
    rcases List.mem_cons.mp he with rfl | he
    · cases ht with
      | executed _ _ ha =>
        cases ha with
        | input _ hr =>
          cases hr
          rfl
        | _ => cases hi
    · exact ih he

/-- Where nothing can be read, a `,` meets the end of the input. -/
theorem trace_reads_none {P : σ → Prop} {io : σ} (hq : Terminal.Quiet P) (h : P io) {n : Nat}
    {e : Executed} (he : e ∈ (m.trace n io).1) (hi : e.command = .input) :
    e.effect = .read none := by
  obtain ⟨io', htr, -⟩ := trace_quiet hq h n m
  rw [htr] at he
  exact (course_trace n m Silent.mk).reads_none (Array.mem_toList_iff.mpr he) hi

/-! ## Streams that refuse nothing -/

section Faultless

variable {io io' : Streams}

/-- As long as nothing is refused, a program that is run comes to its end or to an error
of its own. -/
theorem Course.terminated_iff (hc : m.Course io es r m' io') (hs : m.status = .running)
    (h : io.Faultless) : m'.status = .terminated ↔ r = .halted := by
  induction hc with
  | paused => simp [hs]
  | executed ht _ ih =>
    cases ht with
    | executed _ _ ha => exact ih (ha.status_eq.trans hs) (ha.carries h).faultless
  | halted ht =>
    cases ht with
    | idle hs' => exact absurd hs hs'
    | ended => simp [stopped]
  | failed ht =>
    cases ht with
    | failed => simp [stopped]
    | endRefused _ _ he =>
      obtain ⟨t, ht, -⟩ := endLine_carries h
      cases ht.symm.trans he

theorem Course.passed_eq (hc : m.Course io es r m' io') (hs : m.status = .running)
    (h : io.Faultless) (hm : m'.Stands) :
    m.passed m' = if r = .halted then [.ended] else [] := by
  have hiff := hc.terminated_iff hs h
  have hend (ht : m'.status = .terminated) : m'.atEnd = true := by
    simp [atEnd, hm.terminated_iff.mp ht]
  have hpassed : m.status = .running ∧ m'.status = .terminated ∧ m'.atEnd = true ↔ r = .halted :=
    ⟨fun hp => hiff.mp hp.2.1, fun hr => ⟨hs, hiff.mpr hr, hend (hiff.mpr hr)⟩⟩
  simp only [passed, hpassed]

/-- The sinks hold what was in them, what the instructions sent, and the line feed from
the end of the program. -/
theorem Course.written_eq (hc : m.Course io es r m' io') (hs : m.status = .running)
    (h : io.Faultless) (hm : m'.Stands) (c : Channel) :
    io'.written c = io.written c ++
      (es.flatMap (·.sent io.prompt c) ++ if r = .halted ∧ c = .output then [10] else []) := by
  rw [(hc.carries h).written, hc.passed_eq hs h hm, List.flatMap_append, List.flatMap_append,
    hc.bytesTo_events]
  by_cases hr : r = .halted
  · cases c <;> simp [hr, Deed.events, Event.bytesTo]
  · simp [hr]

end Faultless

end Machine

/-! ## Invocations -/

namespace Ending

def code : Ending → Nat
  | .failed _ => 1
  | _ => 0

/-- What the command known as `name` says in the end about its program. -/
def report (name : String) (p : Program) : Ending → List UInt8
  | .failed f => utf8 (Report.render (some name) p.text f)
  | _ => []

end Ending

namespace Invocation

open Machine (load)

variable {i : Invocation} {m m' : Machine} {es : Array Executed} {r : Ending} {fuel : Nat}
  {s : Settings} {text : String}

theorem conclude_eq (hm : m'.program = m.program) (out err : List UInt8) :
    i.conclude m' out err r =
      if r = .paused then none else some ⟨r.code, out, err ++ r.report i.name m.program⟩ := by
  cases r <;> simp [conclude, Ending.code, Ending.report, hm]

theorem execute_debug (hd : s.debug = true)
    (h : (load text).trace fuel Silent.mk = (es, r, m', .mk)) :
    i.execute fuel s text = if r = .paused then none else
      some ⟨r.code, utf8 (Table.text es.toList), r.report i.name (load text).program⟩ := by
  obtain ⟨page, hprint, htaken⟩ := Table.print_unlimited fuel (load text)
  rw [h] at hprint htaken
  have hprogram := (Machine.trace_course h).program_eq
  simp only [execute, if_pos hd, hprint, htaken, conclude_eq hprogram, List.nil_append]

theorem execute_plain {io' : Streams} (hd : s.debug = false)
    (h : (load text).trace fuel (.ofInput (i.input s.source) s.prompt) = (es, r, m', io')) :
    i.execute fuel s text = if r = .paused then none else
      some ⟨r.code,
        es.toList.flatMap (·.sent s.prompt .output) ++ (if r = .halted then [10] else []),
        es.toList.flatMap (·.sent s.prompt .cue) ++ r.report i.name (load text).program⟩ := by
  have hc := Machine.trace_course h
  have hwritten := hc.written_eq rfl (Streams.faultless_ofInput _ _)
    (Machine.Reachable.load.course hc).stands
  have hrun : (load text).run fuel (.ofInput (i.input s.source) s.prompt) = (r, m', io') := by
    rw [← Machine.trace_snd, h]
  simp only [execute, hd, hrun, conclude_eq hc.program_eq, hwritten]
  simp [Streams.written, Streams.ofInput]

theorem execute_of_le {res : Result} {more : Nat} (h : i.execute fuel s text = some res)
    (hle : fuel ≤ more) : i.execute more s text = some res := by
  cases hd : s.debug with
  | true =>
    rcases htr : (load text).trace fuel Silent.mk with ⟨es, r, m', ⟨⟩⟩
    rw [execute_debug hd htr] at h
    have hr : r ≠ .paused := fun hr => by simp [hr] at h
    rw [execute_debug hd (Machine.trace_of_le htr hr hle), h]
  | false =>
    rcases htr : (load text).trace fuel (Streams.ofInput (i.input s.source) s.prompt) with
      ⟨es, r, m', io⟩
    rw [execute_plain hd htr] at h
    have hr : r ≠ .paused := fun hr => by simp [hr] at h
    rw [execute_plain hd (Machine.trace_of_le htr hr hle), h]

/-- A source that is not standard input leaves all of it alone. -/
theorem load_stdin_irrelevant {source : Source} (hs : source ≠ .stdin)
    (read : String → Except IoError (List UInt8)) (bytes bytes' : List UInt8) :
    source.load read bytes = source.load read bytes' := by
  cases source with
  | stdin => exact absurd rfl hs
  | inline | files => rfl

section Run

variable {a : Arguments} (h : CommandLine.parse i.args = .run a)

include h

theorem respond_of_load_refused {e : IoError}
    (he : (Settings.resolve a.source a.overrides i.env).source.load i.read i.stdin = .error e)
    (execute : Settings → String → Option Result) :
    i.respond execute = some ⟨1, [], utf8 (loadReport i.name e)⟩ := by
  simp only [respond, h, he]

theorem respond_of_loaded
    (htext : (Settings.resolve a.source a.overrides i.env).source.load i.read i.stdin = .ok text)
    (execute : Settings → String → Option Result) :
    i.respond execute = execute (Settings.resolve a.source a.overrides i.env) text := by
  simp only [respond, h, htext]

theorem result_of_loaded
    (htext : (Settings.resolve a.source a.overrides i.env).source.load i.read i.stdin = .ok text)
    (fuel : Nat) :
    i.result fuel = i.execute fuel (Settings.resolve a.source a.overrides i.env) text :=
  respond_of_loaded h htext _

end Run

/-- The bound decides whether there is a result yet, and not what it is. -/
theorem result_of_le {res : Result} {more : Nat} (h : i.result fuel = some res)
    (hle : fuel ≤ more) : i.result more = some res := by
  cases hp : CommandLine.parse i.args with
  | help | version | refused => simpa only [result, respond, hp] using h
  | run a =>
    cases hl : (Settings.resolve a.source a.overrides i.env).source.load i.read i.stdin with
    | error e =>
      rw [result, respond_of_load_refused hp hl] at h ⊢
      exact h
    | ok text =>
      rw [result_of_loaded hp hl] at h ⊢
      exact execute_of_le h hle

/-- **What comes of a run, from the instructions it executed.** Take a command line that
asks for a run. If the program cannot be loaded, that is all that is said, and the code is 1.
With the table, stdout holds the table of the instructions executed, nothing of stdin is
read, and no prompt is shown. Else stdout holds the bytes of the `.` instructions in their
order, with a line feed behind them if and only if the end of the program was reached, and
stderr a prompt for each `,`; a program that was itself read from stdin meets the end of the
input at each of them. In either case an error is reported at the end of stderr, after all
that was written before it, and the code tells whether there was one. -/
theorem result_of_run {a : Arguments} (h : CommandLine.parse i.args = .run a) (fuel : Nat) :
    let s := Settings.resolve a.source a.overrides i.env
    (∀ e, s.source.load i.read i.stdin = .error e → i.result fuel =
      some ⟨1, [], utf8 (i.name ++ ": failed to read program: " ++ e.message ++ "\n")⟩) ∧
    ∀ text, s.source.load i.read i.stdin = .ok text →
      let m := load text
      (s.debug = true → ∃ es r m', m.trace fuel Silent.mk = (es, r, m', .mk) ∧
        (i.result fuel = if r = .paused then none else
          some ⟨r.code, utf8 (Table.text es.toList), r.report i.name m.program⟩) ∧
        (∀ e ∈ es, e.command = .input → e.effect = .read none) ∧
        (s.source ≠ .stdin → ∀ bytes, { i with stdin := bytes }.result fuel = i.result fuel)) ∧
      (s.debug = false → ∃ es r m' io,
        m.trace fuel (Streams.ofInput (i.input s.source) s.prompt) = (es, r, m', io) ∧
        (r = .halted ↔ m'.ip = some m.program.size) ∧
        (i.result fuel = if r = .paused then none else
          some ⟨r.code,
            es.toList.flatMap (·.sent s.prompt .output) ++ (if r = .halted then [10] else []),
            es.toList.flatMap (·.sent s.prompt .cue) ++ r.report i.name m.program⟩) ∧
        (s.source = .stdin → ∀ e ∈ es, e.command = .input → e.effect = .read none)) := by
  intro s
  refine ⟨fun e he => respond_of_load_refused h he _, fun text htext => ⟨fun hd => ?_, fun hd => ?_⟩⟩
  · rcases htr : (load text).trace fuel Silent.mk with ⟨es, r, m', ⟨⟩⟩
    have hresult := (result_of_loaded h htext fuel).trans (execute_debug hd htr)
    refine ⟨es, r, m', rfl, hresult, fun e he hi => ?_, fun hs bytes => ?_⟩
    · exact (Machine.trace_course htr).reads_none (Array.mem_toList_iff.mpr he) hi
    · have htext' := (load_stdin_irrelevant hs i.read bytes i.stdin).trans htext
      exact (result_of_loaded (i := { i with stdin := bytes }) h htext' fuel).trans
        ((execute_debug hd htr).trans hresult.symm)
  · rcases htr : (load text).trace fuel (Streams.ofInput (i.input s.source) s.prompt) with
      ⟨es, r, m', io⟩
    have hc := Machine.trace_course htr
    have hstands := (Machine.Reachable.load.course hc).stands
    refine ⟨es, r, m', io, rfl, ?_, ?_, fun hs e he hi => ?_⟩
    · rw [← hc.terminated_iff rfl (Streams.faultless_ofInput _ _), hstands.terminated_iff,
        hc.program_eq]
    · exact (result_of_loaded h htext fuel).trans (execute_plain hd htr)
    · have hnothing : (Streams.ofInput (i.input s.source) s.prompt).input.pending = [] := by
        rw [hs]
        rfl
      have hmem : e ∈ ((load text).trace fuel (Streams.ofInput (i.input s.source) s.prompt)).1 := by
        rwa [htr]
      exact Machine.trace_reads_none Streams.quiet ⟨Streams.faultless_ofInput _ _, hnothing⟩ hmem hi

/-- A byte is read and put out before the program, given in two parts, goes wrong. -/
theorem result_of_run_output_before_error :
    ∃ (i : Invocation) (a : Arguments),
      (i = ⟨"bf", ["--prompt", "? ", "-e", ",.", "-e", "+x"], fun _ => none,
          fun _ => .error .notFound, [65, 66]⟩ ∧
        CommandLine.parse i.args = .run a) ∧
      i.result 9 = some ⟨1, [65],
        utf8 "? bf: Invalid command 'x' at instruction 3\n  ,.+x\n     ^\n"⟩ := by
  obtain ⟨i, hi⟩ : ∃ i : Invocation, i = ⟨"bf", ["--prompt", "? ", "-e", ",.", "-e", "+x"],
    fun _ => none, fun _ => .error .notFound, [65, 66]⟩ := ⟨_, rfl⟩
  have h : CommandLine.parse i.args = .run ⟨false, some "? ", [",.", "+x"], []⟩ := by
    rw [hi]
    decide +kernel
  have hrun : let t := (load ",.+x").trace 9 (Streams.ofInput [65, 66] "? ")
      t.2.1 = .failed (.invalidCommand 'x' 3) ∧
        t.1.toList.flatMap (·.sent "? " .output) = [65] ∧
        t.1.toList.flatMap (·.sent "? " .cue) ++ t.2.1.report "bf" (load ",.+x").program =
          utf8 "? bf: Invalid command 'x' at instruction 3\n  ,.+x\n     ^\n" := by
    decide +kernel
  obtain ⟨es, r, m', io, htr, -, hresult, -⟩ :=
    ((result_of_run h 9).2 ",.+x" rfl).2 (by subst hi; rfl)
  subst hi
  rw [show (load ",.+x").trace 9 (Streams.ofInput [65, 66] "? ") = _ from htr] at hrun
  obtain ⟨rfl, hout, hcue⟩ := hrun
  refine ⟨_, _, ⟨rfl, h⟩, hresult.trans ?_⟩
  rw [if_neg nofun, Option.some_inj, Result.mk.injEq]
  exact ⟨rfl, (List.append_nil _).trans hout, hcue⟩

end Invocation

end Brainfuck
