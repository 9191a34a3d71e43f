import Brainfuck.Proofs.LoopStack
import Brainfuck.Proofs.Transcript

/-! Streams that break. A run over streams with faults is held against the run of
the same program over the same input without them. The two are in step (`Twin`)
until something is refused. The refusal then is the last thing that happens: the
step in question fails where it stands, and all that went through the streams is
the beginning of what goes through them without faults (`Cut`).

The argument does not look at instructions. It is enough that a machine gives up
at the first refusal (`turn_givesUp`); any dialogue that does so with its
terminal may be held with both streams at once. -/

namespace Brainfuck

/-- Whether a stream refused what it was asked for. -/
def Event.isRefusal : Event → Bool
  | writeRefused _ | flushRefused _ | readRefused => true
  | wrote _ _ | flushed _ | read _ | inputEnded => false

theorem Event.bytesTo_of_isRefusal {e : Event} (h : e.isRefusal = true) (c : Channel) :
    e.bytesTo c = [] := by
  cases e <;> first | rfl | cases h

theorem Event.byteRead?_of_isRefusal {e : Event} (h : e.isRefusal = true) :
    e.byteRead? = none := by
  cases e <;> first | rfl | cases h

/-- Where streams break, and what they refuse with. A `Writer` says so of a sink;
`allowance` is the number of bytes that can be read. Reads may also be
interrupted, which is no fault. -/
structure Faults where
  output : Writer
  cue : Writer
  allowance : Option Nat
  readFault : IoError
  delays : Nat → Nat

namespace Streams

/-- Streams over the given input that break as `f` says. -/
def ofFaults (bytes : List UInt8) (prompt : String) (f : Faults) : Streams where
  input := { Reader.ofBytes bytes with
    allowance := f.allowance, fault := f.readFault, delays := f.delays }
  output := f.output
  cue := f.cue
  prompt := prompt
  transcript := #[]

def Refused (s : Streams) : Prop := ∃ e ∈ s.transcript.toList, e.isRefusal = true

variable {α β : Type} {s s₀ t t₀ u : Streams} {w w₀ : Writer} {c : Channel} {e : Event}

theorem not_refused_iff : ¬ s.Refused ↔ ∀ e ∈ s.transcript.toList, e.isRefusal = false := by
  simp [Refused]

theorem refused_record (s : Streams) (e : Event) :
    (s.record e).Refused ↔ s.Refused ∨ e.isRefusal = true := by
  simp [Refused, record, or_and_right, exists_or]

theorem refused_setSink (s : Streams) (w : Writer) (c : Channel) :
    (s.setSink w c).Refused ↔ s.Refused := by
  rw [Refused, transcript_setSink, Refused]

/-! ## Twins -/

/-- Streams that refuse nothing. -/
structure Faultless (s : Streams) : Prop where
  room (c : Channel) : (s.sink c).room = none
  flushes (c : Channel) : (s.sink c).flushes = none
  allowance : s.input.allowance = none

/-- `s₀` has no faults, and so far nothing tells `s` from it. -/
structure Twin (s s₀ : Streams) : Prop where
  prompt : s.prompt = s₀.prompt
  pending : s.input.pending = s₀.input.pending
  transcript : s.transcript = s₀.transcript
  unrefused : ¬ s.Refused
  faultless : s₀.Faultless

theorem Faultless.setSink (h : s.Faultless) (hr : w.room = none) (hf : w.flushes = none) :
    (s.setSink w c).Faultless where
  room c' := by
    cases c <;> cases c'
    · exact hr
    · exact h.room .cue
    · exact h.room .output
    · exact hr
  flushes c' := by
    cases c <;> cases c'
    · exact hf
    · exact h.flushes .cue
    · exact h.flushes .output
    · exact hf
  allowance := by cases c <;> exact h.allowance

theorem Twin.setSink (h : s.Twin s₀) (w : Writer) (hr : w₀.room = none)
    (hf : w₀.flushes = none) : (s.setSink w c).Twin (s₀.setSink w₀ c) where
  prompt := by cases c <;> exact h.prompt
  pending := by cases c <;> exact h.pending
  transcript := by rw [transcript_setSink, transcript_setSink, h.transcript]
  unrefused := by rw [refused_setSink]; exact h.unrefused
  faultless := h.faultless.setSink hr hf

theorem Twin.record (h : s.Twin s₀) (he : e.isRefusal = false) :
    (s.record e).Twin (s₀.record e) where
  prompt := h.prompt
  pending := h.pending
  transcript := by rw [Streams.record, h.transcript, Streams.record]
  unrefused := by simp [refused_record, h.unrefused, he]
  faultless := ⟨h.faultless.room, h.faultless.flushes, h.faultless.allowance⟩

theorem Twin.took (h : s.Twin s₀) (w : Writer) (bytes : List UInt8) (hr : w₀.room = none)
    (hf : w₀.flushes = none) : (s.took c w bytes).Twin (s₀.took c w₀ bytes) := by
  unfold Streams.took
  split
  · exact h.setSink w hr hf
  · exact (h.setSink w hr hf).record rfl

theorem Twin.advance (h : s.Twin s₀) (ha : s.input.allowance ≠ some 0) :
    { s with input := s.input.advance }.Twin { s₀ with input := s₀.input.advance } where
  prompt := h.prompt
  pending := by
    have ha₀ : s₀.input.allowance ≠ some 0 := by simp [h.faultless.allowance]
    show s.input.advance.pending = s₀.input.advance.pending
    rw [Reader.pending_advance ha, Reader.pending_advance ha₀, h.pending]
  transcript := h.transcript
  unrefused := h.unrefused
  faultless := ⟨h.faultless.room, h.faultless.flushes,
    Reader.allowance_advance h.faultless.allowance⟩

/-! ## Streams cut short -/

/-- `t` ends with its only refusal. Before that it has what `t₀` has, down to the
beginning of what a refused write would have written. -/
structure Cut (t t₀ : Streams) : Prop where
  last : ∃ past part e, t.transcript.toList = past ++ part ++ [e] ∧ e.isRefusal = true ∧
    (∀ e' ∈ past, e'.isRefusal = false) ∧ past <+: t₀.transcript.toList ∧
    (part = [] ∨ ∃ c bytes, part = [.wrote c bytes] ∧ e = .writeRefused c)
  written (c : Channel) : t.written c <+: t₀.written c
  consumed : t.consumed <+: t₀.consumed

theorem Cut.mono (h : t.Cut t₀) (hb : t₀.Before u) : t.Cut u where
  last := by
    obtain ⟨past, part, e, ht, he, hc, hp, hw⟩ := h.last
    exact ⟨past, part, e, ht, he, hc, hp.trans hb, hw⟩
  written c := (h.written c).trans (hb.written c)
  consumed := h.consumed.trans hb.consumed

theorem Cut.refused (h : t.Cut t₀) : t.Refused := by
  obtain ⟨past, part, e, ht, he, -⟩ := h.last
  exact ⟨e, by simp [ht], he⟩

/-- The two ways for one exchange to go on `s` and `s₀`: with one answer on both,
or with a refusal on `s`, which is answered as `Q` says. -/
inductive Alike (Q : α → Prop) : α × Streams → α × Streams → Prop where
  | same {a : α} {t t₀ : Streams} (h : t.Twin t₀) : Alike Q (a, t) (a, t₀)
  | cut {a : α} {t : Streams} {p₀ : α × Streams} (ha : Q a) (h : t.Cut p₀.2) : Alike Q (a, t) p₀

/-- A refusal, as an operation reports it. -/
def Refusal (a : Except IoError β) : Prop := ∃ e, a = .error e

/-- A refusal that leaves nothing but itself. -/
theorem Twin.cut_of_record (h : s.Twin s₀) (ht : t.transcript = s.transcript)
    (he : e.isRefusal = true) (hb : s₀.Before t₀) : (t.record e).Cut t₀ := by
  have hpast : s.Before t₀ := by
    rw [Before, h.transcript]
    exact hb
  refine ⟨⟨s.transcript.toList, [], e, ?_, he, not_refused_iff.mp h.unrefused, hpast, .inl rfl⟩,
    ?_, ?_⟩
  · simp [Streams.record, ht]
  · intro c
    rw [written_record, Event.bytesTo_of_isRefusal he, List.append_nil, Streams.written, ht]
    exact hpast.written c
  · rw [consumed_record, Event.byteRead?_of_isRefusal he, Option.toList_none, List.append_nil,
      Streams.consumed, ht]
    exact hpast.consumed

/-- A write that is taken in part. -/
theorem Twin.cut_of_took (h : s.Twin s₀) (w w₀ : Writer) {bytes bytes₀ : List UInt8}
    (hp : bytes <+: bytes₀) :
    ((s.took c w bytes).record (.writeRefused c)).Cut (s₀.took c w₀ bytes₀) := by
  have hpast : s.Before (s₀.took c w₀ bytes₀) := by
    rw [Before, h.transcript]
    exact s₀.before_took c w₀ bytes₀
  refine ⟨⟨s.transcript.toList, if bytes.isEmpty then [] else [.wrote c bytes], .writeRefused c,
    ?_, rfl, not_refused_iff.mp h.unrefused, hpast, ?_⟩, ?_, ?_⟩
  · rw [← transcript_took s c w]
    simp [Streams.record]
  · split
    · exact .inl rfl
    · exact .inr ⟨c, bytes, rfl, rfl⟩
  · intro c'
    have hw : s.written c' = s₀.written c' := by rw [Streams.written, h.transcript, Streams.written]
    rw [written_record, Event.bytesTo_of_isRefusal rfl, List.append_nil, written_took,
      written_took, hw, List.prefix_append_right_inj]
    split
    · exact hp
    · exact List.prefix_rfl
  · rw [consumed_record, Event.byteRead?_of_isRefusal rfl, Option.toList_none, List.append_nil,
      consumed_took]
    exact hpast.consumed

theorem Twin.send (h : s.Twin s₀) (c : Channel) (bytes : List UInt8) :
    Alike Refusal (s.send c bytes) (s₀.send c bytes) := by
  have hf₀ : (s₀.sink c).fits bytes = true := by simp [Writer.fits, h.faultless.room]
  have hr : ((s₀.sink c).write bytes).2.room = none := by simp [Writer.write, h.faultless.room]
  have hf : ((s₀.sink c).write bytes).2.flushes = none := h.faultless.flushes c
  rw [send_eq, send_eq, if_pos hf₀]
  split
  · exact .same (h.took _ bytes hr hf)
  · exact .cut ⟨_, rfl⟩ (h.cut_of_took _ _ (Writer.accepted_prefix _ bytes))

theorem Twin.flushSink (h : s.Twin s₀) (c : Channel) :
    Alike Refusal (s.flushSink c) (s₀.flushSink c) := by
  have hr : (s₀.sink c).flush.2.room = none := h.faultless.room c
  have hf : (s₀.sink c).flush.2.flushes = none := by simp [Writer.flush, h.faultless.flushes]
  have hb := s₀.before_flushSink c
  by_cases h0 : (s.sink c).flushes = some 0
  · rw [flushSink_eq s, if_pos h0]
    exact .cut ⟨_, rfl⟩ (h.cut_of_record (s.transcript_setSink _ c) rfl hb)
  · rw [flushSink_eq s, if_neg h0, flushSink_eq s₀, if_neg (by simp [h.faultless.flushes])]
    exact .same ((h.setSink _ hr hf).record rfl)

theorem Twin.receive (h : s.Twin s₀) : Alike Refusal s.receive s₀.receive := by
  have hb := s₀.before_receive
  by_cases h0 : s.input.allowance = some 0
  · rw [receive_eq s, if_pos h0]
    exact .cut ⟨_, rfl⟩ (h.cut_of_record rfl rfl hb)
  · rw [receive_eq s, if_neg h0, receive_eq s₀, if_neg (by simp [h.faultless.allowance]), h.pending]
    refine .same ((h.advance h0).record ?_)
    cases s₀.input.pending <;> rfl

theorem Alike.andThen {r r₀ : Except IoError Unit × Streams}
    {next : Streams → Except IoError Unit × Streams} (hr : Alike Refusal r r₀)
    (hn : ∀ t t₀, t.Twin t₀ → Alike Refusal (next t) (next t₀))
    (hb : ∀ t : Streams, t.Before (next t).2) :
    Alike Refusal (andThen r next) (andThen r₀ next) := by
  cases hr with
  | @same a t t₀ h =>
    cases a with
    | ok => exact hn t t₀ h
    | error => exact .same h
  | cut ha h =>
    obtain ⟨e, rfl⟩ := ha
    exact .cut ⟨e, rfl⟩ (h.mono (before_andThen List.prefix_rfl hb))

theorem Twin.showCue (h : s.Twin s₀) : Alike Refusal s.showCue s₀.showCue := by
  unfold Streams.showCue
  rw [h.prompt]
  split
  · exact .same h
  · exact (h.send .cue _).andThen (fun _ _ ht => ht.flushSink .cue) (before_flushSink · .cue)

theorem Twin.showPrompt (h : s.Twin s₀) : Alike Refusal s.showPrompt s₀.showPrompt := by
  rw [showPrompt_eq, showPrompt_eq]
  exact (h.flushSink .output).andThen (fun _ _ ht => ht.showCue) before_showCue

/-- Before anything has gone through, streams with faults are like those without. -/
theorem twin_ofFaults (bytes : List UInt8) (prompt : String) (f : Faults) :
    (ofFaults bytes prompt f).Twin (ofInput bytes prompt) where
  prompt := rfl
  pending := rfl
  transcript := rfl
  unrefused := not_refused_iff.mpr fun _ h => nomatch h
  faultless := ⟨fun c => by cases c <;> rfl, fun c => by cases c <;> rfl, rfl⟩

end Streams

/-! ## Dialogues -/

variable {α β : Type} {Q : α → Prop} {s s₀ t t₀ : Streams}

open Streams (Alike Refusal)

/-- A dialogue that ends at the first refusal, in a way that `Q` allows. -/
def Dialogue.GivesUp (Q : α → Prop) : Dialogue α → Prop
  | .done _ => True
  | .write _ next | .prompt next | .flush next =>
    (∀ e, ∃ a, next (.error e) = .done a ∧ Q a) ∧ (next (.ok ())).GivesUp Q
  | .read next =>
    (∀ e, ∃ a, next (.error e) = .done a ∧ Q a) ∧ ∀ b, (next (.ok b)).GivesUp Q

theorem Streams.Alike.play {r r₀ : Except IoError β × Streams}
    {next : Except IoError β → Dialogue α} (hr : Alike Refusal r r₀)
    (he : ∀ e, ∃ a, next (.error e) = .done a ∧ Q a)
    (hn : ∀ b t t₀, t.Twin t₀ → Alike Q ((next (.ok b)).play t) ((next (.ok b)).play t₀)) :
    Alike Q ((next r.1).play r.2) ((next r₀.1).play r₀.2) := by
  cases hr with
  | @same a t t₀ h =>
    cases a with
    | ok b => exact hn b t t₀ h
    | error e =>
      obtain ⟨a, ha, -⟩ := he e
      dsimp only
      rw [ha]
      exact .same h
  | cut hq h =>
    obtain ⟨e, rfl⟩ := hq
    obtain ⟨a, ha, hQ⟩ := he e
    dsimp only
    rw [ha]
    exact .cut hQ (h.mono (Dialogue.before_play _ _))

/-- Held with twins, a dialogue that gives up keeps them twins or cuts one short. -/
theorem Streams.Twin.play {d : Dialogue α} (h : s.Twin s₀) (hd : d.GivesUp Q) :
    Alike Q (d.play s) (d.play s₀) := by
  induction d generalizing s s₀ with
  | done a => exact .same h
  | write b next ih => exact (h.send .output [b]).play hd.1 fun _ _ _ ht => ih _ ht hd.2
  | read next ih => exact h.receive.play hd.1 fun b _ _ ht => ih _ ht (hd.2 b)
  | prompt next ih => exact h.showPrompt.play hd.1 fun _ _ _ ht => ih _ ht hd.2
  | flush next ih => exact (h.flushSink .output).play hd.1 fun _ _ _ ht => ih _ ht hd.2

/-! ## Steps -/

namespace Machine

variable {m m' : Machine}

/-- What a step comes to if the terminal refuses something. -/
inductive GivesUp (m : Machine) : Outcome × Machine → Prop where
  | inside {e : IoError} (hs : m.status = .running)
      (hc : m.program[m.next]? = some '.' ∨ m.program[m.next]? = some ',') :
      GivesUp m (.failed (.io e m.next), m.stopped .failed)
  | atEnd {e : IoError} (hs : m.status = .running) (hp : m.program[m.next]? = none) :
      GivesUp m (.failed (.io e m.next), m.stopped .terminated)

theorem dispatch_givesUp (m : Machine) {c : Command} (hs : m.status = .running)
    (hc : m.program[m.next]? = some c.symbol) : (m.dispatch m.next c).GivesUp m.GivesUp := by
  cases c with
  | right | left | increment | decrement => trivial
  | output => exact ⟨fun e => ⟨_, rfl, .inside hs (.inl hc)⟩, trivial⟩
  | input =>
    exact ⟨fun e => ⟨_, rfl, .inside hs (.inr hc)⟩, fun e => ⟨_, rfl, .inside hs (.inr hc)⟩,
      fun b => trivial⟩
  | loopStart =>
    unfold dispatch
    dsimp only
    split
    · split <;> trivial
    · trivial
  | loopEnd =>
    unfold dispatch
    dsimp only
    split <;> split <;> trivial

theorem turn_givesUp (m : Machine) : m.turn.GivesUp m.GivesUp := by
  unfold turn
  split
  · rename_i hs
    dsimp only
    split
    · rename_i hp
      exact ⟨fun e => ⟨_, rfl, .atEnd hs hp⟩, fun e => ⟨_, rfl, .atEnd hs hp⟩, trivial⟩
    · rename_i ch hc
      split
      · trivial
      · rename_i c hn
        rw [← Command.symbol_of_ofChar? hn] at hc
        exact m.dispatch_givesUp hs hc
  · trivial

theorem step_twin (m : Machine) (h : s.Twin s₀) :
    (∃ o m' t t₀, m.step s = (o, m', t) ∧ m.step s₀ = (o, m', t₀) ∧ t.Twin t₀) ∨
    (∃ o m' t, m.step s = (o, m', t) ∧ m.GivesUp (o, m') ∧ t.Cut (m.step s₀).2.2) := by
  have ha := h.play m.turn_givesUp
  unfold step
  generalize m.turn.play s = p at ha
  generalize m.turn.play s₀ = p₀ at ha
  cases ha with
  | same h => exact .inl ⟨_, _, _, _, rfl, rfl, h⟩
  | cut hq h => exact .inr ⟨_, _, _, rfl, hq, h⟩

/-! ## Runs -/

/-- How `n` steps of `start` go when a stream refuses something, beside how they
go on the streams `s₀` without faults. -/
structure CutShort (start : Machine) (n : Nat) (s₀ : Streams) (es : Array Executed) (r : Ending)
    (m : Machine) (t : Streams) : Prop where
  /-- Without faults the machine gets as far, by the same steps and through the
  same events. The step after these is the one that fails. -/
  failure : ∃ mid u f, start.trace es.size s₀ = (es, .paused, mid, u) ∧ u.Before t ∧
    mid.GivesUp (.failed f, m) ∧ r = .failed f
  steps : es.toList <+: (start.trace n s₀).1.toList
  cut : t.Cut (start.trace n s₀).2.2.2

theorem CutShort.cons {m₁ : Machine} {n : Nat} {e : Executed} {es : Array Executed} {r : Ending}
    (hs₀ : m.step s₀ = (.executed e, m₁, t₀)) (h : m₁.CutShort n t₀ es r m' t) :
    m.CutShort (n + 1) s₀ (#[e] ++ es) r m' t where
  failure := by
    obtain ⟨mid, u, f, htr, hu, hg, hr⟩ := h.failure
    refine ⟨mid, u, f, ?_, hu, hg, hr⟩
    rw [Array.size_append, Array.size_singleton, Nat.add_comm, trace_succ, hs₀]
    dsimp only
    rw [htr]
  steps := by
    rw [trace_succ, hs₀]
    simpa using h.steps
  cut := by
    rw [trace_succ, hs₀]
    exact h.cut

theorem trace_twin (n : Nat) (m : Machine) (h : s.Twin s₀) :
    (∃ es r m' t t₀, m.trace n s = (es, r, m', t) ∧ m.trace n s₀ = (es, r, m', t₀) ∧
      t.Twin t₀) ∨
    ∃ es r m' t, m.trace n s = (es, r, m', t) ∧ m.CutShort n s₀ es r m' t := by
  induction n generalizing m s s₀ with
  | zero => exact .inl ⟨_, _, _, _, _, rfl, rfl, h⟩
  | succ n ih =>
    rcases m.step_twin h with ⟨o, m₁, t, t₀, hs, hs₀, ht⟩ | ⟨o, m₁, t, hs, hg, ht⟩
    · cases o with
      | executed e =>
        rw [trace_succ, hs]
        rcases ih m₁ ht with ⟨es, r, m', u, u₀, hu, hu₀, hut⟩ | ⟨es, r, m', u, hu, hc⟩
        · refine .inl ⟨#[e] ++ es, r, m', u, u₀, ?_, ?_, hut⟩
          · dsimp only
            rw [hu]
          · rw [trace_succ, hs₀]
            dsimp only
            rw [hu₀]
        · refine .inr ⟨#[e] ++ es, r, m', u, ?_, hc.cons hs₀⟩
          dsimp only
          rw [hu]
      | halted | failed f =>
        rw [trace_succ n m s, hs, trace_succ n m s₀, hs₀]
        exact .inl ⟨_, _, _, t, t₀, rfl, rfl, ht⟩
    · obtain ⟨f, rfl⟩ : ∃ f, o = .failed f := by cases hg <;> exact ⟨_, rfl⟩
      refine .inr ⟨#[], .failed f, m₁, t, ?_, ⟨m, s₀, f, rfl, ?_, hg, rfl⟩, ?_, ?_⟩
      · rw [trace_succ, hs]
      · have hb := m.before_step s
        rwa [hs, Streams.Before, h.transcript] at hb
      · exact List.nil_prefix
      · exact ht.mono (step_before_trace n m s₀)

/-- **Faults only cut a run short.** A run in which nothing is refused is the run
without faults: the same steps, the same end, the same machine, and the same went
through the streams. A run in which something is refused goes the same way up to
the step that fails. What is refused comes last; the error names the instruction
carried out, or the end of the program if it was the line feed there that did not
go through; what the sinks took and what was read is the beginning of what it is
without faults; and from then on the machine does nothing, whatever it is given. -/
theorem trace_ofFaults {source prompt : String} {bytes : List UInt8} {f : Faults} {n : Nat}
    {es : Array Executed} {r : Ending}
    (h : (load source).trace n (.ofFaults bytes prompt f) = (es, r, m, t)) :
    (¬ t.Refused → ∃ t₀, (load source).trace n (Streams.ofInput bytes prompt) = (es, r, m, t₀) ∧
      t₀.transcript = t.transcript) ∧
    (t.Refused → (load source).CutShort n (.ofInput bytes prompt) es r m t ∧
      (∃ e ip, r = .failed (.io e ip) ∧ m.ip = some ip ∧
        ((m.program[ip]? = some '.' ∨ m.program[ip]? = some ',') ∨ ip = m.program.size)) ∧
      ∀ {σ : Type} [Terminal σ] (io : σ), m.step io = (.halted, m, io)) := by
  rcases trace_twin n (load source) (Streams.twin_ofFaults bytes prompt f) with
    ⟨es, r, m, t, t₀, hs, hs₀, ht⟩ | ⟨es, r, m, t, hs, hc⟩
  · rw [h] at hs
    cases hs
    exact ⟨fun _ => ⟨t₀, hs₀, ht.transcript.symm⟩, fun hr => absurd hr ht.unrefused⟩
  · rw [h] at hs
    cases hs
    refine ⟨fun hr => absurd hc.cut.refused hr, fun _ => ⟨hc, ?_, fun io => ?_⟩⟩
    · obtain ⟨mid, u, f, hmid, -, hg, rfl⟩ := hc.failure
      cases hg with
      | inside hs hi => exact ⟨_, _, rfl, rfl, .inl hi⟩
      | atEnd hs hp =>
        have hrun : (load source).run es.size (Streams.ofInput bytes prompt) = (.paused, mid, u) := by
          rw [← trace_snd, hmid]
        have hle : mid.next ≤ mid.program.size := (Reachable.load.run hrun).next_le hs
        have hge : mid.program.size ≤ mid.next := Array.getElem?_eq_none_iff.mp hp
        exact ⟨_, _, rfl, rfl, .inr (Nat.le_antisymm hle hge)⟩
    · obtain ⟨mid, u, f, -, -, hg, -⟩ := hc.failure
      apply step_of_not_running
      cases hg <;> exact nofun

/-- The prompt gets through by half. -/
theorem trace_ofFaults_half_a_prompt :
    let f : Faults := ⟨.unbounded, { Writer.unbounded with room := some 1 }, none,
      ⟨.other, "input fault"⟩, fun _ => 0⟩
    let p := (load "+.,").trace 9 (.ofFaults [65] "? " f)
    p.2.2.2.Refused ∧ p.2.1 = .failed (.io ⟨.writeZero, "failed to write whole buffer"⟩ 2) ∧
      p.2.2.2.written .output = [1] ∧ p.2.2.2.written .cue = [63] ∧
      (load "+.,").CutShort 9 (.ofInput [65] "? ") p.1 p.2.1 p.2.2.1 p.2.2.2 := by
  intro f p
  have hr : p.2.2.2.Refused := ⟨.writeRefused .cue, by decide +kernel, rfl⟩
  have h : (load "+.,").trace 9 (.ofFaults [65] "? " f) = (p.1, p.2.1, p.2.2.1, p.2.2.2) := rfl
  obtain ⟨hc, -⟩ := (trace_ofFaults h).2 hr
  exact ⟨hr, by decide +kernel, by decide +kernel, by decide +kernel, hc⟩

end Machine

end Brainfuck
