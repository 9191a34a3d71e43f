import Brainfuck.Machine.Run
import Brainfuck.Terminal.Streams

/-! What goes through streams. Each operation is one equation that says what it
answers and what it adds to the transcript, and whatever is done with streams, a
transcript only grows (`Before`). -/

namespace Brainfuck

/-- The byte that an event took from the input. -/
def Event.byteRead? : Event → Option UInt8
  | read b => some b
  | _ => none

namespace Streams

/-- The bytes taken from the input. -/
def consumed (s : Streams) : List UInt8 := s.transcript.toList.filterMap Event.byteRead?

/-- What has gone through `s` is the beginning of what has gone through `t`. -/
def Before (s t : Streams) : Prop := s.transcript.toList <+: t.transcript.toList

variable {s s₀ t t₀ : Streams} {c : Channel} {bytes : List UInt8} {e : Event}

theorem Before.trans {u : Streams} (h : s.Before t) (h' : t.Before u) : s.Before u :=
  List.IsPrefix.trans h h'

theorem Before.written (h : s.Before t) (c : Channel) : s.written c <+: t.written c := by
  obtain ⟨rest, hr⟩ := h
  exact ⟨rest.flatMap (Event.bytesTo c), by simp [Streams.written, ← hr]⟩

theorem Before.consumed (h : s.Before t) : s.consumed <+: t.consumed := h.filterMap _

@[simp] theorem transcript_setSink (s : Streams) (w : Writer) (c : Channel) :
    (s.setSink w c).transcript = s.transcript := by
  cases c <;> rfl

theorem before_record (s : Streams) (e : Event) : s.Before (s.record e) :=
  ⟨[e], by simp [record]⟩

theorem written_record (s : Streams) (e : Event) (c : Channel) :
    (s.record e).written c = s.written c ++ e.bytesTo c := by
  simp [written, record]

theorem consumed_record (s : Streams) (e : Event) :
    (s.record e).consumed = s.consumed ++ e.byteRead?.toList := by
  cases he : e.byteRead? <;> simp [consumed, record, he]

/-- The streams once the sink `c` has become `w` and taken `bytes`. -/
def took (s : Streams) (c : Channel) (w : Writer) (bytes : List UInt8) : Streams :=
  if bytes.isEmpty then s.setSink w c else (s.setSink w c).record (.wrote c bytes)

theorem transcript_took (s : Streams) (c : Channel) (w : Writer) (bytes : List UInt8) :
    (s.took c w bytes).transcript.toList =
      s.transcript.toList ++ if bytes.isEmpty then [] else [.wrote c bytes] := by
  unfold took
  split <;> simp [record]

theorem before_took (s : Streams) (c : Channel) (w : Writer) (bytes : List UInt8) :
    s.Before (s.took c w bytes) :=
  ⟨_, (s.transcript_took c w bytes).symm⟩

theorem written_took (s : Streams) (c c' : Channel) (w : Writer) (bytes : List UInt8) :
    (s.took c w bytes).written c' = s.written c' ++ if c = c' then bytes else [] := by
  rw [written, transcript_took, List.flatMap_append, ← written]
  cases bytes <;> simp [Event.bytesTo]

theorem consumed_took (s : Streams) (c : Channel) (w : Writer) (bytes : List UInt8) :
    (s.took c w bytes).consumed = s.consumed := by
  rw [consumed, transcript_took, List.filterMap_append, ← consumed]
  cases bytes <;> simp [Event.byteRead?]

/-! ## The four operations -/

theorem send_eq (s : Streams) (c : Channel) (bytes : List UInt8) :
    s.send c bytes =
      if (s.sink c).fits bytes then (.ok (), s.took c ((s.sink c).write bytes).2 bytes)
      else (.error (s.sink c).refusal,
        (s.took c ((s.sink c).write bytes).2 ((s.sink c).accepted bytes)).record
          (.writeRefused c)) := by
  by_cases hf : (s.sink c).fits bytes = true
  · simp [send, Writer.write, hf, Writer.accepted_of_fits hf, took]
  · simp [send, Writer.write, hf, took]

theorem flushSink_eq (s : Streams) (c : Channel) :
    s.flushSink c =
      if (s.sink c).flushes = some 0 then (.error (s.sink c).flushRefusal,
        (s.setSink (s.sink c).flush.2 c).record (.flushRefused c))
      else (.ok (), (s.setSink (s.sink c).flush.2 c).record (.flushed c)) := by
  by_cases hf : (s.sink c).flushes = some 0 <;> simp [flushSink, Writer.flush, hf]

/-- The event of a read that was not refused. -/
def received : Option UInt8 → Event
  | some b => .read b
  | none => .inputEnded

theorem receive_eq (s : Streams) :
    s.receive =
      if s.input.allowance = some 0 then
        (.error s.input.fault, { s with input := s.input.advance }.record .readRefused)
      else (.ok s.input.pending.head?,
        { s with input := s.input.advance }.record (received s.input.pending.head?)) := by
  by_cases ha : s.input.allowance = some 0
  · simp [receive, Reader.read_eq, Reader.answer, ha]
  · cases hp : s.input.pending <;> simp [receive, Reader.read_eq, Reader.answer, ha, hp, received]

theorem before_send (s : Streams) (c : Channel) (bytes : List UInt8) :
    s.Before (s.send c bytes).2 := by
  rw [send_eq]
  split
  · exact s.before_took c _ bytes
  · exact (s.before_took c _ _).trans (before_record _ _)

theorem before_flushSink (s : Streams) (c : Channel) : s.Before (s.flushSink c).2 := by
  have hs : s.Before (s.setSink (s.sink c).flush.2 c) := ⟨[], by simp⟩
  rw [flushSink_eq]
  split <;> exact hs.trans (before_record _ _)

theorem before_receive (s : Streams) : s.Before s.receive.2 := by
  rw [receive_eq]
  split <;> exact before_record { s with input := s.input.advance } _

/-- Goes on with `next` unless `r` is a refusal. -/
def andThen (r : Except IoError Unit × Streams) (next : Streams → Except IoError Unit × Streams) :
    Except IoError Unit × Streams :=
  match r with
  | (.error e, s) => (.error e, s)
  | (.ok (), s) => next s

/-- The cue of a prompt, written and flushed unless it is empty. -/
def showCue (s : Streams) : Except IoError Unit × Streams :=
  if s.prompt.isEmpty then (.ok (), s)
  else andThen (s.send .cue (utf8 s.prompt)) (·.flushSink .cue)

theorem showPrompt_eq (s : Streams) : s.showPrompt = andThen (s.flushSink .output) showCue := rfl

theorem before_andThen {r : Except IoError Unit × Streams}
    {next : Streams → Except IoError Unit × Streams} (hr : s.Before r.2)
    (hn : ∀ t : Streams, t.Before (next t).2) : s.Before (andThen r next).2 := by
  rcases r with ⟨_ | _, t⟩
  · exact hr
  · exact hr.trans (hn t)

theorem before_showCue (s : Streams) : s.Before s.showCue.2 := by
  unfold showCue
  split
  · exact List.prefix_rfl
  · exact before_andThen (s.before_send _ _) (before_flushSink · _)

theorem before_showPrompt (s : Streams) : s.Before s.showPrompt.2 := by
  rw [showPrompt_eq]
  exact before_andThen (s.before_flushSink _) before_showCue

end Streams

/-! ## Dialogues and runs -/

theorem Dialogue.before_play {α : Type} (d : Dialogue α) (s : Streams) :
    s.Before (d.play s).2 := by
  induction d generalizing s with
  | done => exact List.prefix_rfl
  | write b next ih => exact (s.before_send .output [b]).trans (ih _ _)
  | read next ih => exact s.before_receive.trans (ih _ _)
  | prompt next ih => exact s.before_showPrompt.trans (ih _ _)
  | flush next ih => exact (s.before_flushSink .output).trans (ih _ _)

namespace Machine

theorem before_step (m : Machine) (s : Streams) : s.Before (m.step s).2.2 :=
  m.turn.before_play s

theorem before_run (n : Nat) (m : Machine) (s : Streams) : s.Before (m.run n s).2.2 := by
  induction n generalizing m s with
  | zero => exact List.prefix_rfl
  | succ n ih =>
    have hs := m.before_step s
    rw [run]
    rcases hstep : m.step s with ⟨_ | _ | _, m₁, s₁⟩
    · rw [hstep] at hs
      exact hs.trans (ih m₁ s₁)
    · rwa [hstep] at hs
    · rwa [hstep] at hs

/-- What goes through in one step is the beginning of what goes through in more. -/
theorem step_before_trace (n : Nat) (m : Machine) (s : Streams) :
    (m.step s).2.2.Before (m.trace (n + 1) s).2.2.2 := by
  rw [trace_succ]
  rcases m.step s with ⟨_ | _ | _, m₁, s₁⟩
  · dsimp only
    rw [trace_snd]
    exact before_run n m₁ s₁
  · exact List.prefix_rfl
  · exact List.prefix_rfl

end Machine

end Brainfuck
