import Brainfuck.Proofs.Faults

/-! What goes through streams that refuse nothing. Each operation has its events,
and nothing else is left of it: what was read is what came first in the input, and
the end of the input is reported only once all of it has been read (`Carries`). -/

namespace Brainfuck.Streams

variable {s t u : Streams} {c : Channel} {events events' : List Event}

/-- `s` has become `t`, with `events` going through and nothing refused. -/
structure Carries (s : Streams) (events : List Event) (t : Streams) : Prop where
  faultless : t.Faultless
  prompt : t.prompt = s.prompt
  transcript : t.transcript.toList = s.transcript.toList ++ events
  pending : events.filterMap Event.byteRead? ++ t.input.pending = s.input.pending
  ended : ∀ past rest, events = past ++ .inputEnded :: rest →
    past.filterMap Event.byteRead? = s.input.pending

theorem Carries.refl (h : s.Faultless) : s.Carries [] s where
  faultless := h
  prompt := rfl
  transcript := by simp
  pending := rfl
  ended past rest he := by simp at he

theorem Carries.trans (h : s.Carries events t) (h' : t.Carries events' u) :
    s.Carries (events ++ events') u where
  faultless := h'.faultless
  prompt := h'.prompt.trans h.prompt
  transcript := by rw [h'.transcript, h.transcript, List.append_assoc]
  pending := by rw [List.filterMap_append, List.append_assoc, h'.pending, h.pending]
  ended past rest he := by
    -- the end of the input was reported on the way to `t`, or after it
    rcases List.append_eq_append_iff.mp he with ⟨more, hp, he'⟩ | ⟨more, he', hr⟩
    · rw [hp, List.filterMap_append, h'.ended more rest he', h.pending]
    · cases more with
      | nil =>
        have hnil := h'.ended [] rest hr.symm
        rw [← h.pending, ← hnil, he', List.append_nil]
        simp
      | cons e more =>
        obtain ⟨rfl, -⟩ := List.cons.inj hr
        exact h.ended past more he'

theorem Carries.written (h : s.Carries events t) (c : Channel) :
    t.written c = s.written c ++ events.flatMap (Event.bytesTo c) := by
  rw [Streams.written, h.transcript, List.flatMap_append, Streams.written]

/-! ## The operations -/

theorem Faultless.send (h : s.Faultless) (c : Channel) {bytes : List UInt8} (hb : bytes ≠ []) :
    ∃ t, s.send c bytes = (.ok (), t) ∧ s.Carries [.wrote c bytes] t := by
  have hf : (s.sink c).fits bytes = true := by simp [Writer.fits, h.room]
  have hr : ((s.sink c).write bytes).2.room = none := by simp [Writer.write, h.room]
  have hset := h.setSink (c := c) hr (h.flushes c)
  refine ⟨_, by rw [send_eq, if_pos hf], ?_⟩
  rw [took, if_neg (by simpa using hb)]
  refine ⟨⟨hset.room, hset.flushes, hset.allowance⟩, ?_, by simp [record], ?_, ?_⟩
  · cases c <;> rfl
  · cases c <;> rfl
  · intro past rest he
    rcases past with _ | ⟨_, _ | _⟩ <;> simp at he

theorem Faultless.flushSink (h : s.Faultless) (c : Channel) :
    ∃ t, s.flushSink c = (.ok (), t) ∧ s.Carries [.flushed c] t := by
  have hf : (s.sink c).flush.2.flushes = none := by simp [Writer.flush, h.flushes]
  have hr : (s.sink c).flush.2.room = none := h.room c
  have hset := h.setSink (c := c) hr hf
  refine ⟨_, by rw [flushSink_eq, if_neg (by simp [h.flushes])], ?_⟩
  refine ⟨⟨hset.room, hset.flushes, hset.allowance⟩, ?_, by simp [record], ?_, ?_⟩
  · cases c <;> rfl
  · cases c <;> rfl
  · intro past rest he
    rcases past with _ | ⟨_, _ | _⟩ <;> simp at he

theorem Faultless.receive (h : s.Faultless) :
    ∃ t, s.receive = (.ok s.input.pending.head?, t) ∧
      s.Carries [received s.input.pending.head?] t := by
  have ha : s.input.allowance ≠ some 0 := by simp [h.allowance]
  have hp := Reader.pending_advance ha
  refine ⟨_, by rw [receive_eq, if_neg ha], ?_⟩
  refine ⟨⟨h.room, h.flushes, Reader.allowance_advance h.allowance⟩, rfl, by simp [record], ?_, ?_⟩
  · show _ ++ s.input.advance.pending = _
    rw [hp]
    cases s.input.pending <;> rfl
  · intro past rest he
    rcases past with _ | ⟨_, _ | _⟩
    · cases hq : s.input.pending with
      | nil => rfl
      | cons b bytes =>
        rw [hq] at he
        simp [received] at he
    · simp at he
    · simp at he

/-- What a prompt does: the output is flushed, and the text shown if there is any. -/
def promptEvents (prompt : String) : List Event :=
  .flushed .output ::
    if prompt.isEmpty then [] else [.wrote .cue (utf8 prompt), .flushed .cue]

theorem Faultless.showPrompt (h : s.Faultless) :
    ∃ t, s.showPrompt = (.ok (), t) ∧ s.Carries (promptEvents s.prompt) t := by
  obtain ⟨s₁, hf, h₁⟩ := h.flushSink .output
  rw [showPrompt_eq, hf, andThen, showCue, h₁.prompt, promptEvents]
  by_cases hp : s.prompt.isEmpty
  · rw [if_pos hp, if_pos hp]
    exact ⟨s₁, rfl, h₁⟩
  · rw [if_neg hp, if_neg hp]
    obtain ⟨s₂, hs, h₂⟩ := h₁.faultless.send .cue (utf8_ne_nil (by simpa using hp))
    obtain ⟨s₃, hc, h₃⟩ := h₂.faultless.flushSink .cue
    refine ⟨s₃, ?_, (h₁.trans h₂).trans h₃⟩
    rw [hs, andThen, hc]

/-- A read behind its prompt is always answered. -/
theorem Faultless.ask {answer : Except IoError (Option UInt8)} (h : s.Faultless)
    (hp : s.showPrompt = (.ok (), t)) (hr : t.receive = (answer, u)) :
    ∃ byte, answer = .ok byte ∧ s.Carries (promptEvents s.prompt ++ [received byte]) u := by
  obtain ⟨t', ht, hprompt⟩ := h.showPrompt
  cases ht.symm.trans hp
  obtain ⟨u', hu, hread⟩ := hprompt.faultless.receive
  cases hu.symm.trans hr
  exact ⟨_, rfl, hprompt.trans hread⟩

theorem faultless_ofInput (bytes : List UInt8) (prompt : String) :
    (ofInput bytes prompt).Faultless :=
  ⟨fun c => by cases c <;> rfl, fun c => by cases c <;> rfl, rfl⟩

end Brainfuck.Streams
