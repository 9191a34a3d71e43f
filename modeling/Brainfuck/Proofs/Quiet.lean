import Brainfuck.Proofs.Course
import Brainfuck.Proofs.Faultless

/-! Terminals that take all they are given and have nothing to read. On any of
them a machine does what it does in silence, whatever the terminal makes of the
bytes and prompts: the answers are the same, and a machine sees nothing else. -/

namespace Brainfuck

variable {α σ : Type} [Terminal σ] {P : σ → Prop} {io : σ}

/-- Terminals with the property `P` refuse nothing, are at the end of their input,
and keep the property whatever is done with them. -/
structure Terminal.Quiet (P : σ → Prop) : Prop where
  write (b : UInt8) {io : σ} (h : P io) : ∃ io', Terminal.writeByte b io = (.ok (), io') ∧ P io'
  read {io : σ} (h : P io) : ∃ io', Terminal.readByte io = (.ok none, io') ∧ P io'
  prompt {io : σ} (h : P io) : ∃ io', Terminal.prompt io = (.ok (), io') ∧ P io'
  flush {io : σ} (h : P io) : ∃ io', Terminal.flush io = (.ok (), io') ∧ P io'

open Terminal (Quiet)

theorem Dialogue.play_quiet (hq : Quiet P) (h : P io) (d : Dialogue α) :
    ∃ io', d.play io = ((d.play Silent.mk).1, io') ∧ P io' := by
  induction d generalizing io with
  | done a => exact ⟨io, rfl, h⟩
  | write b next ih =>
    obtain ⟨io₁, hw, h₁⟩ := hq.write b h
    rw [play, hw]
    exact ih _ h₁
  | read next ih =>
    obtain ⟨io₁, hr, h₁⟩ := hq.read h
    rw [play, hr]
    exact ih _ h₁
  | prompt next ih =>
    obtain ⟨io₁, hp, h₁⟩ := hq.prompt h
    rw [play, hp]
    exact ih _ h₁
  | flush next ih =>
    obtain ⟨io₁, hf, h₁⟩ := hq.flush h
    rw [play, hf]
    exact ih _ h₁

namespace Machine

theorem step_quiet (hq : Quiet P) (h : P io) (m : Machine) :
    ∃ io', m.step io = ((m.step Silent.mk).1, (m.step Silent.mk).2.1, io') ∧ P io' := by
  obtain ⟨io', hplay, h'⟩ := m.turn.play_quiet hq h
  refine ⟨io', ?_, h'⟩
  simp only [step, hplay]

/-- On a quiet terminal a run is what it is in silence. -/
theorem trace_quiet (hq : Quiet P) (h : P io) (n : Nat) (m : Machine) :
    ∃ io', m.trace n io = ((m.trace n Silent.mk).1, (m.trace n Silent.mk).2.1,
      (m.trace n Silent.mk).2.2.1, io') ∧ P io' := by
  induction n generalizing m io with
  | zero => exact ⟨io, rfl, h⟩
  | succ n ih =>
    obtain ⟨io₁, hs, h₁⟩ := m.step_quiet hq h
    rw [trace_succ, trace_succ, hs]
    rcases m.step Silent.mk with ⟨e | _ | f, m₁, ⟨⟩⟩
    · obtain ⟨io', htr, h'⟩ := ih h₁ m₁
      exact ⟨io', by dsimp only; rw [htr], h'⟩
    · exact ⟨io₁, rfl, h₁⟩
    · exact ⟨io₁, rfl, h₁⟩

theorem Transition.not_io_silent {m m' : Machine} {io' : Silent} {e : IoError} {ip : Nat} :
    ¬ Transition m Silent.mk (.failed (.io e ip)) m' io' := by
  intro ht
  cases ht with
  | failed _ hf =>
    cases hf with
    | output _ hw => cases hw
    | prompt _ hp => cases hp
    | input _ _ hr => cases hr
  | endRefused _ _ he => cases he

theorem Course.not_io_silent {m m' : Machine} {io io' : Silent} {es : List Executed} {r : Ending}
    (hc : m.Course io es r m' io') (e : IoError) (ip : Nat) : r ≠ .failed (.io e ip) := by
  induction hc with
  | paused | halted => simp
  | executed _ _ ih => exact ih
  | failed ht =>
    intro hr
    cases hr
    exact ht.not_io_silent

end Machine

/-- Streams without faults and at the end of their input, whatever their prompt. -/
theorem Streams.quiet : Quiet fun s : Streams => s.Faultless ∧ s.input.pending = [] := by
  have hnil {s t : Streams} {events : List Event} (h : s.Carries events t)
      (hs : s.input.pending = []) : t.Faultless ∧ t.input.pending = [] := by
    have hp := h.pending
    rw [hs, List.append_eq_nil_iff] at hp
    exact ⟨h.faultless, hp.2⟩
  refine ⟨?_, ?_, ?_, ?_⟩
  · intro b s h
    obtain ⟨t, hw, ht⟩ := h.1.send .output (List.cons_ne_nil b [])
    exact ⟨t, hw, hnil ht h.2⟩
  · intro s h
    obtain ⟨t, hr, ht⟩ := h.1.receive
    rw [h.2] at hr
    exact ⟨t, hr, hnil ht h.2⟩
  · intro s h
    obtain ⟨t, hp, ht⟩ := h.1.showPrompt
    exact ⟨t, hp, hnil ht h.2⟩
  · intro s h
    obtain ⟨t, hf, ht⟩ := h.1.flushSink .output
    exact ⟨t, hf, hnil ht h.2⟩

end Brainfuck
