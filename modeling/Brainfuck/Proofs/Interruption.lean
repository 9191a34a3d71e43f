import Brainfuck.Proofs.Projection
import Brainfuck.Proofs.Transcript

/-! Interrupted reads. A source may interrupt any attempt to read, if only finitely many in
a row; whoever reads simply tries again. Nobody can tell then how often this happened: not
the reader, who gets the same answers and leaves the same source behind, and not a machine
or anyone who calls it. The source may be any. Its answers may be bytes, ends and refusals
in any order. -/

namespace Brainfuck

/-! ## Sources of bytes -/

/-- Anything that bytes can be read from. -/
class ByteSource (ρ : Type) where
  /-- One attempt to read; `none` means that it was interrupted. -/
  attempt : ρ → Option (Except IoError (Option UInt8)) × ρ
  /-- A bound on the attempts that are interrupted before the next answer. -/
  patience : ρ → Nat
  patience_lt {r r' : ρ} : attempt r = (none, r') → patience r' < patience r

namespace ByteSource

variable {ρ : Type} [ByteSource ρ] {r r' : ρ} {answer : Except IoError (Option UInt8)}

/-- Tries until there is an answer. -/
def read (r : ρ) : Except IoError (Option UInt8) × ρ :=
  match _h : attempt r with
  | (some answer, r') => (answer, r')
  | (none, r') => read r'
termination_by patience r
decreasing_by exact patience_lt _h

theorem read_of_some (h : attempt r = (some answer, r')) : read r = (answer, r') := by
  rw [read]
  split <;> simp_all

theorem read_of_none (h : attempt r = (none, r')) : read r = read r' := by
  rw [read]
  split <;> simp_all

/-- What is left of the source after `n` attempts. -/
def after : Nat → ρ → ρ
  | 0, r => r
  | n + 1, r => after n (attempt r).2

/-- Reading ends, with the first attempt that is not interrupted. -/
theorem exists_attempt (r : ρ) :
    ∃ n ≤ patience r, (∀ k < n, (attempt (after k r)).1 = none) ∧
      attempt (after n r) = (some (read r).1, (read r).2) := by
  fun_induction read r with
  | case1 r answer r' h => exact ⟨0, Nat.zero_le _, by simp, h⟩
  | case2 r r' h ih =>
    obtain ⟨n, hn, hnone, hsome⟩ := ih
    have hlt := patience_lt h
    have hafter (k : Nat) : after (k + 1) r = after k r' := by rw [after, h]
    refine ⟨n + 1, by omega, fun k hk => ?_, hafter n ▸ hsome⟩
    cases k with
    | zero => rw [after, h]
    | succ k =>
      rw [hafter]
      exact hnone k (by omega)

end ByteSource

/-! ## Sources that are interrupted -/

/-- A source whose attempts are interrupted: `delays n` of them before its `n`-th answer. -/
structure Interrupted (ρ : Type) where
  source : ρ
  delays : Nat → Nat
  /-- Answers given so far. -/
  answered : Nat
  /-- Attempts interrupted since the last answer. -/
  waited : Nat

namespace Interrupted

variable {ρ : Type} [ByteSource ρ] {r r' : Interrupted ρ} {answer : Except IoError (Option UInt8)}

def attempt (r : Interrupted ρ) : Option (Except IoError (Option UInt8)) × Interrupted ρ :=
  if r.waited < r.delays r.answered then (none, { r with waited := r.waited + 1 })
  else
    match ByteSource.attempt r.source with
    | (none, source) => (none, { r with source })
    | (some answer, source) =>
      (some answer, { r with source, answered := r.answered + 1, waited := 0 })

/-- An attempt that is interrupted either leaves the source alone or was interrupted by it. -/
theorem attempt_eq_none (h : r.attempt = (none, r')) :
    r' = { r with waited := r.waited + 1 } ∧ r.waited < r.delays r.answered ∨
    r' = { r with source := r'.source } ∧ ByteSource.attempt r.source = (none, r'.source) := by
  unfold attempt at h
  split at h
  · cases h
    exact .inl ⟨rfl, ‹_›⟩
  · split at h <;> cases h
    exact .inr ⟨rfl, ‹_›⟩

theorem attempt_eq_some (h : r.attempt = (some answer, r')) :
    ByteSource.attempt r.source = (some answer, r'.source) := by
  unfold attempt at h
  split at h
  · cases h
  · split at h <;> cases h
    assumption

instance : ByteSource (Interrupted ρ) where
  attempt := attempt
  patience r := r.delays r.answered - r.waited + ByteSource.patience r.source
  patience_lt {r r'} h := by
    rcases attempt_eq_none h with ⟨hr, hlt⟩ | ⟨hr, hsource⟩
    · rw [hr]
      dsimp only
      omega
    · have hlt := ByteSource.patience_lt hsource
      rw [hr]
      exact Nat.add_lt_add_left hlt _

/-- Without the interruptions a read gives the same answer and leaves the same source. -/
theorem read_source (r : Interrupted ρ) :
    ByteSource.read r.source = Prod.map id source (ByteSource.read r) := by
  fun_induction ByteSource.read r with
  | case1 r answer r' h => exact ByteSource.read_of_some (attempt_eq_some h)
  | case2 r r' h ih =>
    rw [← ih]
    rcases attempt_eq_none h with ⟨hr, -⟩ | ⟨-, hsource⟩
    · rw [hr]
    · exact ByteSource.read_of_none hsource

end Interrupted

/-! ## The sources of this library -/

namespace Reader

instance : ByteSource Reader where
  attempt := attempt
  patience r := r.delays r.answered - r.waited
  patience_lt {r r'} h := by
    unfold attempt at h
    split at h <;> cases h
    dsimp only
    omega

theorem read_eq_read (r : Reader) : ByteSource.read r = r.read := by
  fun_induction read r with
  | case1 r answer r' h => exact ByteSource.read_of_some h
  | case2 r r' h ih => exact (ByteSource.read_of_none h).trans ih

/-- The source without its interruptions. -/
def calm (r : Reader) : Reader := { r with delays := fun _ => 0, waited := 0 }

theorem advance_calm (r : Reader) : r.calm.advance = r.advance.calm := by
  unfold advance calm
  dsimp only
  split
  · rfl
  · split <;> rfl

theorem read_calm (r : Reader) :
    ByteSource.read r.calm = Prod.map id calm (ByteSource.read r) := by
  rw [read_eq_read, read_eq_read, read_eq, read_eq, advance_calm]
  rfl

end Reader

/-! ## Streams -/

/-- Streams whose input is some other source. -/
structure Fed (ρ : Type) where
  source : ρ
  /-- The input of these is never asked. -/
  streams : Streams

namespace Streams

/-- The event of an answer. -/
def heard : Except IoError (Option UInt8) → Event
  | .ok byte => received byte
  | .error _ => .readRefused

theorem receive_eq_heard (s : Streams) :
    s.receive =
      (s.input.read.1, { s with input := s.input.read.2 }.record (heard s.input.read.1)) := by
  unfold receive
  rcases s.input.read with ⟨_ | (_ | b), r⟩ <;> rfl

/-! What is done with the sinks has nothing to do with the input. -/

def withInput (r : Reader) (s : Streams) : Streams := { s with input := r }

variable (s : Streams) (r : Reader) (c : Channel)

theorem sink_withInput : (s.withInput r).sink c = s.sink c := by
  cases c <;> rfl

theorem took_withInput (w : Writer) (bytes : List UInt8) :
    (s.withInput r).took c w bytes = (s.took c w bytes).withInput r := by
  unfold took
  cases c <;> split <;> rfl

theorem send_withInput (bytes : List UInt8) :
    (s.withInput r).send c bytes = Prod.map id (withInput r) (s.send c bytes) := by
  rw [send_eq, send_eq, sink_withInput]
  split <;> rw [took_withInput] <;> rfl

theorem flushSink_withInput :
    (s.withInput r).flushSink c = Prod.map id (withInput r) (s.flushSink c) := by
  rw [flushSink_eq, flushSink_eq, sink_withInput]
  cases c <;> split <;> rfl

theorem andThen_withInput {a : Except IoError Unit × Streams}
    {next : Streams → Except IoError Unit × Streams}
    (h : ∀ t : Streams, next (t.withInput r) = Prod.map id (withInput r) (next t)) :
    andThen (Prod.map id (withInput r) a) next = Prod.map id (withInput r) (andThen a next) := by
  rcases a with ⟨_ | _, t⟩
  · rfl
  · exact h t

theorem showCue_withInput : (s.withInput r).showCue = Prod.map id (withInput r) s.showCue := by
  have hprompt : (s.withInput r).prompt = s.prompt := rfl
  rw [showCue, showCue, hprompt]
  split
  · rfl
  · rw [send_withInput, andThen_withInput r (flushSink_withInput · r .cue)]

theorem showPrompt_withInput :
    (s.withInput r).showPrompt = Prod.map id (withInput r) s.showPrompt := by
  rw [showPrompt_eq, showPrompt_eq, flushSink_withInput,
    andThen_withInput r (showCue_withInput · r)]

end Streams

namespace Fed

variable {ρ ρ' : Type} [ByteSource ρ] [ByteSource ρ']

instance : Terminal (Fed ρ) where
  writeByte b s := Prod.map id (Fed.mk s.source) (s.streams.send .output [b])
  readByte s :=
    let (answer, source) := ByteSource.read s.source
    (answer, ⟨source, s.streams.record (Streams.heard answer)⟩)
  prompt s := Prod.map id (Fed.mk s.source) s.streams.showPrompt
  flush s := Prod.map id (Fed.mk s.source) (s.streams.flushSink .output)

def map (f : ρ → ρ') (s : Fed ρ) : Fed ρ' := ⟨f s.source, s.streams⟩

theorem projects_map {f : ρ → ρ'}
    (h : ∀ r, ByteSource.read (f r) = Prod.map id f (ByteSource.read r)) :
    Terminal.Projects (Fed.map f) where
  write _ _ := rfl
  read s := by
    simp only [Terminal.readByte, map, h]
    rfl
  prompt _ := rfl
  flush _ := rfl

/-- Streams that read from the source themselves. -/
def plug (s : Fed Reader) : Streams := s.streams.withInput s.source

/-- Fed by a source of this library, streams are the streams of this library. -/
theorem projects_plug : Terminal.Projects plug where
  write b s := s.streams.send_withInput s.source .output [b]
  read s := by
    have hread : s.plug.input.read = ByteSource.read s.source := s.source.read_eq_read.symm
    have hreceive : Terminal.readByte s.plug = s.plug.receive := rfl
    rw [hreceive, Streams.receive_eq_heard, hread]
    rfl
  prompt s := s.streams.showPrompt_withInput s.source
  flush s := s.streams.flushSink_withInput s.source .output

end Fed

/-! ## Nobody can tell -/

/-- The streams without the interruptions of their input. -/
def Streams.calm (s : Streams) : Streams := s.withInput s.input.calm

theorem Streams.projects_calm : Terminal.Projects Streams.calm := by
  have hcalm : Terminal.Projects (Streams.calm ∘ Fed.plug) :=
    Fed.projects_plug.comp (Fed.projects_map Reader.read_calm)
  exact Fed.projects_plug.of_comp (fun s => ⟨⟨s.input, s⟩, rfl⟩) hcalm

/-- **Interruptions are invisible.** Let the attempts to read from a source, whatever its
answers, be interrupted any number of times before each. Reading comes to the end of the
interruptions, and then gives the answer that the source gives without them and leaves the
same source behind. So take machines that share streams with such an input, and let them be
called and copied in any order. They do the same, their callers are told the same, and they
are the same machines in the end as without the interruptions; the same has gone through
the streams, and the same is left of the source. All this holds of the streams of this
library. -/
theorem interruptions_invisible :
    (∀ {ρ : Type} [ByteSource ρ] (r : Interrupted ρ),
      (∃ n, (∀ k < n, (ByteSource.attempt (ByteSource.after k r)).1 = none) ∧
        ByteSource.attempt (ByteSource.after n r) =
          (some (ByteSource.read r).1, (ByteSource.read r).2)) ∧
      (ByteSource.read r).1 = (ByteSource.read r.source).1 ∧
      (ByteSource.read r).2.source = (ByteSource.read r.source).2) ∧
    (∀ {ρ : Type} [ByteSource ρ] (turns : List Turn) (s : Session (Fed (Interrupted ρ))),
      let calm : Session (Fed ρ) := ⟨s.machines, ⟨s.io.source.source, s.io.streams⟩⟩
      (s.play turns).1 = (calm.play turns).1 ∧ s.replies turns = calm.replies turns ∧
      (s.play turns).2.machines = (calm.play turns).2.machines ∧
      (s.play turns).2.io.streams = (calm.play turns).2.io.streams ∧
      (s.play turns).2.io.source.source = (calm.play turns).2.io.source) ∧
    ∀ (turns : List Turn) (s : Session Streams),
      let calm : Session Streams := ⟨s.machines, s.io.calm⟩
      (s.play turns).1 = (calm.play turns).1 ∧ s.replies turns = calm.replies turns ∧
      (s.play turns).2.machines = (calm.play turns).2.machines ∧
      (s.play turns).2.io.transcript = (calm.play turns).2.io.transcript ∧
      (s.play turns).2.io.calm = (calm.play turns).2.io := by
  refine ⟨fun r => ⟨?_, ?_⟩, ?_, ?_⟩
  · obtain ⟨n, -, hnone, hsome⟩ := ByteSource.exists_attempt r
    exact ⟨n, hnone, hsome⟩
  · rw [r.read_source]
    exact ⟨rfl, rfl⟩
  · intro ρ _ turns s calm
    have hπ : Terminal.Projects (Fed.map (Interrupted.source : Interrupted ρ → ρ)) :=
      Fed.projects_map Interrupted.read_source
    have hcalm : calm = s.project (Fed.map Interrupted.source) := rfl
    rw [hcalm, s.play_project hπ, s.replies_project hπ]
    exact ⟨rfl, rfl, rfl, rfl, rfl⟩
  · intro turns s calm
    have hcalm : calm = s.project Streams.calm := rfl
    rw [hcalm, s.play_project Streams.projects_calm, s.replies_project Streams.projects_calm]
    exact ⟨rfl, rfl, rfl, rfl, rfl⟩

end Brainfuck
