import Brainfuck.Proofs.Calls

/-! What a machine cannot see of its terminal. A map from one kind of terminals to another
may go along with all four operations: they are answered alike on both sides, and lead to
terminals that the map still takes to each other. Then a machine does the same on both, in
a step, in a run and in a session, and whatever the map drops makes no difference. -/

namespace Brainfuck

variable {α σ τ : Type} [Terminal σ] [Terminal τ] {π : σ → τ}

/-- The map goes along with everything that is done with a terminal. -/
structure Terminal.Projects (π : σ → τ) : Prop where
  write (b : UInt8) (io : σ) :
    Terminal.writeByte b (π io) = Prod.map id π (Terminal.writeByte b io)
  read (io : σ) : Terminal.readByte (π io) = Prod.map id π (Terminal.readByte io)
  prompt (io : σ) : Terminal.prompt (π io) = Prod.map id π (Terminal.prompt io)
  flush (io : σ) : Terminal.flush (π io) = Prod.map id π (Terminal.flush io)

open Terminal (Projects)

namespace Terminal.Projects

variable {υ : Type} [Terminal υ] {ψ : τ → υ}

theorem comp (hψ : Projects ψ) (hπ : Projects π) : Projects (ψ ∘ π) where
  write b io := by rw [Function.comp, hψ.write, hπ.write, Prod.map_map, Function.id_comp]
  read io := by rw [Function.comp, hψ.read, hπ.read, Prod.map_map, Function.id_comp]
  prompt io := by rw [Function.comp, hψ.prompt, hπ.prompt, Prod.map_map, Function.id_comp]
  flush io := by rw [Function.comp, hψ.flush, hπ.flush, Prod.map_map, Function.id_comp]

/-- If every terminal of the middle kind comes from one of the first, it is enough that the
two maps together go along. -/
theorem of_comp (hπ : Projects π) (hsurj : ∀ t, ∃ io, π io = t) (h : Projects (ψ ∘ π)) :
    Projects ψ where
  write b t := by
    obtain ⟨io, rfl⟩ := hsurj t
    rw [hπ.write, Prod.map_map]
    exact h.write b io
  read t := by
    obtain ⟨io, rfl⟩ := hsurj t
    rw [hπ.read, Prod.map_map]
    exact h.read io
  prompt t := by
    obtain ⟨io, rfl⟩ := hsurj t
    rw [hπ.prompt, Prod.map_map]
    exact h.prompt io
  flush t := by
    obtain ⟨io, rfl⟩ := hsurj t
    rw [hπ.flush, Prod.map_map]
    exact h.flush io

end Terminal.Projects

theorem Dialogue.play_project (h : Projects π) (d : Dialogue α) (io : σ) :
    d.play (π io) = Prod.map id π (d.play io) := by
  induction d generalizing io with
  | done a => rfl
  | write b next ih =>
    rw [play, h.write, play]
    exact ih _ _
  | read next ih =>
    rw [play, h.read, play]
    exact ih _ _
  | prompt next ih =>
    rw [play, h.prompt, play]
    exact ih _ _
  | flush next ih =>
    rw [play, h.flush, play]
    exact ih _ _

/-! ## Steps, runs and calls -/

namespace Machine

theorem step_project (h : Projects π) (m : Machine) (io : σ) :
    m.step (π io) = Prod.map id (Prod.map id π) (m.step io) := by
  rw [step, m.turn.play_project h, step]
  rfl

theorem trace_project (h : Projects π) (n : Nat) (m : Machine) (io : σ) :
    m.trace n (π io) = Prod.map id (Prod.map id (Prod.map id π)) (m.trace n io) := by
  induction n generalizing m io with
  | zero => rfl
  | succ n ih =>
    rw [trace_succ, trace_succ, m.step_project h]
    rcases m.step io with ⟨e | _ | f, m₁, io₁⟩
    · simp only [Prod.map, id, ih]
    · rfl
    · rfl

theorem call_project (h : Projects π) (c : Call) (m : Machine) (io : σ) :
    m.call c (π io) = Prod.map id (Prod.map id π) (m.call c io) := by
  cases c with
  | step =>
    rw [call, call, m.step_project h]
    rcases m.step io with ⟨e | _ | f, m₁, io₁⟩ <;> rfl
  | run bound =>
    rw [call, call, m.trace_project h]
    rfl
  | table => rfl

theorem perform_project (h : Projects π) (c : Call) (m : Machine) (io : σ) :
    m.perform c (π io) = Prod.map id (Prod.map id π) (m.perform c io) := by
  rw [perform, m.call_project h, perform]
  rfl

end Machine

/-! ## Sessions -/

namespace Session

/-- What the caller of a turn is told, if a machine of that number was called. -/
def reply (t : Turn) (s : Session σ) : Option Answer :=
  match t with
  | .call who c => s.machines[who]?.map fun m => (m.call c s.io).1
  | .clone _ => none

/-- What the callers of some turns are told. -/
def replies : List Turn → Session σ → List (Option Answer)
  | [], _ => []
  | t :: turns, s => s.reply t :: (s.take t).2.replies turns

/-- The session of the same machines on the terminal that the map leads to. -/
def project (π : σ → τ) (s : Session σ) : Session τ := ⟨s.machines, π s.io⟩

theorem take_project (h : Projects π) (t : Turn) (s : Session σ) :
    (s.project π).take t = Prod.map id (project π) (s.take t) := by
  cases t with
  | call who c =>
    simp only [take, project]
    cases s.machines[who]? with
    | none => rfl
    | some m =>
      simp only [m.perform_project h]
      rfl
  | clone who =>
    simp only [take, project]
    cases s.machines[who]? with
    | none => rfl
    | some m => rfl

theorem reply_project (h : Projects π) (t : Turn) (s : Session σ) :
    (s.project π).reply t = s.reply t := by
  cases t with
  | call who c =>
    simp only [reply, project, Machine.call_project h]
    rfl
  | clone who => rfl

theorem play_project (h : Projects π) (turns : List Turn) (s : Session σ) :
    (s.project π).play turns = Prod.map id (project π) (s.play turns) := by
  induction turns generalizing s with
  | nil => rfl
  | cons t turns ih =>
    simp only [play, take_project h, Prod.map, ih]
    rfl

theorem replies_project (h : Projects π) (turns : List Turn) (s : Session σ) :
    (s.project π).replies turns = s.replies turns := by
  induction turns generalizing s with
  | nil => rfl
  | cons t turns ih =>
    rw [replies, replies, reply_project h, take_project h]
    exact congrArg _ (ih _)

end Session

end Brainfuck
