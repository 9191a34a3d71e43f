import Brainfuck.Proofs.Truncation
import Brainfuck.Session

/-! Calls and what they answer. A step, a bounded run and a table all move one
machine along one course (`exists_course`); the answer tells which instructions were
executed on the way and how it came to rest. A machine that has stopped answers
every call without looking at the terminal. -/

namespace Brainfuck

/-- How the machine came to rest, whatever became of the page. -/
def Answer.verdict (a : Answer) : Ending :=
  match a.table with
  | none => a.ending
  | some _ => a.ending.ofMachine

/-- Where a run ends that has nothing to do. -/
def Ending.ofBound : Nat → Ending
  | 0 => .paused
  | _ + 1 => .halted

theorem Ending.ofBound_ne_failed (n : Nat) (f : Failure) : Ending.ofBound n ≠ .failed f := by
  cases n <;> simp [Ending.ofBound]

namespace Call

/-- What a machine answers that has stopped: a step halts, a run comes to its end, and
a table is no more than its heading. -/
def idle : Call → Answer
  | .step => ⟨#[], .halted, none⟩
  | .run bound => ⟨#[], .ofBound bound, none⟩
  | .table bound room =>
    let sink := (Table.Page.ofRoom room).sink
    let heading := utf8 Table.heading
    ⟨#[], if sink.fits heading then .ofBound bound else .failed (.io sink.refusal 0),
      some (sink.accepted heading)⟩

end Call

namespace Machine

variable {σ : Type} [Terminal σ] {m m' : Machine} {io io' : σ}

/-- Answers some calls one after the other. -/
def serve : List Call → Machine → σ → List Answer × Machine × σ
  | [], m, io => ([], m, io)
  | c :: calls, m, io =>
    let (a, m, io) := m.call c io
    let (more, m, io) := m.serve calls io
    (a :: more, m, io)

theorem serve_cons (c : Call) (calls : List Call) (m : Machine) (io : σ) :
    m.serve (c :: calls) io =
      ((m.call c io).1 :: ((m.call c io).2.1.serve calls (m.call c io).2.2).1,
        ((m.call c io).2.1.serve calls (m.call c io).2.2).2) := rfl

/-! ## Calls are courses -/

theorem call_course {c : Call} (h : c.onTerminal = true) (m : Machine) (io : σ) :
    m.Course io (m.call c io).1.done.toList (m.call c io).1.verdict (m.call c io).2.1
      (m.call c io).2.2 := by
  cases c with
  | step =>
    rw [call_step]
    exact course_trace 1 m io
  | run bound => exact course_trace bound m io
  | table => cases h

/-- In silence tables make no difference. -/
theorem call_course_silent (c : Call) (m : Machine) :
    m.Course Silent.mk (m.call c Silent.mk).1.done.toList (m.call c Silent.mk).1.verdict
      (m.call c Silent.mk).2.1 (m.call c Silent.mk).2.2 := by
  cases c with
  | step | run => exact call_course rfl m Silent.mk
  | table bound room => exact Table.print_course bound m (.ofRoom room)

/-- A call for a table, which does not use the terminal, is a course in silence. -/
theorem exists_course (c : Call) (m : Machine) (io : σ) :
    ∃ (τ : Type) (_ : Terminal τ) (t t' : τ), m.Course t (m.call c io).1.done.toList
      (m.call c io).1.verdict (m.call c io).2.1 t' := by
  cases c with
  | step | run => exact ⟨σ, _, io, _, call_course rfl m io⟩
  | table bound room => exact ⟨Silent, _, .mk, .mk, call_course_silent (.table bound room) m⟩

/-! ## Machines that have stopped -/

theorem trace_of_not_running (hs : m.status ≠ .running) (n : Nat) (io : σ) :
    m.trace n io = (#[], .ofBound n, m, io) := by
  cases n with
  | zero => rfl
  | succ n => rw [trace_succ, step_of_not_running hs, Ending.ofBound]

theorem rows_of_not_running (hs : m.status ≠ .running) (n : Nat) (page : Table.Page) :
    Table.rows n #[] m page = (#[], .ofBound n, m, page) := by
  cases n with
  | zero => rfl
  | succ n => rw [Table.rows, step_of_not_running hs, Ending.ofBound]

theorem call_of_not_running (hs : m.status ≠ .running) (c : Call) (io : σ) :
    m.call c io = (c.idle, m, io) := by
  cases c with
  | step => rw [call, step_of_not_running hs, Call.idle]
  | run bound => rw [call, trace_of_not_running hs, Call.idle]
  | table bound room =>
    rw [call, Call.idle]
    by_cases hfits : (Table.Page.ofRoom room).sink.fits (utf8 Table.heading) = true
    · obtain ⟨page, hprint, -, -, htaken⟩ :=
        Table.print_heading bound m (Table.Page.hasRoom_iff_fits.mpr hfits)
      rw [rows_of_not_running hs] at hprint
      simp only [hprint, htaken, if_pos hfits, Writer.accepted_of_fits hfits]
      rfl
    · cases room with
      | none => exact absurd rfl hfits
      | some room =>
        have hroom : room < (utf8 Table.heading).length := by
          simpa [Table.Page.ofRoom, Writer.fits] using hfits
        have hp : (Table.Page.ofRoom (some room)).sink.room = some room := rfl
        obtain ⟨page, hprint, htaken⟩ := Table.heading_overflow bound m hp hroom
        simp only [hprint, htaken, if_neg hfits]
        rfl

/-- No call wakes a machine that has stopped. -/
theorem serve_of_not_running (hs : m.status ≠ .running) (calls : List Call) (io : σ) :
    m.serve calls io = (calls.map Call.idle, m, io) := by
  induction calls with
  | nil => rfl
  | cons c calls ih => rw [serve_cons, call_of_not_running hs, ih, List.map_cons]

end Machine

end Brainfuck
