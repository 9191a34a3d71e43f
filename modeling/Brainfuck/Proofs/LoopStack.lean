import Brainfuck.Log
import Brainfuck.Proofs.Matching
import Brainfuck.Proofs.Transition
import Brainfuck.Terminal.Silent

/-! The loop stack of a machine and the text of its program. The stack changes
only with the brackets that happen to be executed, and skipping and repeating
jump over text; still it is at any time what the scan of the text from the left
finds open before the next position (`Tracks`).

So the stack hangs on the position alone, and the two ways in which a machine
finds the other end of a loop agree: the search forward through the text, and
the stack. -/

namespace Brainfuck.Machine

variable {σ : Type} [Terminal σ] {m m' : Machine} {io io' : σ} {o : Outcome}

/-! ## The stack is the scan -/

/-- The open loops are those that the scan finds before the next position. -/
def Tracks (m : Machine) : Prop := m.loops = m.program.openLoops m.next

theorem Tracks.loops_eq (h : m.Tracks) : m.loops = m.program.openLoops m.next := h

theorem Acts.tracks {c : Command} {e : Effect} (ha : m.Acts io c e m' io')
    (hc : m.program[m.next]? = some c.symbol) (h : m.Tracks) : m'.Tracks := by
  unfold Tracks at h
  cases ha with
  | right | left | increment | decrement | output | input =>
    show m.loops = m.program.openLoops (m.next + 1)
    rw [Program.openLoops_succ_of_other (by simp [hc, Command.symbol])
      (by simp [hc, Command.symbol]), h]
  | @skip j h0 hj =>
    show m.loops = m.program.openLoops (j + 1)
    rw [Program.closing?_eq_ending? hc, Program.ending?_eq_some_iff] at hj
    rw [Program.openLoops_succ_of_opening? hj, h]
  | enter h0 =>
    show m.next :: m.loops = m.program.openLoops (m.next + 1)
    rw [Program.openLoops_succ_of_open hc, h]
  | @exit i loops h0 hl =>
    show loops = m.program.openLoops (m.next + 1)
    rw [Program.openLoops_succ_of_close hc, ← h, hl, List.tail_cons]
  | stray h0 hl =>
    show m.loops = m.program.openLoops (m.next + 1)
    rw [Program.openLoops_succ_of_close hc, ← h, hl, List.tail_nil]
  | @again i loops h0 hl =>
    show m.loops = m.program.openLoops (i + 1)
    have hp : m.program.opening? m.next = some i :=
      Program.opening?_eq_some_iff.mpr ⟨hc, by simp [← h, hl]⟩
    rw [Program.openLoops_body_of_opening? hp, h]

theorem Transition.tracks (ht : Transition m io o m' io') (h : m.Tracks)
    (hs : m'.status ≠ .failed) : m'.Tracks := by
  cases ht with
  | idle => exact h
  | executed _ hc ha => exact ha.tracks hc h
  | failed => exact absurd rfl hs
  | ended _ hp | endRefused _ hp =>
    show m.loops = m.program.openLoops (m.next + 1)
    rw [Program.openLoops_succ_of_other (by simp [hp]) (by simp [hp]), h]

/-- A machine that has failed may have failed at a `[`, which the scan counts as
open and the machine does not. Every other reachable machine keeps track. -/
theorem Reachable.tracks {source : String} (h : Reachable source m) (hs : m.status ≠ .failed) :
    m.Tracks := by
  induction h with
  | load => rfl
  | @step _ _ m _ _ _ _ _ hstep ih =>
    have ht := step_eq_iff.mp hstep
    refine ht.tracks (ih fun hf => hs ?_) hs
    -- a machine that has failed stays as it is
    rw [step_of_not_running (by simp [hf])] at hstep
    cases hstep
    exact hf

/-! ## The end of the program -/

theorem Transition.size_le_next (ht : Transition m io o m' io')
    (h : m.status = .terminated → m.program.size ≤ m.next) (hs : m'.status = .terminated) :
    m'.program.size ≤ m'.next := by
  cases ht with
  | idle => exact h hs
  | executed hr _ ha =>
    rw [ha.status_eq, hr] at hs
    cases hs
  | failed => cases hs
  | ended _ hp | endRefused _ hp => exact Nat.le_succ_of_le (Array.getElem?_eq_none_iff.mp hp)

theorem Reachable.size_le_next {source : String} (h : Reachable source m)
    (hs : m.status = .terminated) : m.program.size ≤ m.next := by
  induction h with
  | load => cases hs
  | step _ hstep ih => exact (step_eq_iff.mp hstep).size_le_next ih hs

theorem Acts.next_le {c : Command} {e : Effect} (ha : m.Acts io c e m' io')
    (hc : m.program[m.next]? = some c.symbol) (h : m.Tracks) : m'.next ≤ m'.program.size := by
  have hlt : m.next < m.program.size := (Array.getElem?_eq_some_iff.mp hc).1
  cases ha with
  | right | left | increment | decrement | output | input | enter | exit | stray => exact hlt
  | skip h0 hj => exact (Array.getElem?_eq_some_iff.mp (Program.closing?_bounds hj).2).1
  | @again i loops h0 hl =>
    have hi : i ∈ m.program.openLoops m.next := by
      rw [← h.loops_eq, hl]
      exact List.mem_cons_self
    exact Nat.le_trans (Program.mem_openLoops hi).1 (Nat.le_of_lt hlt)

theorem Reachable.next_le {source : String} (h : Reachable source m) (hs : m.status = .running) :
    m.next ≤ m.program.size := by
  cases h with
  | load => exact Nat.zero_le _
  | step h hstep =>
    cases step_eq_iff.mp hstep with
    | idle hr => exact absurd hs hr
    | executed hr hc ha => exact ha.next_le hc (h.tracks (by simp [hr]))
    | failed | ended | endRefused => cases hs

theorem Reachable.depth_of_terminated {source : String} (h : Reachable source m)
    (hs : m.status = .terminated) : m.depth = m.program.unclosed.length := by
  rw [depth, (h.tracks (by simp [hs])).loops_eq, Program.openLoops_of_size_le (h.size_le_next hs),
    Program.length_openLoops_size]

/-- **The loop stack is read off the text.** Wherever a machine has got to
without failing, its stack is what the scan up to that position leaves open. It
holds rising positions of `[`, none behind the machine's own and none twice; two
machines at one position of a program have one stack; and at the end, where its
depth is reported, it holds the `[` without a partner. -/
theorem Reachable.loops_eq_scan {source : String} (h : Reachable source m)
    (hs : m.status ≠ .failed) :
    m.loops = m.program.openLoops m.next ∧
    m.loops.reverse.Pairwise (· < ·) ∧ m.loops.Nodup ∧
    (∀ i ∈ m.loops, m.program[i]? = some '[' ∧ ∀ ip, m.ip = some ip → i ≤ ip) ∧
    (∀ m₂, Reachable source m₂ → m₂.status ≠ .failed → m₂.ip = m.ip →
      m₂.loops = m.loops ∧ m₂.depth = m.depth) ∧
    (m.status = .terminated → m.depth = m.program.unclosed.length ∧
      ∀ before : Machine, before.status = .running → Log.exhausted before m =
        ["DEBUG program exhausted open_loops=" ++ toString m.program.unclosed.length]) := by
  have hl := (h.tracks hs).loops_eq
  refine ⟨hl, ?_, ?_, ?_, ?_, ?_⟩
  · rw [List.pairwise_reverse, hl]
    exact m.program.openLoops_pairwise m.next
  · rw [hl]
    exact m.program.openLoops_nodup m.next
  · intro i hi
    rw [hl] at hi
    obtain ⟨hlt, ho⟩ := Program.mem_openLoops hi
    refine ⟨ho, ?_⟩
    intro ip hip
    rw [next, hip] at hlt
    exact Nat.le_of_lt_succ hlt
  · intro m₂ h₂ hs₂ hip
    have hl₂ := (h₂.tracks hs₂).loops_eq
    have heq : m₂.loops = m.loops := by
      rw [hl₂, hl, h₂.program_eq, h.program_eq, next, next, hip]
    exact ⟨heq, by rw [depth, depth, heq]⟩
  · intro ht
    have hd := h.depth_of_terminated ht
    exact ⟨hd, fun before hb => by rw [Log.exhausted, Log.ofEnd, if_pos ⟨hb, ht⟩, hd]; rfl⟩

/-- One loop is repeated and left, one is skipped, and the last is still open. -/
theorem loops_eq_scan_open_end :
    let m := ((load "++[-][+]+[").run 11 Silent.mk).2.1
    (Reachable "++[-][+]+[" m ∧ m.status ≠ .failed) ∧ m.loops = [9] ∧
      m.loops = m.program.openLoops m.next ∧ m.depth = m.program.unclosed.length := by
  intro m
  have h : Reachable "++[-][+]+[" m :=
    Reachable.load.run (r := ((load "++[-][+]+[").run 11 Silent.mk).1) rfl
  have hs : m.status = .terminated := by decide +kernel
  obtain ⟨hl, -, -, -, -, hd⟩ := Reachable.loops_eq_scan h (by simp [hs])
  exact ⟨⟨h, by simp [hs]⟩, by decide +kernel, hl, (hd hs).1⟩

end Brainfuck.Machine
