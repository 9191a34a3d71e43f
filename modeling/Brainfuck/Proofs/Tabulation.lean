import Brainfuck.Proofs.Quiet
import Brainfuck.Table

/-! The step table of a machine. On a page that never fills up it is the text of
the instructions executed, row by row, and these are the instructions of a run on
any terminal that takes everything and has nothing to read: printing the table is
such a run, with nobody there. -/

namespace Brainfuck

open Terminal (Quiet)

/-- How the machine came to rest whose table ended like this. In silence nothing is
refused, so that an I/O error is the page's and the machine can go on. -/
def Ending.ofMachine : Ending → Ending
  | .failed (.io _ _) => .paused
  | r => r

theorem Ending.ofMachine_of_ne {r : Ending} (h : ∀ e ip, r ≠ .failed (.io e ip)) :
    r.ofMachine = r := by
  unfold ofMachine
  split
  · exact absurd rfl (h _ _)
  · rfl

namespace Table

/-! ## The text -/

/-- The rows of some instructions, the first of which has the number `n`. -/
def lines (n : Nat) : List Executed → String
  | [] => ""
  | e :: es => row n e ++ lines (n + 1) es

def heading : String := titles ++ rule

/-- The table of some instructions. -/
def text (es : List Executed) : String := heading ++ lines 0 es

theorem oneLine_padRight {s : String} (h : OneLine s) (width : Nat) :
    OneLine (padRight width s) :=
  h.append (.replicate (by decide) _)

theorem oneLine_symbol (c : Command) : OneLine (String.singleton c.symbol) := by
  cases c <;> decide

/-- A row is one line. -/
theorem row_eq_line (n : Nat) (e : Executed) : ∃ line, row n e = line ++ "\n" ∧ OneLine line := by
  have hbar : OneLine " | " := by decide
  have hnat (width k : Nat) := oneLine_padRight (.ofNat k) width
  have hptr := oneLine_padRight (.ofInt e.pointer) 3
  have hstep := ((hnat 4 n).append hbar).append (hnat 3 e.ip)
  have hstate := (((hstep.append hbar).append hptr).append hbar).append (hnat 4 e.cell.toNat)
  have hinstr := (hstate.append (by decide : OneLine " |  ")).append (oneLine_symbol e.command)
  exact ⟨_, rfl, (hinstr.append (by decide : OneLine "    | ")).append e.effect.oneLine_text⟩

theorem utf8_text (es : List Executed) : utf8 (text es) = utf8 heading ++ utf8 (lines 0 es) :=
  utf8_append heading (lines 0 es)

/-! ## Any page -/

/-- Whatever becomes of the rows, the machine goes its course in silence. -/
theorem rows_course (n : Nat) (done : Array Executed) (m : Machine) (page : Page) :
    ∃ es, (rows n done m page).1 = done ++ es.toArray ∧
      m.Course Silent.mk es (rows n done m page).2.1.ofMachine (rows n done m page).2.2.1
        Silent.mk := by
  induction n generalizing done m page with
  | zero => exact ⟨[], by simp [rows], .paused _ _⟩
  | succ n ih =>
    rw [rows]
    rcases hs : m.step Silent.mk with ⟨e | _ | f, m₁, ⟨⟩⟩
    · have ht := Machine.step_eq_iff.mp hs
      rcases hp : page.print (row done.size e) with ⟨_ | _, p₁⟩
      · exact ⟨[e], by simp [hp], by simpa [hp] using .executed ht (.paused _ _)⟩
      · obtain ⟨es, hes, hc⟩ := ih (done.push e) m₁ p₁
        exact ⟨e :: es, by simp [hp, hes], by simpa [hp] using .executed ht hc⟩
    · exact ⟨[], by simp, .halted (Machine.step_eq_iff.mp hs)⟩
    · have ht := Machine.step_eq_iff.mp hs
      refine ⟨[], by simp, ?_⟩
      rw [Ending.ofMachine_of_ne fun err ip hf => by cases hf; exact ht.not_io_silent]
      exact .failed ht

theorem print_course (n : Nat) (m : Machine) (page : Page) :
    m.Course Silent.mk (print n m page).1.toList (print n m page).2.1.ofMachine
      (print n m page).2.2.1 Silent.mk := by
  rw [print]
  rcases page.print titles with ⟨_ | _, p₁⟩
  · exact .paused _ _
  · dsimp only
    rcases p₁.print rule with ⟨_ | _, p₂⟩
    · exact .paused _ _
    · obtain ⟨es, hes, hc⟩ := rows_course n #[] m p₂
      simpa [hes] using hc

/-! ## Pages with room enough -/

/-- The page still takes `n` bytes. -/
def Page.HasRoom (p : Page) (n : Nat) : Prop := ∀ room, p.sink.room = some room → n ≤ room

theorem Page.HasRoom.rest {p p' : Page} {a b : Nat} (h : p.HasRoom (a + b))
    (hr : p'.sink.room = p.sink.room.map (· - a)) : p'.HasRoom b := by
  intro room hp'
  rw [hr] at hp'
  obtain ⟨room', hp, rfl⟩ := Option.map_eq_some_iff.mp hp'
  have hle := h room' hp
  omega

theorem Page.print_eq (p : Page) (s : String) :
    p.print s = (if p.sink.fits (utf8 s) then .ok () else .error p.sink.refusal,
      ⟨(p.sink.write (utf8 s)).2, p.taken ++ p.sink.accepted (utf8 s)⟩) := rfl

theorem Page.hasRoom_iff_fits {p : Page} {bytes : List UInt8} :
    p.HasRoom bytes.length ↔ p.sink.fits bytes = true := by
  unfold HasRoom Writer.fits
  cases p.sink.room <;> simp

theorem Page.print_fits {p : Page} {s : String} (h : p.HasRoom (utf8 s).length) :
    ∃ p', p.print s = (.ok (), p') ∧ p'.sink.room = p.sink.room.map (· - (utf8 s).length) ∧
      p'.sink.refusal = p.sink.refusal ∧ p'.taken.toList = p.taken.toList ++ utf8 s := by
  have hf := hasRoom_iff_fits.mp h
  refine ⟨⟨(p.sink.write (utf8 s)).2, p.taken ++ p.sink.accepted (utf8 s)⟩,
    by rw [Page.print_eq, if_pos hf], rfl, rfl, ?_⟩
  simp [Writer.accepted_of_fits hf]

/-- Rows that fit are those of a run in silence. -/
theorem rows_fit (n : Nat) (done : Array Executed) (m : Machine) {page : Page}
    (h : page.HasRoom (utf8 (lines done.size (m.trace n Silent.mk).1.toList)).length) :
    ∃ page', rows n done m page = (done ++ (m.trace n Silent.mk).1, (m.trace n Silent.mk).2.1,
        (m.trace n Silent.mk).2.2.1, page') ∧
      page'.taken.toList =
        page.taken.toList ++ utf8 (lines done.size (m.trace n Silent.mk).1.toList) := by
  induction n generalizing done m page with
  | zero =>
    exact ⟨page, by simp [rows, Machine.trace_zero], by simp [Machine.trace_zero, lines]⟩
  | succ n ih =>
    rw [Machine.trace_succ] at h ⊢
    rw [rows]
    generalize m.step Silent.mk = x at h ⊢
    rcases x with ⟨e | _ | f, m₁, ⟨⟩⟩
    · simp only [Array.toList_append, List.singleton_append, lines, utf8_append,
        List.length_append] at h
      obtain ⟨p₁, hprint, hr₁, -, ht₁⟩ :=
        Page.print_fits fun room hr => Nat.le_trans (Nat.le_add_right _ _) (h room hr)
      have hrest := h.rest hr₁
      rw [← Array.size_push e] at hrest
      obtain ⟨page', hrows, ht⟩ := ih (done.push e) m₁ hrest
      refine ⟨page', ?_, ?_⟩
      · simp only [hprint, hrows]
        simp
      · rw [ht, ht₁]
        simp [lines]
    · exact ⟨page, by simp, by simp [lines]⟩
    · exact ⟨page, by simp, by simp [lines]⟩

/-- Below a heading that fits stand the rows. -/
theorem print_heading (n : Nat) (m : Machine) {page : Page}
    (h : page.HasRoom (utf8 heading).length) :
    ∃ page', print n m page = rows n #[] m page' ∧
      page'.sink.room = page.sink.room.map (· - (utf8 heading).length) ∧
      page'.sink.refusal = page.sink.refusal ∧
      page'.taken.toList = page.taken.toList ++ utf8 heading := by
  have hlen : (utf8 heading).length = (utf8 titles).length + (utf8 rule).length := by
    rw [heading, utf8_append, List.length_append]
  rw [hlen] at h
  obtain ⟨p₁, h₁, hr₁, hf₁, ht₁⟩ :=
    Page.print_fits fun room hr => Nat.le_trans (Nat.le_add_right _ _) (h room hr)
  obtain ⟨p₂, h₂, hr₂, hf₂, ht₂⟩ := Page.print_fits (h.rest hr₁)
  refine ⟨p₂, ?_, ?_, by rw [hf₂, hf₁], ?_⟩
  · rw [print, h₁]
    dsimp only
    rw [h₂]
  · simp only [hr₂, hr₁, hlen, Option.map_map, Function.comp_def, Nat.sub_sub]
  · rw [ht₂, ht₁, heading, utf8_append, List.append_assoc]

theorem print_fits (n : Nat) (m : Machine) {page : Page} (h0 : page.taken = #[])
    (h : page.HasRoom (utf8 (text (m.trace n Silent.mk).1.toList)).length) :
    ∃ page', print n m page = ((m.trace n Silent.mk).1, (m.trace n Silent.mk).2.1,
        (m.trace n Silent.mk).2.2.1, page') ∧
      page'.taken.toList = utf8 (text (m.trace n Silent.mk).1.toList) := by
  rw [utf8_text, List.length_append] at h
  obtain ⟨p₁, h₁, hr₁, -, ht₁⟩ :=
    print_heading n m fun room hr => Nat.le_trans (Nat.le_add_right _ _) (h room hr)
  obtain ⟨page', hrows, ht⟩ := rows_fit n #[] m (h.rest hr₁)
  refine ⟨page', by rw [h₁, hrows, Array.empty_append], ?_⟩
  rw [ht, ht₁, h0, utf8_text]
  rfl

theorem print_unlimited (n : Nat) (m : Machine) :
    ∃ page', print n m (.ofRoom none) = ((m.trace n Silent.mk).1, (m.trace n Silent.mk).2.1,
        (m.trace n Silent.mk).2.2.1, page') ∧
      page'.taken.toList = utf8 (text (m.trace n Silent.mk).1.toList) :=
  print_fits n m rfl fun _ hr => by cases hr

/-! ## The table of a run -/

variable {σ : Type} [Terminal σ] {P : σ → Prop} {io : σ}

theorem print_quiet (hq : Quiet P) (h : P io) (n : Nat) (m : Machine) :
    ∃ page, print n m (.ofRoom none) =
        ((m.trace n io).1, (m.run n io).1, (m.run n io).2.1, page) ∧
      page.taken.toList = utf8 (text (m.trace n io).1.toList) := by
  obtain ⟨io', htr, -⟩ := Machine.trace_quiet hq h n m
  rw [← Machine.trace_snd, htr]
  exact print_unlimited n m

end Table

end Brainfuck
