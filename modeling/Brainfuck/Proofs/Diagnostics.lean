import Brainfuck.Proofs.Course
import Brainfuck.Proofs.LoopStack
import Brainfuck.Report

/-! Errors and their reports point at the culprit. Wherever a run fails, after any
jumps, the position it fails at holds the character that its error speaks of (`Found`),
and the report draws its caret under that character, however the text around it had to
be cut. -/

namespace Brainfuck

/-! ## Reports line by line -/

/-- A text without control characters. -/
def Plain (s : String) : Prop := s.toList.all (!isControl ·) = true

instance (s : String) : Decidable (Plain s) := inferInstanceAs (Decidable (_ = true))

theorem plain_iff {s : String} : Plain s ↔ ∀ ch ∈ s.toList, isControl ch = false := by
  simp [Plain]

namespace Plain

variable {s t : String}

theorem not_mem {ch : Char} (h : Plain s) (hch : isControl ch = true) : ch ∉ s.toList := by
  intro hmem
  rw [plain_iff.mp h ch hmem] at hch
  cases hch

theorem append (hs : Plain s) (ht : Plain t) : Plain (s ++ t) := by
  rw [Plain, String.toList_append, List.all_append, hs, ht]
  rfl

theorem ofList {cs : List Char} (h : ∀ ch ∈ cs, isControl ch = false) :
    Plain (String.ofList cs) := by
  rw [Plain, String.toList_ofList, List.all_eq_true]
  intro ch hch
  rw [h ch hch]
  rfl

theorem oneLine (h : Plain s) : OneLine s := h.not_mem rfl

end Plain

namespace Report

theorem isControl_of_mem_toDigits {n : Nat} {ch : Char} (h : ch ∈ Nat.toDigits 16 n) :
    isControl ch = false := by
  have hdigit : ∀ d < 16, isControl d.digitChar = false := by decide
  induction n using Nat.strongRecOn with
  | _ n ih =>
    rw [Nat.toDigits_eq_if (by decide)] at h
    split at h
    · rw [List.mem_singleton.mp h]
      exact hdigit n ‹_›
    · rcases List.mem_append.mp h with h | h
      · exact ih (n / 16) (by omega) h
      · rw [List.mem_singleton.mp h]
        exact hdigit (n % 16) (Nat.mod_lt n (by decide))

theorem plain_escaped (ch : Char) : Plain (escaped ch) := by
  have hopen : Plain "\\u\x7b" := by decide
  unfold escaped
  split
  case h_4 => exact (hopen.append (.ofList fun _ => isControl_of_mem_toDigits)).append (by decide)
  all_goals decide

/-- A report spells no character with a control character. -/
theorem plain_describe (ch : Char) : Plain (describe ch) := by
  have hquote : Plain "'" := by decide
  refine (hquote.append ?_).append hquote
  split
  · exact plain_escaped ch
  · rename_i hch
    rw [Plain, String.toList_singleton]
    simpa using hch

theorem isControl_shown (ch : Char) : isControl (shown ch) = false := by
  unfold shown
  split
  · rfl
  · exact eq_false_of_ne_true ‹_›

/-- What happened, as a report begins. -/
def summary (program : Option String) (f : Failure) : String :=
  (match program with
    | none => ""
    | some p => p ++ ": ")
    ++ cause f

/-- A caret in this column of a line. -/
def pointer (column : Nat) : String := String.ofList (List.replicate column ' ') ++ "^"

variable {program : Option String} {f : Failure} {code slice : List Char} {pos caret : Nat}

/-- A control character in the account of what happened comes from the terminal. -/
theorem control_of_cause {ch : Char} (h : ch ∈ (cause f).toList) (hch : isControl ch = true) :
    ∃ s ∈ f.source?, ch ∈ s.toList := by
  cases f with
  | invalidCommand c ip =>
    have hplain : Plain ("Invalid command " ++ describe c) := .append (by decide) (plain_describe c)
    exact absurd h (hplain.not_mem hch)
  | unbalanced side ip =>
    have hplain : Plain (cause (.unbalanced side ip)) := by
      cases side with
      | opening => exact (by decide : Plain "Unbalanced bracket: '[' has no matching ']'")
      | closing => exact (by decide : Plain "Unbalanced bracket: ']' has no open loop to repeat")
    exact absurd h (hplain.not_mem hch)
  | io e ip =>
    have hplain : Plain "I/O error: " := by decide
    rw [cause, String.toList_append, List.mem_append] at h
    exact ⟨e.message, rfl, h.resolve_left (hplain.not_mem hch)⟩

theorem control_of_summary {ch : Char} (h : ch ∈ (summary program f).toList)
    (hch : isControl ch = true) :
    (∃ s ∈ program, ch ∈ s.toList) ∨ ∃ s ∈ f.source?, ch ∈ s.toList := by
  have hplain : Plain ": " := by decide
  rw [summary.eq_def, String.toList_append, List.mem_append] at h
  rcases h with h | h
  · cases program with
    | none => simp at h
    | some p =>
      rw [String.toList_append, List.mem_append] at h
      exact .inl ⟨p, rfl, h.resolve_right (hplain.not_mem hch)⟩
  · exact .inr (control_of_cause h hch)

theorem oneLine_summary (hp : ∀ s ∈ program, OneLine s) (hf : ∀ s ∈ f.source?, OneLine s) :
    OneLine (summary program f) := by
  intro h
  rcases control_of_summary h rfl with ⟨s, hs, hmem⟩ | ⟨s, hs, hmem⟩
  · exact hp s hs hmem
  · exact hf s hs hmem

theorem plain_summary (hp : ∀ s ∈ program, Plain s) (hf : ∀ s ∈ f.source?, Plain s) :
    Plain (summary program f) := by
  refine plain_iff.mpr fun ch h => eq_false_of_ne_true fun hch => ?_
  rcases control_of_summary h hch with ⟨s, hs, hmem⟩ | ⟨s, hs, hmem⟩
  · exact (hp s hs).not_mem hch hmem
  · exact (hf s hs).not_mem hch hmem

/-- The window holds a stretch of the code, and its caret counts from the beginning of
the stretch to the position. -/
theorem window?_eq_some (h : window? code pos = some (slice, caret)) :
    slice <:+: code.map shown ∧ slice[caret]? = (code.map shown)[pos]? := by
  unfold window? at h
  split at h
  · cases h
    have hpos : pos - reach + (pos - (pos - reach)) = pos := by omega
    refine ⟨((List.take_prefix _ _).isInfix.trans (List.drop_suffix _ _).isInfix).map shown, ?_⟩
    rw [List.getElem?_map, List.getElem?_take_of_lt (by omega), List.getElem?_drop, hpos,
      List.getElem?_map]
  · cases h

theorem window?_isSome_iff : (window? code pos).isSome ↔ pos < code.length := by
  unfold window?
  split <;> simp_all

/-- The two lines of a window. -/
theorem context_eq (h : window? code pos = some (slice, caret)) :
    context code pos =
      "  " ++ String.ofList slice ++ "\n" ++ (pointer (2 + caret) ++ "\n" ++ "") := by
  rw [← String.toList_inj]
  simp [context, h, pointer, Nat.add_comm 2, List.replicate_succ]

theorem linesOf_context (h : window? code pos = some (slice, caret)) :
    linesOf (context code pos) = ["  " ++ String.ofList slice, pointer (2 + caret)] := by
  have hslice : OneLine ("  " ++ String.ofList slice) := by
    refine .append (by decide) (Plain.ofList fun ch hch => ?_).oneLine
    obtain ⟨c, -, rfl⟩ := List.mem_map.mp ((window?_eq_some h).1.subset hch)
    exact isControl_shown c
  have hcaret : OneLine (pointer (2 + caret)) := .append (.replicate (by decide) _) (by decide)
  rw [context_eq h, linesOf_append hslice, linesOf_append hcaret, linesOf_empty]

theorem linesOf_render (hp : ∀ s ∈ program, OneLine s) (hf : ∀ s ∈ f.source?, OneLine s)
    (code : String) :
    linesOf (render program code f) =
      (summary program f ++ " at instruction " ++ toString f.ip) ::
        linesOf (context code.toList f.ip) :=
  linesOf_append (.append (.append (oneLine_summary hp hf) (by decide)) (.ofNat f.ip)) _

/-- Two lines show the position if it lies in the code, and none if it does not. -/
theorem linesOf_context_cases (code : List Char) (pos : Nat) :
    (code.length ≤ pos → linesOf (context code pos) = []) ∧
    ∀ ch, code[pos]? = some ch → ∃ slice window column,
      linesOf (context code pos) = [window, pointer column] ∧
      window = "  " ++ String.ofList slice ∧ slice <:+: code.map shown ∧
      window.toList[column]? = some (if isControl ch then '?' else ch) := by
  constructor
  · intro hle
    have hw : window? code pos = none := if_neg (Nat.not_lt.mpr hle)
    rw [context, hw, linesOf_empty]
  · intro ch hch
    obtain ⟨⟨slice, caret⟩, hw⟩ := Option.isSome_iff_exists.mp
      (window?_isSome_iff.mpr (List.getElem?_eq_some_iff.mp hch).1)
    obtain ⟨hpiece, hcaret⟩ := window?_eq_some hw
    refine ⟨slice, _, 2 + caret, linesOf_context hw, rfl, hpiece, ?_⟩
    rw [List.getElem?_map, hch] at hcaret
    -- the caret is as far to the right as the margin in front of the slice is wide
    simpa [Nat.add_comm 2, shown] using hcaret

end Report

/-! ## What is found at the position of an error -/

namespace Failure

/-- What the program has at the position that the failure points at. Behind its last
character only the terminal can fail. -/
def Found (p : Program) : Failure → Prop
  | invalidCommand ch ip => p[ip]? = some ch ∧ ∀ c : Command, ch ≠ c.symbol
  | unbalanced .opening ip => p[ip]? = some '['
  | unbalanced .closing ip => p[ip]? = some ']'
  | io _ ip => p[ip]? = some '.' ∨ p[ip]? = some ',' ∨ ip = p.size

end Failure

namespace Machine

variable {σ : Type} [Terminal σ] {m m' : Machine} {io io' : σ} {f : Failure}

theorem Fails.found (hf : m.Fails io f io') : f.Found m.program := by
  cases hf with
  | invalid hc hn => exact ⟨hc, Command.ofChar?_eq_none_iff.mp hn⟩
  | unclosed hc | unopened hc => exact hc
  | output hc => exact .inl hc
  | prompt hc | input hc => exact .inr (.inl hc)

/-- The last step of a run that fails, from the machine that came to it. -/
theorem exists_failing_step
    (h : m.step io = (.failed f, m', io') ∨ ∃ n, m.run n io = (.failed f, m', io')) :
    ∃ k mid u, m.run k io = (.paused, mid, u) ∧ Transition mid u (.failed f) m' io' := by
  rcases h with h | ⟨n, h⟩
  · exact ⟨0, m, io, rfl, step_eq_iff.mp h⟩
  · rcases htr : m.trace n io with ⟨es, r, t⟩
    obtain ⟨rfl, rfl⟩ : r = .failed f ∧ t = (m', io') := by
      rw [← trace_snd, htr] at h
      exact Prod.mk.inj h
    obtain ⟨mid, u, hc, ht⟩ := (trace_course htr).at_failure rfl
    refine ⟨es.toList.length, mid, u, ?_, ht⟩
    rw [← trace_snd, hc.trace_eq rfl]

/-- **Errors point at the culprit.** Let a step or a run fail, wherever calls had led the
machine before. The position of the error holds the character it speaks of: one that is
no command, the bracket in question, or a `.` or `,` that the terminal refused. Only the
closing line is refused at the end of the program. The first line of the report ends with
the position. Two more lines follow if and only if the position lies in the program: a
stretch of it, and a caret in the column of the character in question, for which `?`
stands if it is a control character. -/
theorem Reachable.failure_located {source : String} (h : Reachable source m)
    (hf : m.step io = (.failed f, m', io') ∨ ∃ n, m.run n io = (.failed f, m', io')) :
    f.Found m.program ∧
    (m.program.size ≤ f.ip → f.ip = m.program.size ∧ ∃ e k mid u, f = .io e f.ip ∧
      m.run k io = (.paused, mid, u) ∧ mid.next = m.program.size ∧
      endLine u = (.error e, io')) ∧
    ∀ name, (∀ s ∈ name, OneLine s) → (∀ s ∈ f.source?, OneLine s) →
      let report := linesOf (Report.render name m'.program.text f)
      ∃ start, let first := start ++ " at instruction " ++ toString f.ip
        (m.program.size ≤ f.ip → report = [first]) ∧
        ∀ ch, m.program[f.ip]? = some ch → ∃ slice window column,
          report = [first, window, Report.pointer column] ∧
          window = "  " ++ String.ofList slice ∧ slice <:+: m.program.toList.map Report.shown ∧
          window.toList[column]? = some (if isControl ch then '?' else ch) := by
  obtain ⟨k, mid, u, hrun, ht⟩ := exists_failing_step hf
  have hmid := h.run hrun
  have hp : mid.program = m.program := hmid.program_eq.trans h.program_eq.symm
  refine ⟨?_, ?_, ?_⟩
  · cases ht with
    | failed _ hf => exact hp ▸ hf.found
    | endRefused hs hc =>
      exact .inr (.inr (Nat.le_antisymm (hp ▸ hmid.next_le hs)
        (hp ▸ Array.getElem?_eq_none_iff.mp hc)))
  · intro hle
    cases ht with
    | failed _ hf => exact absurd (hp ▸ hf.next_lt) (Nat.not_lt.mpr (hf.ip_eq ▸ hle))
    | @endRefused _ e hs hc he =>
      have hnext : mid.next = m.program.size := Nat.le_antisymm (hp ▸ hmid.next_le hs) hle
      exact ⟨hnext, e, k, mid, u, rfl, hrun, hnext, he⟩
  · intro name hname hsource report
    have hcode : m'.program.text.toList = m.program.toList := by
      rw [ht.program_eq, hp, Program.text, String.toList_ofList]
    have hreport : report = _ := Report.linesOf_render hname hsource m'.program.text
    obtain ⟨hnone, hsome⟩ := Report.linesOf_context_cases m.program.toList f.ip
    rw [hcode] at hreport
    refine ⟨Report.summary name f, fun hle => ?_, fun ch hch => ?_⟩
    · rw [hreport, hnone hle]
    · obtain ⟨slice, window, column, hlines, hwindow⟩ := hsome ch (by rwa [Array.getElem?_toList])
      exact ⟨slice, window, column, by rw [hreport, hlines], hwindow⟩

/-- An unknown control character behind a loop, deep in a program: the window is cut on
both sides, and the caret stands under the `?` in the middle of it. -/
theorem failure_located_past_a_loop :
    ∃ (source : String) (m' : Machine) (start window : String) (column : Nat),
      (source = "+[->+<]" ++ String.ofList (List.replicate 40 '>') ++ "\x07" ++
          String.ofList (List.replicate 40 '<') ∧
        (load source).run 60 Silent.mk = (.failed (.invalidCommand '\x07' 47), m', .mk)) ∧
      linesOf (Report.render (some "bf") m'.program.text (.invalidCommand '\x07' 47)) =
        [start ++ " at instruction " ++ "47", window, Report.pointer column] ∧
      window.toList[column]? = some '?' := by
  obtain ⟨source, hsource⟩ : ∃ source, source = "+[->+<]" ++
      String.ofList (List.replicate 40 '>') ++ "\x07" ++ String.ofList (List.replicate 40 '<') :=
    ⟨_, rfl⟩
  have hfacts : ((load source).run 60 Silent.mk).1 = .failed (.invalidCommand '\x07' 47) ∧
      (load source).program[47]? = some '\x07' ∧ toString 47 = "47" := by
    rw [hsource]
    decide +kernel
  rcases hrun : (load source).run 60 Silent.mk with ⟨r, m', ⟨⟩⟩
  rw [hrun] at hfacts
  obtain ⟨rfl, hch, hip⟩ := hfacts
  obtain ⟨-, -, hlines⟩ := Reachable.failure_located .load (.inr ⟨60, hrun⟩)
  obtain ⟨start, -, hshown⟩ := hlines (some "bf") (by simp [OneLine]) (by simp [Failure.source?])
  obtain ⟨slice, window, column, hreport, -, -, hcolumn⟩ := hshown _ hch
  rw [Failure.ip, hip] at hreport
  exact ⟨source, m', start, window, column, ⟨hsource, hrun⟩, hreport, hcolumn⟩

end Machine

end Brainfuck
