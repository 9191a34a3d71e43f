import Brainfuck.Proofs.Diagnostics

/-! The shape of a report, for a failure at any position of any code. It is one line, or
three if the position lies in the code, and the line feeds at their ends are its only
control characters. The second line is cut out of the code around the position; the third
has a caret in the column of the character in question. Where the cut begins and ends is
worked out in machine words, and none of them wraps round. -/

namespace Brainfuck

/-! ## Plain lines -/

/-- Lines one under the other. -/
def unlines (lines : List String) : String := String.join (lines.map (· ++ "\n"))

theorem toList_unlines_cons (line : String) (lines : List String) :
    (unlines (line :: lines)).toList = line.toList ++ '\n' :: (unlines lines).toList := by
  simp [unlines]

/-- The only control characters of plain lines are the line feeds at their ends. -/
theorem filter_isControl_unlines {lines : List String} (h : ∀ line ∈ lines, Plain line) :
    (unlines lines).toList.filter isControl = List.replicate lines.length '\n' := by
  induction lines with
  | nil => rfl
  | cons line lines ih =>
    obtain ⟨hline, hlines⟩ := List.forall_mem_cons.mp h
    have hnone : line.toList.filter isControl = [] := by
      simpa using plain_iff.mp hline
    rw [toList_unlines_cons, List.filter_append, hnone, List.nil_append,
      List.filter_cons_of_pos rfl, ih hlines, List.length_cons, List.replicate_succ]

theorem isDigit_eq_false_of_isControl {ch : Char} (h : isControl ch = true) :
    ch.isDigit = false := by
  simp only [isControl, Bool.or_eq_true, Bool.and_eq_true, decide_eq_true_eq] at h
  refine eq_false_of_ne_true fun hdigit => ?_
  have hbounds : 48 ≤ ch.toNat ∧ ch.toNat ≤ 57 := by
    simpa [Char.isDigit, UInt32.le_iff_toNat_le] using hdigit
  omega

theorem Plain.ofNat (n : Nat) : Plain (toString n) :=
  plain_iff.mpr fun _ hmem => eq_false_of_ne_true fun hch =>
    not_mem_toString_nat (isDigit_eq_false_of_isControl hch) n hmem

namespace Report

variable {program : Option String} {f : Failure} {code : List Char} {pos : Nat}

/-! ## The lines of a report -/

/-- What happened and where. -/
def headline (program : Option String) (f : Failure) : String :=
  summary program f ++ " at instruction " ++ toString f.ip

theorem plain_headline (hp : ∀ s ∈ program, Plain s) (hf : ∀ s ∈ f.source?, Plain s) :
    Plain (headline program f) :=
  .append (.append (plain_summary hp hf) (by decide)) (.ofNat f.ip)

/-- A stretch of code as it is shown. -/
def excerpt (slice : List Char) : String := "  " ++ String.ofList (slice.map shown)

theorem plain_excerpt (slice : List Char) : Plain (excerpt slice) := by
  refine .append (by decide) (.ofList fun ch hch => ?_)
  obtain ⟨c, -, rfl⟩ := List.mem_map.mp hch
  exact isControl_shown c

theorem plain_pointer (column : Nat) : Plain (pointer column) := by
  refine .append (.ofList fun ch hch => ?_) (by decide)
  rw [List.eq_of_mem_replicate hch]
  rfl

theorem render_eq (program : Option String) (code : String) (f : Failure) :
    render program code f = headline program f ++ "\n" ++ context code.toList f.ip := rfl

/-! ## The window -/

theorem window?_of_lt (h : pos < code.length) :
    window? code pos =
      some ((code.extract (pos - 32) (min code.length (pos + 33))).map shown,
        pos - (pos - 32)) := by
  have hlast : min (pos - (pos - 32) + 32 + 1) (code.drop (pos - 32)).length =
      min (min code.length (pos + 33) - (pos - 32)) (code.drop (pos - 32)).length := by
    rw [List.length_drop]
    omega
  rw [window?, if_pos h, List.extract_eq_take_drop, reach]
  dsimp only
  rw [List.take_eq_take_iff.mpr hlast]

theorem length_window (h : pos < code.length) :
    (code.extract (pos - 32) (min code.length (pos + 33))).length =
      min code.length (pos + 33) - (pos - 32) := by
  rw [List.extract_eq_take_drop, List.length_take, List.length_drop]
  omega

/-- The margin in front of an excerpt is two columns wide. -/
theorem getElem?_excerpt (slice : List Char) (i : Nat) :
    (excerpt slice).toList[2 + i]? = (slice.map shown)[i]? := by
  have hmargin : (excerpt slice).toList = ' ' :: ' ' :: slice.map shown := by simp [excerpt]
  rw [hmargin, Nat.add_comm, List.getElem?_cons_succ, List.getElem?_cons_succ]

/-- The caret stands under the character at the position. -/
theorem excerpt_column {ch : Char} (h : code[pos]? = some ch) :
    (excerpt (code.extract (pos - 32) (min code.length (pos + 33)))).toList[
      2 + (pos - (pos - 32))]? = some (shown ch) := by
  rw [getElem?_excerpt,
    (window?_eq_some (window?_of_lt (List.getElem?_eq_some_iff.mp h).1)).2, List.getElem?_map, h]
  rfl

/-! ## One line or three -/

variable {code : String}

theorem render_of_le (h : code.length ≤ f.ip) :
    render program code f = unlines [headline program f] := by
  have hw : window? code.toList f.ip = none := if_neg (by rw [String.length_toList]; omega)
  rw [render_eq, ← String.toList_inj]
  simp [context, hw, unlines]

theorem render_of_lt (h : f.ip < code.length) :
    render program code f = unlines [headline program f,
      excerpt (code.toList.extract (f.ip - 32) (min code.length (f.ip + 33))),
      pointer (2 + (f.ip - (f.ip - 32)))] := by
  have hpos : f.ip < code.toList.length := by rwa [String.length_toList]
  have hw := window?_of_lt hpos
  rw [String.length_toList] at hw
  rw [render_eq, context_eq hw, ← String.toList_inj]
  simp [unlines, excerpt]

/-! ## In machine words -/

/-- The words that are worked out for a window. -/
structure Bounds where
  start : UInt64
  /-- The first position out of reach. -/
  beyond : UInt64
  stop : UInt64
  /-- How many characters are shown. -/
  width : UInt64
  caret : UInt64
  deriving DecidableEq

/-- The bounds of the window around `pos` in a code of `count` characters. -/
def bounds? (count pos : UInt64) : Option Bounds :=
  if pos < count then
    let start := if pos < 32 then 0 else pos - 32
    let beyond := pos + 32 + 1
    let stop := if beyond < count then beyond else count
    some ⟨start, beyond, stop, stop - start, pos - start⟩
  else none

/-- The words are the numbers they are meant to be. -/
structure Bounds.Exact (b : Bounds) (count pos : Nat) : Prop where
  start : b.start.toNat = pos - 32
  beyond : b.beyond.toNat = pos + 33
  stop : b.stop.toNat = min count (pos + 33)
  width : b.start.toNat + b.width.toNat = b.stop.toNat
  caret : b.start.toNat + b.caret.toNat = pos

theorem bounds?_exact {count pos : UInt64} {b : Bounds} (h : count.toNat < 0x8000000000000000)
    (hb : bounds? count pos = some b) : b.Exact count.toNat pos.toNat := by
  have h32 : (32 : UInt64).toNat = 32 := rfl
  unfold bounds? at hb
  split at hb <;> rename_i hlt
  · rw [UInt64.lt_iff_toNat_lt] at hlt
    have hstart : (if pos < 32 then 0 else pos - 32 : UInt64).toNat = pos.toNat - 32 := by
      split <;> rename_i hs <;> rw [UInt64.lt_iff_toNat_lt, h32] at hs
      · rw [UInt64.toNat_zero]
        omega
      · rw [UInt64.toNat_sub, h32]
        omega
    have hbeyond : (pos + 32 + 1).toNat = pos.toNat + 33 := by
      rw [UInt64.toNat_add, UInt64.toNat_add, h32, UInt64.toNat_one]
      omega
    have hstop : (if pos + 32 + 1 < count then pos + 32 + 1 else count : UInt64).toNat =
        min count.toNat (pos.toNat + 33) := by
      split <;> rename_i hs <;> rw [UInt64.lt_iff_toNat_lt, hbeyond] at hs <;> omega
    cases hb
    refine ⟨hstart, hbeyond, hstop, ?_, ?_⟩ <;> dsimp only
    · rw [UInt64.toNat_sub, hstart, hstop]
      omega
    · rw [UInt64.toNat_sub, hstart]
      omega
  · cases hb

/-- The window that the words cut out is the one that is shown. -/
theorem window?_eq_bounds {count pos : UInt64} {code : List Char}
    (hcount : count.toNat = code.length) (h : count.toNat < 0x8000000000000000) :
    window? code pos.toNat = (bounds? count pos).map fun b =>
      (((code.drop b.start.toNat).take b.width.toNat).map shown, b.caret.toNat) := by
  by_cases hlt : pos.toNat < code.length
  · obtain ⟨b, hb⟩ : ∃ b, bounds? count pos = some b :=
      ⟨_, if_pos (UInt64.lt_iff_toNat_lt.mpr (hcount ▸ hlt))⟩
    obtain ⟨hstart, -, hstop, hwidth, hcaret⟩ := bounds?_exact h hb
    rw [hcount] at hstop
    have hwidth' : b.width.toNat = min code.length (pos.toNat + 33) - (pos.toNat - 32) := by omega
    have hcaret' : b.caret.toNat = pos.toNat - (pos.toNat - 32) := by omega
    rw [window?_of_lt hlt, hb, Option.map_some, List.extract_eq_take_drop, hstart, hwidth', hcaret']
  · have hnone : bounds? count pos = none :=
      if_neg (by rw [UInt64.lt_iff_toNat_lt, hcount]; exact hlt)
    rw [window?, if_neg hlt, hnone, Option.map_none]

/-- **The shape of every report.** Take any code, a failure at any position, and a name and a
cause without control characters. If the position does not lie in the code the report is one
line. Else there are two more: an excerpt of the code from 32 characters before the position
to 32 behind it, as far as there are so many, and a caret in the column of the character at
the position. There are no control characters but the line feeds that end these lines; in the
excerpt each is replaced by `?`, so that a character takes one column whatever it is. No
word that has to do with the excerpt wraps round, in any code that fits in memory. -/
theorem render_shape (program : Option String) (code : String) (f : Failure)
    (hp : ∀ s ∈ program, Plain s) (hf : ∀ s ∈ f.source?, Plain s) :
    let report := render program code f
    let slice := code.toList.extract (f.ip - 32) (min code.length (f.ip + 33))
    let column := 2 + (f.ip - (f.ip - 32))
    Plain (headline program f) ∧ Plain (excerpt slice) ∧ Plain (pointer column) ∧
    (code.length ≤ f.ip → report = unlines [headline program f]) ∧
    (f.ip < code.length →
      report = unlines [headline program f, excerpt slice, pointer column]) ∧
    report.toList.filter isControl =
      List.replicate (if f.ip < code.length then 3 else 1) '\n' ∧
    (∀ ch, code.toList[f.ip]? = some ch →
      (excerpt slice).toList[column]? = some (if isControl ch then '?' else ch) ∧
      slice.length = min code.length (f.ip + 33) - (f.ip - 32) ∧
      1 ≤ slice.length ∧ slice.length ≤ 65) ∧
    ∀ count pos : UInt64, count.toNat = code.length → pos.toNat = f.ip →
      count.toNat < 0x8000000000000000 →
        (∀ b ∈ bounds? count pos, b.Exact code.length f.ip) ∧
        window? code.toList f.ip = (bounds? count pos).map fun b =>
          (((code.toList.drop b.start.toNat).take b.width.toNat).map shown, b.caret.toNat) := by
  intro report slice column
  have hhead := plain_headline hp hf
  refine ⟨hhead, plain_excerpt slice, plain_pointer column, render_of_le, render_of_lt, ?_, ?_, ?_⟩
  · split <;> rename_i hlt
    · simp only [report, render_of_lt hlt]
      refine filter_isControl_unlines (List.forall_mem_cons.mpr ⟨hhead, ?_⟩)
      simpa using ⟨plain_excerpt slice, plain_pointer column⟩
    · simp only [report, render_of_le (Nat.not_lt.mp hlt)]
      exact filter_isControl_unlines (List.forall_mem_singleton.mpr hhead)
  · intro ch hch
    have hlt := (List.getElem?_eq_some_iff.mp hch).1
    have hcolumn := excerpt_column hch
    have hlength := length_window hlt
    rw [String.length_toList] at hlt hcolumn hlength
    change slice.length = _ at hlength
    exact ⟨hcolumn, hlength, by omega, by omega⟩
  · intro count pos hcount hpos hlt
    have hcount' : count.toNat = code.toList.length := by rw [hcount, String.length_toList]
    rw [← hpos, ← hcount]
    exact ⟨fun b hb => bounds?_exact hlt hb, window?_eq_bounds hcount' hlt⟩

/-- A control character of two bytes among characters of as many, too far from both ends for
all of them to be shown; and a failure at the last position a word can name. -/
theorem render_shape_among_wide_characters :
    let code := String.ofList (List.replicate 40 'é' ++ '\u0085' :: List.replicate 40 'é')
    let f := Failure.invalidCommand '\u0085' 40
    let g := Failure.io ⟨.brokenPipe, "output fault"⟩ 0xffffffffffffffff
    ((∀ s ∈ some "bf", Plain s) ∧ (∀ s ∈ f.source?, Plain s) ∧ ∀ s ∈ g.source?, Plain s) ∧
    render (some "bf") code f = unlines ["bf: Invalid command '\\u\x7b85\x7d' at instruction 40",
      excerpt (List.replicate 32 'é' ++ '\u0085' :: List.replicate 32 'é'), pointer 34] ∧
    (render (some "bf") code g).toList.filter isControl = ['\n'] ∧
    (∀ b ∈ bounds? 81 40, b.Exact 81 40) ∧ window? code.toList g.ip = none := by
  intro code f g
  have hname : ∀ s ∈ some "bf", Plain s := by decide
  have hf : ∀ s ∈ f.source?, Plain s := by decide
  have hg : ∀ s ∈ g.source?, Plain s := by decide
  have hlength : code.length = 81 := String.length_ofList
  obtain ⟨-, -, -, -, hlines, -, -, hwords⟩ := render_shape (some "bf") code f hname hf
  obtain ⟨-, -, -, -, -, hcontrol, -, hwords'⟩ := render_shape (some "bf") code g hname hg
  rw [hlength] at hlines hwords hcontrol hwords'
  refine ⟨⟨hname, hf, hg⟩, ?_, hcontrol, (hwords 81 40 rfl rfl (by decide)).1,
    (hwords' 81 0xffffffffffffffff rfl rfl (by decide)).2⟩
  have hhead :
      headline (some "bf") f = "bf: Invalid command '\\u\x7b85\x7d' at instruction 40" := by
    decide +kernel
  rw [hlines (by decide), hhead, String.toList_ofList]
  rfl

end Report

end Brainfuck
