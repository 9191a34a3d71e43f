import Mathlib
import Brainfuck.Proofs.Loading
import Brainfuck.Proofs.Tabulation

/-! The step table read back. Blanks stand only around the words of a row, so once a
row is cut into its words the padding of its columns is gone, and no number is too
wide for one. What is left is to read numbers, and to tell the effects apart by their
wording. -/

namespace Brainfuck

/-! ## Words -/

/-- What stands between the blanks of a text. -/
def words (s : String) : List String :=
  ((s.toList.splitOn ' ').filter (· ≠ [])).map String.ofList

def IsWord (s : String) : Prop := s ≠ "" ∧ ' ' ∉ s.toList

instance (s : String) : Decidable (IsWord s) := inferInstanceAs (Decidable (_ ∧ _))

namespace IsWord

variable {s t : String}

theorem append (hs : IsWord s) (ht : IsWord t) : IsWord (s ++ t) := by
  refine ⟨fun h => hs.1 (String.append_eq_empty_iff.mp h).1, ?_⟩
  rw [String.toList_append, List.mem_append, not_or]
  exact ⟨hs.2, ht.2⟩

theorem ofNat (n : Nat) : IsWord (toString n) :=
  ⟨Nat.repr_ne_empty, not_mem_toString_nat (by decide) n⟩

theorem ofInt (i : Int) : IsWord (toString i) := by
  refine ⟨?_, not_mem_toString_int (by decide) (by decide) i⟩
  rw [Int.toString_eq_repr, Int.repr_eq_if]
  split
  · exact Nat.repr_ne_empty
  · simp

end IsWord

theorem words_of_isWord {s : String} (h : IsWord s) : words s = [s] := by
  have hne : s.toList ≠ [] := fun hs => h.1 (String.toList_eq_nil_iff.mp hs)
  simp [words, List.splitOn_eq_singleton h.2, hne]

/-- A blank belongs to no word. -/
theorem words_append (a b : String) : words (a ++ " " ++ b) = words a ++ words b := by
  have htext : (a ++ " " ++ b).toList = a.toList ++ ' ' :: b.toList := by simp
  rw [words, htext, List.splitOn_append_cons_self, List.filter_append, List.map_append, words,
    words]

theorem words_append_word {s : String} (h : IsWord s) (a : String) :
    words (a ++ " " ++ s) = words a ++ [s] := by
  rw [words_append, words_of_isWord h]

theorem words_padRight (width : Nat) (s : String) : words (Table.padRight width s) = words s := by
  rw [Table.padRight]
  induction width - s.length with
  | zero => simp
  | succ n ih =>
    have hblank : s ++ String.ofList (List.replicate (n + 1) ' ') =
        s ++ String.ofList (List.replicate n ' ') ++ " " ++ "" := by
      apply String.toList_inj.mp
      simp [List.replicate_succ']
    rw [hblank, words_append, ih]
    exact List.append_nil _

theorem words_between (a mid b : String) :
    words (a ++ (" " ++ mid ++ " ") ++ b) = words a ++ words mid ++ words b := by
  have htext : a ++ (" " ++ mid ++ " ") ++ b = a ++ " " ++ mid ++ " " ++ b := by
    simp only [String.append_assoc]
  rw [htext, words_append, words_append]

/-! ## Numbers -/

/-- The byte that a number spells. -/
def readByte (s : String) : Option UInt8 :=
  (s.toNat?.filter (· < UInt8.size)).map UInt8.ofNat

/-- The index that stands in `cell[..]`. -/
def readIndex (s : String) : Option Int :=
  match s.toList with
  | 'c' :: 'e' :: 'l' :: 'l' :: '[' :: rest =>
    if rest.getLast? = some ']' then (String.ofList rest.dropLast).toInt? else none
  | _ => none

theorem toNat?_toString (n : Nat) : (toString n).toNat? = some n := Nat.toNat?_repr n

theorem toInt?_toString (i : Int) : (toString i).toInt? = some i := by
  rw [Int.toString_eq_repr, Int.toInt?_repr]

theorem readByte_toString (b : UInt8) : readByte (toString b.toNat) = some b := by
  have hlt : b.toNat < UInt8.size := b.toNat_lt
  rw [readByte, toNat?_toString]
  simp [Option.filter, hlt]

theorem readIndex_cell (i : Int) : readIndex ("cell[" ++ toString i ++ "]") = some i := by
  have htext : ("cell[" ++ toString i ++ "]").toList =
      'c' :: 'e' :: 'l' :: 'l' :: '[' :: ((toString i).toList ++ [']']) := by simp
  rw [readIndex, htext]
  simp

/-! ## Effects -/

namespace Effect

def readChange (kind : Int → Cell → Cell → Effect) (cell before after : String) :
    Option Effect := do
  return kind (← readIndex cell) (← readByte before) (← readByte after)

/-- The effect that some words tell of. -/
def ofWords? : List String → Option Effect
  | ["Moved", "pointer", "head", "to", "index", target] => target.toInt?.map moved
  | ["Increment", cell, "from", before, "to", after] => readChange incremented cell before after
  | ["Decrement", cell, "from", before, "to", after] => readChange decremented cell before after
  | ["Output", "byte", byte] => (readByte byte).map wrote
  | ["Read", "byte", byte] => (readByte byte).map (read ∘ some)
  | ["Read", "hit", "EOF", "(set", "cell", "to", "0)"] => some (read none)
  | ["Enter", "loop", "(cell", "!=", "0)"] => some enteredLoop
  | ["Cell", "is", "0;", "jump", "forward", "to", "matching", "']'", "at", "IP", target] =>
    target.toNat?.map skippedLoop
  | ["Cell", "!=", "0;", "jump", "back", "to", "'['", "at", "IP", target] =>
    target.toNat?.map repeatedLoop
  | ["Exit", "loop", "(cell", "is", "0)"] => some exitedLoop
  | ["Cell", "is", "0;", "ignore", "']'", "with", "no", "open", "loop"] => some strayLoopEnd
  | _ => none

theorem readChange_written (kind : Int → Cell → Cell → Effect) (cell : Int) (before after : Cell) :
    readChange kind ("cell[" ++ toString cell ++ "]") (toString before.toNat)
      (toString after.toNat) = some (kind cell before after) := by
  rw [readChange, readIndex_cell, readByte_toString, readByte_toString]
  rfl

theorem words_change {verb : String} (hv : IsWord verb) (cell : Int) (before after : Cell) :
    words (verb ++ " cell[" ++ toString cell ++ "] from " ++ toString before.toNat ++ " to " ++
        toString after.toNat) =
      [verb, "cell[" ++ toString cell ++ "]", "from", toString before.toNat, "to",
        toString after.toNat] := by
  have htext : verb ++ " cell[" ++ toString cell ++ "] from " ++ toString before.toNat ++ " to " ++
        toString after.toNat =
      verb ++ " " ++ ("cell[" ++ toString cell ++ "]") ++ " " ++ "from" ++ " " ++
        toString before.toNat ++ " " ++ "to" ++ " " ++ toString after.toNat := by
    apply String.toList_inj.mp
    simp
  have hcell : IsWord ("cell[" ++ toString cell ++ "]") :=
    .append (.append (by decide) (.ofInt cell)) (by decide)
  rw [htext, words_append_word (.ofNat _), words_append_word (by decide),
    words_append_word (.ofNat _), words_append_word (by decide), words_append_word hcell,
    words_of_isWord hv]
  rfl

/-- The wording gives an effect away. -/
theorem ofWords?_text (e : Effect) : ofWords? (words e.text) = some e := by
  -- A number at the end is cut off as a word, and the wording before it is evaluated.
  cases e with
  | moved target =>
    have hw : words (moved target).text = _ :=
      words_append_word (.ofInt target) "Moved pointer head to index"
    rw [hw]
    exact congrArg (Option.map moved) (toInt?_toString target)
  | incremented cell before after =>
    have hw : words (incremented cell before after).text = _ :=
      words_change (by decide : IsWord "Increment") cell before after
    rw [hw]
    exact readChange_written incremented cell before after
  | decremented cell before after =>
    have hw : words (decremented cell before after).text = _ :=
      words_change (by decide : IsWord "Decrement") cell before after
    rw [hw]
    exact readChange_written decremented cell before after
  | wrote byte =>
    have hw : words (wrote byte).text = _ := words_append_word (.ofNat byte.toNat) "Output byte"
    rw [hw]
    exact congrArg (Option.map wrote) (readByte_toString byte)
  | read byte =>
    cases byte with
    | none => rfl
    | some byte =>
      have hw : words (read (some byte)).text = _ :=
        words_append_word (.ofNat byte.toNat) "Read byte"
      rw [hw]
      exact congrArg (Option.map (read ∘ some)) (readByte_toString byte)
  | skippedLoop target =>
    have hw : words (skippedLoop target).text = _ :=
      words_append_word (.ofNat target) "Cell is 0; jump forward to matching ']' at IP"
    rw [hw]
    exact congrArg (Option.map skippedLoop) (toNat?_toString target)
  | repeatedLoop target =>
    have hw : words (repeatedLoop target).text = _ :=
      words_append_word (.ofNat target) "Cell != 0; jump back to '[' at IP"
    rw [hw]
    exact congrArg (Option.map repeatedLoop) (toNat?_toString target)
  | enteredLoop | exitedLoop | strayLoopEnd => rfl

theorem text_inj {e e' : Effect} : e.text = e'.text ↔ e = e' := by
  refine ⟨fun h => ?_, congrArg text⟩
  have hread := congrArg (fun s => ofWords? (words s)) h
  simpa only [ofWords?_text, Option.some.injEq] using hread

end Effect

/-! ## Rows -/

namespace Table

def readSymbol (s : String) : Option Command :=
  match s.toList with
  | [ch] => Command.ofChar? ch
  | _ => none

/-- The instruction that a row tells of, and its number. -/
def readRow (line : String) : Option (Executed × Nat) :=
  match words line with
  | number :: "|" :: ip :: "|" :: pointer :: "|" :: cell :: "|" :: symbol :: "|" :: action => do
    let e : Executed :=
      { ip := ← ip.toNat?
        command := ← readSymbol symbol
        pointer := ← pointer.toInt?
        cell := ← readByte cell
        effect := ← Effect.ofWords? action }
    return (e, ← number.toNat?)
  | _ => none

/-- The instructions of a table with their numbers, if it has the heading of one. -/
def read (s : String) : Option (List (Executed × Nat)) :=
  match linesOf s with
  | first :: second :: rows =>
    if [first, second] = linesOf heading then rows.mapM readRow else none
  | _ => none

theorem readSymbol_symbol (c : Command) : readSymbol (String.singleton c.symbol) = some c := by
  cases c <;> rfl

theorem isWord_symbol (c : Command) : IsWord (String.singleton c.symbol) := by
  cases c <;> decide

theorem words_row {n : Nat} {e : Executed} {line : String} (h : row n e = line ++ "\n") :
    words line = toString n :: "|" :: toString e.ip :: "|" :: toString e.pointer :: "|" ::
      toString e.cell.toNat :: "|" :: String.singleton e.command.symbol :: "|" ::
      words e.effect.text := by
  -- Of the blanks next to a bar two end the words around it. The others are padding.
  have hbar : " | " = " " ++ "|" ++ " " := rfl
  have hleft : " |  " = " " ++ "| " ++ " " := rfl
  have hright : "    | " = " " ++ "   |" ++ " " := rfl
  rw [row, String.append_left_inj, hbar, hleft, hright] at h
  rw [← h]
  simp only [words_between, words_padRight, words_of_isWord (.ofNat _), words_of_isWord (.ofInt _),
    words_of_isWord (isWord_symbol _)]
  rfl

theorem readRow_row {n : Nat} {e : Executed} {line : String} (h : row n e = line ++ "\n") :
    readRow line = some (e, n) := by
  rw [readRow, words_row h]
  simp only [toNat?_toString, toInt?_toString, readSymbol_symbol, readByte_toString,
    Effect.ofWords?_text]
  rfl

/-- Numbers too wide for their columns push the others to the right. -/
example : readRow "12345 | 1000 | -1234 | 0    |  -    | Decrement cell[-1234] from 0 to 255" =
    some (⟨1000, .decrement, -1234, 0, .decremented (-1234) 0 255⟩, 12345) :=
  readRow_row (by decide +kernel)

/-! ## Tables -/

theorem linesOf_row (n : Nat) (e : Executed) (rest : String) :
    ∃ line, linesOf (row n e ++ rest) = line :: linesOf rest ∧ readRow line = some (e, n) := by
  obtain ⟨line, hrow, hline⟩ := row_eq_line n e
  exact ⟨line, by rw [hrow, linesOf_append hline], readRow_row hrow⟩

theorem mapM_linesOf_lines (n : Nat) (es : List Executed) :
    (linesOf (lines n es)).mapM readRow = some (es.zipIdx n) := by
  induction es generalizing n with
  | nil => rfl
  | cons e es ih =>
    obtain ⟨line, hlines, hread⟩ := linesOf_row n e (lines (n + 1) es)
    rw [lines, hlines, List.mapM_cons, hread, ih (n + 1)]
    rfl

theorem length_linesOf_lines (n : Nat) (es : List Executed) :
    (linesOf (lines n es)).length = es.length := by
  induction es generalizing n with
  | nil => rfl
  | cons e es ih =>
    obtain ⟨line, hlines, -⟩ := linesOf_row n e (lines (n + 1) es)
    rw [lines, hlines, List.length_cons, ih (n + 1), List.length_cons]

/-- The heading is two lines. -/
theorem linesOf_heading (rest : String) :
    ∃ first second, linesOf (heading ++ rest) = first :: second :: linesOf rest ∧
      linesOf heading = [first, second] := by
  have htitles : ∃ first, titles = first ++ "\n" ∧ OneLine first :=
    ⟨"STEP | IP  | PTR | CELL | INSTR | ACTION", rfl, by decide⟩
  have hrule : ∃ second, rule = second ++ "\n" ∧ OneLine second :=
    ⟨"-----+-----+-----+------+-------+------------------------------------------------",
      rfl, by decide⟩
  obtain ⟨first, hfirst, hone⟩ := htitles
  obtain ⟨second, hsecond, htwo⟩ := hrule
  refine ⟨first, second, ?_, ?_⟩
  · rw [heading, hfirst, hsecond, String.append_assoc, linesOf_append hone, linesOf_append htwo]
  · rw [heading, hfirst, hsecond, linesOf_append hone, ← String.append_empty (s := second ++ "\n"),
      linesOf_append htwo, linesOf_empty]

theorem read_text (es : List Executed) : read (text es) = some es.zipIdx := by
  obtain ⟨first, second, htext, hheading⟩ := linesOf_heading (lines 0 es)
  rw [read, text, htext]
  dsimp only
  rw [if_pos hheading.symm, mapM_linesOf_lines]

theorem length_linesOf_text (es : List Executed) : (linesOf (text es)).length = 2 + es.length := by
  obtain ⟨first, second, htext, -⟩ := linesOf_heading (lines 0 es)
  rw [text, htext, List.length_cons, List.length_cons, length_linesOf_lines]
  omega

theorem text_inj {es es' : List Executed} : text es = text es' ↔ es = es' := by
  refine ⟨fun h => ?_, congrArg text⟩
  have hread := congrArg (fun s => (read s).map (List.map Prod.fst)) h
  simpa [read_text] using hread

/-! ## Bytes -/

/-- The instructions of the table that some bytes spell. -/
def decode (bytes : List UInt8) : Option (List (Executed × Nat)) :=
  match decodeText bytes with
  | .ok s => read s
  | .error _ => none

theorem decode_utf8_text (es : List Executed) : decode (utf8 (text es)) = some es.zipIdx := by
  rw [decode, decodeText_utf8]
  exact read_text es

/-- **A table can be read back.** The bytes that a page without end holds once the
table is printed give every instruction of the run again, with its number, position,
pointer, cell and effect. So it is with any list of instructions, whatever the width
and the sign of its numbers: its table has two lines of heading and one line for each
of them, and no other list has that table. What an effect is told by is one line, and
no other effect is told by it. -/
theorem decode_print :
    (∀ (n : Nat) (m : Machine), ∃ page,
      print n m (.ofRoom none) = ((m.trace n Silent.mk).1, (m.trace n Silent.mk).2.1,
        (m.trace n Silent.mk).2.2.1, page) ∧
      page.taken.toList = utf8 (text (m.trace n Silent.mk).1.toList) ∧
      decode page.taken.toList = some (m.trace n Silent.mk).1.toList.zipIdx) ∧
    (∀ es, decode (utf8 (text es)) = some es.zipIdx ∧
      (linesOf (text es)).length = 2 + es.length ∧
      ∀ es', text es = text es' ↔ es = es') ∧
    ∀ e : Effect, Effect.ofWords? (words e.text) = some e ∧ OneLine e.text ∧
      ∀ e' : Effect, e.text = e'.text ↔ e = e' := by
  refine ⟨fun n m => ?_, fun es => ?_, fun e => ?_⟩
  · obtain ⟨page, hprint, htaken⟩ := print_unlimited n m
    exact ⟨page, hprint, htaken, by rw [htaken, decode_utf8_text]⟩
  · exact ⟨decode_utf8_text es, length_linesOf_text es, fun _ => text_inj⟩
  · exact ⟨e.ofWords?_text, e.oneLine_text, fun _ => Effect.text_inj⟩

end Table

end Brainfuck
