/-! Texts without a line feed, and the lines of those that have some. -/

namespace Brainfuck

/-! ## Characters of numbers -/

theorem not_mem_toString_nat {ch : Char} (h : ch.isDigit = false) (n : Nat) :
    ch ∉ (toString n).toList := by
  intro hmem
  rw [Nat.toString_eq_ofList_toDigits, String.toList_ofList] at hmem
  have hd := Nat.isDigit_of_mem_toDigits (by omega) (by omega) hmem
  rw [h] at hd
  cases hd

theorem not_mem_toString_int {ch : Char} (h : ch.isDigit = false) (hsign : ch ≠ '-') (i : Int) :
    ch ∉ (toString i).toList := by
  rw [Int.toString_eq_repr, Int.repr_eq_if]
  split
  · exact not_mem_toString_nat h i.toNat
  · rw [String.toList_append, List.mem_append, not_or]
    exact ⟨by simpa using hsign, not_mem_toString_nat h (-i).toNat⟩

/-! ## Texts of one line -/

def OneLine (s : String) : Prop := '\n' ∉ s.toList

instance (s : String) : Decidable (OneLine s) := inferInstanceAs (Decidable ('\n' ∉ s.toList))

namespace OneLine

theorem append {s t : String} (hs : OneLine s) (ht : OneLine t) : OneLine (s ++ t) := by
  rw [OneLine, String.toList_append, List.mem_append, not_or]
  exact ⟨hs, ht⟩

theorem ofNat (n : Nat) : OneLine (toString n) := not_mem_toString_nat (by decide) n

theorem ofInt (i : Int) : OneLine (toString i) := not_mem_toString_int (by decide) (by decide) i

theorem replicate {c : Char} (hc : c ≠ '\n') (n : Nat) :
    OneLine (String.ofList (List.replicate n c)) := by
  intro h
  rw [String.toList_ofList] at h
  exact hc (List.eq_of_mem_replicate h).symm

end OneLine

/-! ## The lines of a text -/

/-- Cuts a text behind each line feed, which is dropped. What is left behind the last
one is a line as well, unless it is empty. -/
def splitLines : List Char → List (List Char)
  | [] => []
  | ch :: rest =>
    if ch = '\n' then [] :: splitLines rest
    else
      match splitLines rest with
      | [] => [[ch]]
      | line :: lines => (ch :: line) :: lines

def linesOf (s : String) : List String := (splitLines s.toList).map String.ofList

theorem splitLines_append {line : List Char} (h : '\n' ∉ line) (rest : List Char) :
    splitLines (line ++ '\n' :: rest) = line :: splitLines rest := by
  induction line with
  | nil => rfl
  | cons ch line ih =>
    have hch : ch ≠ '\n' := (List.ne_of_not_mem_cons h).symm
    rw [List.cons_append, splitLines, if_neg hch, ih (List.not_mem_of_not_mem_cons h)]

@[simp] theorem linesOf_empty : linesOf "" = [] := rfl

/-- A line and a line feed in front of a text make one line more. -/
theorem linesOf_append {line : String} (h : OneLine line) (rest : String) :
    linesOf (line ++ "\n" ++ rest) = line :: linesOf rest := by
  have htext : (line ++ "\n" ++ rest).toList = line.toList ++ '\n' :: rest.toList := by simp
  rw [linesOf, htext, splitLines_append h, List.map_cons, String.ofList_toList, linesOf]

end Brainfuck
