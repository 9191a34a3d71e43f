/-! Program texts. A program is what is left of its source when the layout
characters are dropped; positions count the characters that are left. -/

namespace Brainfuck

abbrev Program := Array Char

/-- Characters that lay out a source and are no part of the program. -/
def isLayout (ch : Char) : Bool :=
  ch == '\n' || ch == '\r' || ch == '\t' || ch == ' '

namespace Program

def ofSource (source : String) : Program :=
  (source.toList.filter fun ch => !isLayout ch).toArray

def text (p : Program) : String := String.ofList p.toList

/-- Two sources one after the other make the two programs one after the other. -/
theorem ofSource_append (a b : String) : ofSource (a ++ b) = ofSource a ++ ofSource b := by
  simp [ofSource]

theorem mem_ofSource {source : String} {ch : Char} :
    ch ∈ ofSource source ↔ ch ∈ source.toList ∧ isLayout ch = false := by
  simp [ofSource]

end Program

/-! ## Where a loop ends -/

namespace Program

/-- Looks for the first `]` from position `i` on that closes more loops than
were opened since; `depth` counts the loops opened so far. -/
def closingFrom (p : Program) (depth i : Nat) : Option Nat :=
  if h : i < p.size then
    if p[i] = '[' then p.closingFrom (depth + 1) (i + 1)
    else if p[i] = ']' then
      match depth with
      | 0 => some i
      | outer + 1 => p.closingFrom outer (i + 1)
    else p.closingFrom depth (i + 1)
  else none
termination_by p.size - i

/-- The position of the `]` that ends the loop beginning at `start`. -/
def closing? (p : Program) (start : Nat) : Option Nat := p.closingFrom 0 (start + 1)

section

variable {p : Program} {depth i : Nat}

theorem closingFrom_of_open (h : p[i]? = some '[') :
    p.closingFrom depth i = p.closingFrom (depth + 1) (i + 1) := by
  obtain ⟨hi, hc⟩ := Array.getElem?_eq_some_iff.mp h
  rw [closingFrom.eq_def, dif_pos hi, if_pos hc]

theorem closingFrom_zero_of_close (h : p[i]? = some ']') : p.closingFrom 0 i = some i := by
  obtain ⟨hi, hc⟩ := Array.getElem?_eq_some_iff.mp h
  rw [closingFrom.eq_def, dif_pos hi, if_neg (by simp [hc]), if_pos hc]

theorem closingFrom_succ_of_close (h : p[i]? = some ']') :
    p.closingFrom (depth + 1) i = p.closingFrom depth (i + 1) := by
  obtain ⟨hi, hc⟩ := Array.getElem?_eq_some_iff.mp h
  rw [closingFrom.eq_def, dif_pos hi, if_neg (by simp [hc]), if_pos hc]

theorem closingFrom_of_other (hi : i < p.size) (ho : p[i]? ≠ some '[') (hc : p[i]? ≠ some ']') :
    p.closingFrom depth i = p.closingFrom depth (i + 1) := by
  rw [Array.getElem?_eq_getElem hi] at ho hc
  rw [closingFrom.eq_def, dif_pos hi, if_neg fun h => ho (by rw [h]), if_neg fun h => hc (by rw [h])]

theorem closingFrom_of_size_le (h : p.size ≤ i) : p.closingFrom depth i = none := by
  rw [closingFrom.eq_def, dif_neg (Nat.not_lt.mpr h)]

end

theorem closingFrom_bounds {p : Program} {depth i j : Nat}
    (h : p.closingFrom depth i = some j) : i ≤ j ∧ p[j]? = some ']' := by
  fun_induction closingFrom p depth i with
  | case1 depth i _ _ ih => exact ⟨by have := (ih h).1; omega, (ih h).2⟩
  | case2 i hi _ hc =>
    cases h
    exact ⟨Nat.le_refl _, by rw [Array.getElem?_eq_getElem hi, hc]⟩
  | case3 i _ _ _ outer ih => exact ⟨by have := (ih h).1; omega, (ih h).2⟩
  | case4 depth i _ _ _ ih => exact ⟨by have := (ih h).1; omega, (ih h).2⟩
  | case5 => simp at h

/-- A skip goes forward and lands on a `]` of the program. -/
theorem closing?_bounds {p : Program} {start j : Nat} (h : p.closing? start = some j) :
    start < j ∧ p[j]? = some ']' :=
  closingFrom_bounds h

end Program

end Brainfuck
