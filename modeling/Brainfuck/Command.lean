/-! The eight instructions and the characters that spell them. Any other
character may stand in a program; it is refused only when the machine reaches
it. -/

namespace Brainfuck

inductive Command where
  | right
  | left
  | increment
  | decrement
  | output
  | input
  | loopStart
  | loopEnd
  deriving DecidableEq, Repr

namespace Command

def ofChar? : Char → Option Command
  | '>' => some right
  | '<' => some left
  | '+' => some increment
  | '-' => some decrement
  | '.' => some output
  | ',' => some input
  | '[' => some loopStart
  | ']' => some loopEnd
  | _ => none

def symbol : Command → Char
  | right => '>'
  | left => '<'
  | increment => '+'
  | decrement => '-'
  | output => '.'
  | input => ','
  | loopStart => '['
  | loopEnd => ']'

theorem ofChar?_symbol (c : Command) : ofChar? c.symbol = some c := by
  cases c <;> rfl

theorem symbol_injective {a b : Command} (h : a.symbol = b.symbol) : a = b := by
  have hab := congrArg ofChar? h
  simpa [ofChar?_symbol] using hab

theorem symbol_of_ofChar? {ch : Char} {c : Command} (h : ofChar? ch = some c) :
    c.symbol = ch := by
  unfold ofChar? at h
  split at h <;> simp_all <;> subst h <;> rfl

theorem ofChar?_eq_some_iff {ch : Char} {c : Command} :
    ofChar? ch = some c ↔ ch = c.symbol :=
  ⟨fun h => (symbol_of_ofChar? h).symm, fun h => h ▸ ofChar?_symbol c⟩

theorem ofChar?_eq_none_iff {ch : Char} : ofChar? ch = none ↔ ∀ c : Command, ch ≠ c.symbol := by
  refine ⟨fun h c hc => ?_, fun h => ?_⟩
  · rw [ofChar?_eq_some_iff.mpr hc] at h
    exact absurd h (by simp)
  · cases hc : ofChar? ch with
    | none => rfl
    | some c => exact absurd (ofChar?_eq_some_iff.mp hc) (h c)

end Command

end Brainfuck
