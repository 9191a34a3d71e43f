import Brainfuck.Proofs.Brackets

/-! Loops as a reader of the text sees them: a `[`, a `]` further on, and balanced
text between the two. The forward search finds just these, and gives up where there is
none. It is followed along the level of the text, which a `[` raises and a `]` lowers:
the counter of the search is how far the level has risen since the loop began, and the
loop ends where the level is about to fall below what it was there. -/

namespace Brainfuck.Program

variable {p : Program} {i j k n : Nat}

/-! ## Levels -/

/-- How many more `[` than `]` the first `n` characters have. -/
def level (p : Program) (n : Nat) : Int :=
  (p.toList.take n).count '[' - (p.toList.take n).count ']'

/-- The level of a text that goes on with `ch`. -/
theorem level_succ (p : Program) (n : Nat) :
    p.level (n + 1) = p.level n + p[n]?.toList.count '[' - p[n]?.toList.count ']' := by
  simp only [level, List.take_add_one, List.count_append, Array.getElem?_toList]
  omega

theorem level_succ_of_open (h : p[n]? = some '[') : p.level (n + 1) = p.level n + 1 := by
  simp [level_succ, h]

theorem level_succ_of_close (h : p[n]? = some ']') : p.level (n + 1) = p.level n - 1 := by
  simp [level_succ, h]

theorem level_succ_of_other (ho : p[n]? ≠ some '[') (hc : p[n]? ≠ some ']') :
    p.level (n + 1) = p.level n := by
  have ho' : p[n]?.toList.count '[' = 0 := by simpa [List.count_eq_zero] using ho
  have hc' : p[n]?.toList.count ']' = 0 := by simpa [List.count_eq_zero] using hc
  rw [level_succ, ho', hc']
  simp

theorem balanced_iff_level : p.Balanced ↔ (∀ n, 0 ≤ p.level n) ∧ p.level p.size = 0 := by
  have hsize : p.toList.take p.size = p.toList := List.take_of_length_le (by simp)
  constructor
  · intro h
    refine ⟨fun n => ?_, ?_⟩
    · have := h.prefixes n
      unfold level
      omega
    · have := h.whole
      unfold level
      rw [hsize]
      omega
  · intro h
    obtain ⟨hprefixes, hwhole⟩ := h
    refine ⟨fun n => ?_, ?_⟩
    · have := hprefixes n
      unfold level at this
      omega
    · unfold level at hwhole
      rw [hsize] at hwhole
      omega

/-! ## Loops -/

/-- The text strictly between two positions. -/
def between (p : Program) (i j : Nat) : Program := p.extract (i + 1) j

/-- A `[` at `i` and a `]` at `j` with balanced text between them. -/
structure IsLoop (p : Program) (i j : Nat) : Prop where
  opens : p[i]? = some '['
  lt : i < j
  closes : p[j]? = some ']'
  inside : (p.between i j).Balanced

/-- The levels of a piece of text are those of the whole, less the one it begins with. -/
theorem level_between (p : Program) (i j n : Nat) :
    (p.between i j).level n = p.level (i + 1 + min n (j - (i + 1))) - p.level (i + 1) := by
  unfold level between
  rw [Array.toList_extract, List.extract_eq_take_drop, List.take_take, List.take_add,
    List.count_append, List.count_append]
  omega

theorem balanced_between_iff (hlt : i < j) (hj : j < p.size) :
    (p.between i j).Balanced ↔
      p.level j = p.level (i + 1) ∧ ∀ n, i < n → n ≤ j → p.level (i + 1) ≤ p.level n := by
  have hsize : i + 1 + min (p.between i j).size (j - (i + 1)) = j := by
    rw [between, Array.size_extract]
    omega
  rw [balanced_iff_level, level_between, hsize]
  constructor
  · intro h
    obtain ⟨habove, hwhole⟩ := h
    refine ⟨by omega, fun n hn hnj => ?_⟩
    have hn' : i + 1 + min (n - (i + 1)) (j - (i + 1)) = n := by omega
    have := habove (n - (i + 1))
    rw [level_between, hn'] at this
    omega
  · intro h
    obtain ⟨hwhole, habove⟩ := h
    refine ⟨fun n => ?_, by omega⟩
    have := habove (i + 1 + min n (j - (i + 1))) (by omega) (by omega)
    rw [level_between]
    omega

/-! ## The forward search -/

/-- From `i` on, the level is nowhere below `base`, and the `]` at `j` is the first
character to take it there. -/
structure Falls (p : Program) (base : Int) (i j : Nat) : Prop where
  le : i ≤ j
  closes : p[j]? = some ']'
  level_eq : p.level j = base
  above : ∀ n, i ≤ n → n ≤ j → base ≤ p.level n

theorem isLoop_iff_falls (ho : p[i]? = some '[') :
    p.IsLoop i j ↔ p.Falls (p.level (i + 1)) (i + 1) j := by
  constructor
  · intro h
    have hj := (Array.getElem?_eq_some_iff.mp h.closes).1
    obtain ⟨heq, habove⟩ := (balanced_between_iff h.lt hj).mp h.inside
    exact ⟨h.lt, h.closes, heq, habove⟩
  · intro h
    have hj := (Array.getElem?_eq_some_iff.mp h.closes).1
    exact ⟨ho, h.le, h.closes, (balanced_between_iff h.le hj).mpr ⟨h.level_eq, h.above⟩⟩

/-- A character that does not take the level below `base` may be passed over. -/
theorem falls_succ_iff {base : Int} (hb : base ≤ p.level k)
    (hk : p[k]? = some ']' → p.level k ≠ base) :
    p.Falls base (k + 1) j ↔ p.Falls base k j := by
  constructor
  · intro h
    refine ⟨Nat.le_of_succ_le h.le, h.closes, h.level_eq, fun n hn hnj => ?_⟩
    rcases Nat.lt_or_eq_of_le hn with hlt | rfl
    · exact h.above n hlt hnj
    · exact hb
  · intro h
    refine ⟨?_, h.closes, h.level_eq, fun n hn hnj => h.above n (Nat.le_of_succ_le hn) hnj⟩
    rcases Nat.lt_or_eq_of_le h.le with hlt | rfl
    · exact hlt
    · exact absurd h.level_eq (hk h.closes)

/-- The search with `depth` loops open looks for the place where the level falls below
what it is less `depth`. -/
theorem closingFrom_eq_some_iff_falls {depth : Nat} {base : Int}
    (hd : p.level k = base + depth) : p.closingFrom depth k = some j ↔ p.Falls base k j := by
  fun_induction closingFrom p depth k with
  | case1 depth k hk ho ih =>
    have ho' : p[k]? = some '[' := by rw [Array.getElem?_eq_getElem hk, ho]
    rw [ih (by rw [level_succ_of_open ho']; omega)]
    exact falls_succ_iff (by omega) (by simp [ho'])
  | case2 k hk _ hc =>
    have hc' : p[k]? = some ']' := by rw [Array.getElem?_eq_getElem hk, hc]
    have hlevel : p.level k = base := by simpa using hd
    constructor
    · intro h
      obtain rfl := Option.some.inj h
      refine ⟨Nat.le_refl k, hc', hlevel, fun n hn hnk => ?_⟩
      obtain rfl := Nat.le_antisymm hn hnk
      omega
    · intro h
      rcases Nat.lt_or_eq_of_le h.le with hlt | rfl
      · have := h.above (k + 1) (by omega) hlt
        rw [level_succ_of_close hc'] at this
        omega
      · rfl
  | case3 k hk _ hc depth ih =>
    have hc' : p[k]? = some ']' := by rw [Array.getElem?_eq_getElem hk, hc]
    rw [ih (by rw [level_succ_of_close hc']; omega)]
    exact falls_succ_iff (by omega) (fun _ => by omega)
  | case4 depth k hk ho hc ih =>
    have ho' : p[k]? ≠ some '[' := by simpa [Array.getElem?_eq_getElem hk] using ho
    have hc' : p[k]? ≠ some ']' := by simpa [Array.getElem?_eq_getElem hk] using hc
    rw [ih (by rw [level_succ_of_other ho' hc']; omega)]
    exact falls_succ_iff (by omega) (fun h => absurd h hc')
  | case5 depth k hk =>
    constructor
    · intro h
      cases h
    · intro h
      have := h.le
      have := (Array.getElem?_eq_some_iff.mp h.closes).1
      omega

theorem closing?_eq_some_iff_isLoop (ho : p[i]? = some '[') :
    p.closing? i = some j ↔ p.IsLoop i j := by
  have hd : p.level (i + 1) = p.level (i + 1) + (0 : Nat) := by simp
  rw [isLoop_iff_falls ho, closing?, closingFrom_eq_some_iff_falls hd]

theorem closing?_eq_none_iff_isLoop (ho : p[i]? = some '[') :
    p.closing? i = none ↔ ∀ j, ¬ p.IsLoop i j := by
  rw [Option.eq_none_iff_forall_ne_some]
  exact forall_congr' fun j => not_congr (closing?_eq_some_iff_isLoop ho)

/-! ## The counter of the search -/

/-- `p.Counts i k depth`: the search from the `[` at `i` comes to `k` with its counter at
`depth`, which is how far the level has risen. What is left of the search is the search
from there, and a `]` that does not end it finds the counter above zero. -/
structure Counts (p : Program) (i k depth : Nat) : Prop where
  level_eq : p.level k = p.level (i + 1) + depth
  rest : p.closing? i = p.closingFrom depth k
  positive : p[k]? = some ']' → p.closing? i ≠ some k → 0 < depth

theorem counts_of_rest {depth : Nat} (hl : p.level k = p.level (i + 1) + depth)
    (hr : p.closing? i = p.closingFrom depth k) : p.Counts i k depth := by
  refine ⟨hl, hr, fun hc hne => Nat.pos_of_ne_zero ?_⟩
  rintro rfl
  exact hne (hr.trans (closingFrom_zero_of_close hc))

/-- The search goes on by one character as long as it has not ended there. -/
theorem Counts.succ {depth : Nat} (h : p.Counts i k depth) (hne : p.closing? i ≠ some k) :
    ∃ depth', p.Counts i (k + 1) depth' := by
  have hl := h.level_eq
  have hr := h.rest
  by_cases ho : p[k]? = some '['
  · refine ⟨depth + 1, counts_of_rest ?_ (hr.trans (closingFrom_of_open ho))⟩
    rw [level_succ_of_open ho]
    omega
  · by_cases hc : p[k]? = some ']'
    · obtain ⟨outer, rfl⟩ := Nat.exists_eq_add_one.mpr (h.positive hc hne)
      refine ⟨outer, counts_of_rest ?_ (hr.trans (closingFrom_succ_of_close hc))⟩
      rw [level_succ_of_close hc]
      omega
    · refine ⟨depth, counts_of_rest ?_ ?_⟩
      · rw [level_succ_of_other ho hc]
        exact hl
      · rcases Nat.lt_or_ge k p.size with hk | hk
        · exact hr.trans (closingFrom_of_other hk ho hc)
        · rw [hr, closingFrom_of_size_le hk, closingFrom_of_size_le (Nat.le_succ_of_le hk)]

/-- The search comes to every position up to the one that it finds. -/
theorem exists_counts (hk : i < k) (hn : ∀ j, p.closing? i = some j → k ≤ j) :
    ∃ depth, p.Counts i k depth := by
  induction hk with
  | refl => exact ⟨0, counts_of_rest (by simp) rfl⟩
  | @step k hk ih =>
    obtain ⟨depth, hd⟩ := ih fun j hj => Nat.le_of_succ_le (hn j hj)
    exact hd.succ fun hend => Nat.lt_irrefl k (hn k hend)

/-! ## Loops and the scan -/

theorem isLoop_iff_opening? : p.IsLoop i j ↔ p.opening? j = some i := by
  have hiff (ho : p[i]? = some '[') : p.IsLoop i j ↔ p.opening? j = some i := by
    rw [← closing?_eq_some_iff_isLoop ho, closing?_eq_ending? ho, ending?_eq_some_iff]
  exact ⟨fun h => (hiff h.opens).mp h, fun h => (hiff (opening?_bounds h).2.2.1).mpr h⟩

theorem IsLoop.ends_unique (h : p.IsLoop i j) (h' : p.IsLoop i k) : j = k :=
  opening?_injective (isLoop_iff_opening?.mp h) (isLoop_iff_opening?.mp h')

theorem IsLoop.begins_unique (h : p.IsLoop i j) (h' : p.IsLoop k j) : i = k :=
  Option.some.inj ((isLoop_iff_opening?.mp h).symm.trans (isLoop_iff_opening?.mp h'))

/-- Of two loops the later one begins behind the other or lies inside it. -/
theorem IsLoop.disjoint_or_inside {l : Nat} (h : p.IsLoop i j) (h' : p.IsLoop k l)
    (hik : i < k) : j < k ∨ l < j := by
  rcases Nat.lt_trichotomy j k with hjk | rfl | hkj
  · exact .inl hjk
  · have hopens := h'.opens
    rw [h.closes] at hopens
    cases hopens
  · exact .inr (opening?_nested (isLoop_iff_opening?.mp h) (isLoop_iff_opening?.mp h') hik hkj)

/-! ## The machine at a `[` -/

section

open Machine

variable {σ : Type} [Terminal σ] {m : Machine}

theorem step_skips_iff (hc : m.program[m.next]? = some '[') (hr : m.status = .running)
    (h0 : m.current = 0) (io : σ) :
    (m.step io).1 =
        .executed ⟨m.next, .loopStart, m.memory.pointer, 0, .skippedLoop j⟩ ↔
      m.program.IsLoop m.next j := by
  rw [← closing?_eq_some_iff_isLoop hc]
  cases hj : m.program.closing? m.next with
  | none => simp [Fails.step_eq (.unclosed hc h0 hj) hr]
  | some k => simp [Acts.step_eq (.skip h0 hj) hr hc, h0]

theorem step_unclosed_iff (hc : m.program[m.next]? = some '[') (hr : m.status = .running)
    (h0 : m.current = 0) (io : σ) :
    (m.step io).1 = .failed (.unbalanced .opening m.next) ↔
      ∀ j, ¬ m.program.IsLoop m.next j := by
  have ht : Transition m io (m.step io).1 (m.step io).2.1 (m.step io).2.2 := step_eq_iff.mp rfl
  rw [ht.fails_opening_iff hr hc, ← closing?_eq_ending? hc, closing?_eq_none_iff_isLoop hc]
  exact and_iff_right h0

end

/-- **The search finds the loop of the text.** From a `[` it leads to the `]` up to which
the text is balanced, and there is only one; it fails if and only if there is none, and a
machine that must skip the loop then fails at that `[`. On its way the counter is how many
more `[` than `]` it has met, and it is not lowered when it is zero. Two loops lie one
inside the other or one behind the other, so no `]` ends two of them. -/
theorem closing?_finds_loop (p : Program) {i : Nat} (ho : p[i]? = some '[') :
    (∀ j, p.closing? i = some j ↔
      i < j ∧ p[j]? = some ']' ∧ (p.between i j).Balanced) ∧
    (∀ j k, p.IsLoop i j → p.IsLoop i k → j = k) ∧
    (p.closing? i = none ↔ ∀ j, ¬ p.IsLoop i j) ∧
    (∀ {σ : Type} [Terminal σ] (m : Machine) (io : σ), m.program = p → m.next = i →
      m.status = .running → m.current = 0 →
      (∀ j, (m.step io).1 =
        .executed ⟨i, .loopStart, m.memory.pointer, 0, .skippedLoop j⟩ ↔ p.IsLoop i j) ∧
      ((m.step io).1 = .failed (.unbalanced .opening i) ↔ ∀ j, ¬ p.IsLoop i j)) ∧
    (∀ k, i < k → (∀ j, p.closing? i = some j → k ≤ j) → ∃ depth, p.Counts i k depth) ∧
    ∀ i' j j', i < i' → p.IsLoop i j → p.IsLoop i' j' → j ≠ j' ∧ (j < i' ∨ j' < j) := by
  refine ⟨fun j => ?_, fun j k => IsLoop.ends_unique, closing?_eq_none_iff_isLoop ho,
    ?_, fun k => exists_counts, ?_⟩
  · rw [closing?_eq_some_iff_isLoop ho]
    exact ⟨fun h => ⟨h.lt, h.closes, h.inside⟩, fun ⟨hlt, hc, hb⟩ => ⟨ho, hlt, hc, hb⟩⟩
  · rintro σ _ m io rfl rfl hr h0
    exact ⟨fun j => step_skips_iff ho hr h0 io, step_unclosed_iff ho hr h0 io⟩
  · intro i' j j' hlt h h'
    refine ⟨?_, h.disjoint_or_inside h' hlt⟩
    rintro rfl
    exact Nat.ne_of_lt hlt (h.begins_unique h')

/-- An inner loop, and brackets without a partner on both sides. -/
theorem closing?_finds_loop_among_strays :
    let p : Program := .ofSource "]x[+[-]>]["
    p[2]? = some '[' ∧ p.closing? 2 = some 8 ∧ p.IsLoop 2 8 ∧ p.IsLoop 4 6 := by
  intro p
  have h2 : p[2]? = some '[' := by decide +kernel
  have h4 : p[4]? = some '[' := by decide +kernel
  have h28 : p.closing? 2 = some 8 := by decide +kernel
  have h46 : p.closing? 4 = some 6 := by decide +kernel
  obtain ⟨hlt, hc, hb⟩ := ((closing?_finds_loop p h2).1 8).mp h28
  obtain ⟨hlt', hc', hb'⟩ := ((closing?_finds_loop p h4).1 6).mp h46
  exact ⟨h2, h28, ⟨h2, hlt, hc, hb⟩, ⟨h4, hlt', hc', hb'⟩⟩

end Brainfuck.Program
