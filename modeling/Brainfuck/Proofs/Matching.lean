import Brainfuck.Program

/-! Which bracket belongs to which. One scan of the text from the left keeps the
positions of the loops that are open, a `[` opening one and a `]` closing the
innermost; a `]` with no loop open is passed over. The scan pairs each `]` with
the `[` it closes, and both may be left without a partner.

The forward search of `Program.closing?` knows nothing of this scan: it counts.
`closing?_eq_ending?` says that the search finds the partner of a `[` if there is
one, and fails if there is none. -/

namespace Brainfuck.Program

variable {p : Program} {i j k n : Nat}

/-! ## The scan -/

/-- The loops open after the first `n` characters, innermost first. -/
def openLoops (p : Program) : Nat → List Nat
  | 0 => []
  | n + 1 =>
    if p[n]? = some '[' then n :: p.openLoops n
    else if p[n]? = some ']' then (p.openLoops n).tail
    else p.openLoops n

/-- The `[` that the scan pairs with the `]` at `j`. -/
def opening? (p : Program) (j : Nat) : Option Nat :=
  if p[j]? = some ']' then (p.openLoops j).head? else none

/-- The `]` that the scan pairs with the `[` at `i`. -/
def ending? (p : Program) (i : Nat) : Option Nat :=
  (List.range p.size).find? fun j => p.opening? j = some i

/-- The positions of the `[` without a partner. -/
def unclosed (p : Program) : List Nat :=
  (List.range p.size).filter fun i => p[i]? = some '[' ∧ p.ending? i = none

theorem openLoops_succ_of_open (h : p[n]? = some '[') :
    p.openLoops (n + 1) = n :: p.openLoops n := by
  rw [openLoops, if_pos h]

theorem openLoops_succ_of_close (h : p[n]? = some ']') :
    p.openLoops (n + 1) = (p.openLoops n).tail := by
  rw [openLoops, if_neg (by simp [h]), if_pos h]

theorem openLoops_succ_of_other (ho : p[n]? ≠ some '[') (hc : p[n]? ≠ some ']') :
    p.openLoops (n + 1) = p.openLoops n := by
  rw [openLoops, if_neg ho, if_neg hc]

/-- What becomes of the scan with one more character. -/
theorem openLoops_succ_cases (p : Program) (n : Nat) :
    (p[n]? = some '[' ∧ p.openLoops (n + 1) = n :: p.openLoops n) ∨
    (p[n]? = some ']' ∧ p.openLoops (n + 1) = (p.openLoops n).tail) ∨
    (p[n]? ≠ some '[' ∧ p[n]? ≠ some ']' ∧ p.openLoops (n + 1) = p.openLoops n) := by
  by_cases ho : p[n]? = some '['
  · exact .inl ⟨ho, openLoops_succ_of_open ho⟩
  · by_cases hc : p[n]? = some ']'
    · exact .inr (.inl ⟨hc, openLoops_succ_of_close hc⟩)
    · exact .inr (.inr ⟨ho, hc, openLoops_succ_of_other ho hc⟩)

/-- Behind the program there is nothing left to scan. -/
theorem openLoops_of_size_le (h : p.size ≤ n) : p.openLoops n = p.openLoops p.size := by
  induction h with
  | refl => rfl
  | @step n hn ih =>
    have hp : p[n]? = none := Array.getElem?_eq_none hn
    rw [openLoops_succ_of_other (by simp [hp]) (by simp [hp]), ih]

theorem mem_openLoops (h : i ∈ p.openLoops n) : i < n ∧ p[i]? = some '[' := by
  induction n with
  | zero => simp [openLoops] at h
  | succ n ih =>
    have hold : i ∈ p.openLoops n → i < n + 1 ∧ p[i]? = some '[' := by
      intro hi
      obtain ⟨hlt, ho⟩ := ih hi
      exact ⟨by omega, ho⟩
    rcases p.openLoops_succ_cases n with ⟨ho, hs⟩ | ⟨-, hs⟩ | ⟨-, -, hs⟩
    · rw [hs, List.mem_cons] at h
      rcases h with rfl | h
      · exact ⟨by omega, ho⟩
      · exact hold h
    · rw [hs] at h
      exact hold (List.mem_of_mem_tail h)
    · rw [hs] at h
      exact hold h

theorem openLoops_pairwise (p : Program) (n : Nat) : (p.openLoops n).Pairwise (· > ·) := by
  induction n with
  | zero => exact .nil
  | succ n ih =>
    rcases p.openLoops_succ_cases n with ⟨-, hs⟩ | ⟨-, hs⟩ | ⟨-, -, hs⟩
    · rw [hs]
      exact List.pairwise_cons.mpr ⟨fun i hi => (mem_openLoops hi).1, ih⟩
    · rw [hs]
      exact ih.tail
    · rwa [hs]

theorem openLoops_nodup (p : Program) (n : Nat) : (p.openLoops n).Nodup :=
  (p.openLoops_pairwise n).imp fun h => by omega

/-- Under an open loop lie the loops that were open where it begins. -/
theorem openLoops_split (h : i ∈ p.openLoops n) :
    ∃ inner, p.openLoops n = inner ++ i :: p.openLoops i := by
  induction n with
  | zero => simp [openLoops] at h
  | succ n ih =>
    rcases p.openLoops_succ_cases n with ⟨-, hs⟩ | ⟨-, hs⟩ | ⟨-, -, hs⟩
    · rw [hs] at h ⊢
      rcases List.mem_cons.mp h with rfl | h
      · exact ⟨[], rfl⟩
      · obtain ⟨inner, hi⟩ := ih h
        exact ⟨n :: inner, by rw [hi, List.cons_append]⟩
    · rw [hs] at h ⊢
      obtain ⟨inner, hi⟩ := ih (List.mem_of_mem_tail h)
      rw [hi] at h ⊢
      cases inner with
      | nil => exact absurd (mem_openLoops h).1 (Nat.lt_irrefl i)
      | cons k inner => exact ⟨inner, rfl⟩
    · rw [hs] at h ⊢
      exact ih h

/-- The innermost open loop fixes the rest. -/
theorem openLoops_of_head (h : (p.openLoops n).head? = some i) :
    p.openLoops n = i :: p.openLoops i := by
  obtain ⟨outer, ho⟩ := List.head?_eq_some_iff.mp h
  obtain ⟨inner, hs⟩ := openLoops_split (p := p) (n := n) (i := i) (by simp [ho])
  have hd := p.openLoops_nodup n
  cases inner with
  | nil => exact hs
  | cons k inner =>
    rw [ho] at hs
    obtain ⟨rfl, rfl⟩ := List.cons.inj hs
    simp [ho] at hd

/-- A loop that is closed does not open again. -/
theorem not_mem_openLoops_of_le (hi : i < n) (h : i ∉ p.openLoops n) (hn : n ≤ k) :
    i ∉ p.openLoops k := by
  induction hn with
  | refl => exact h
  | @step k hk ih =>
    have hk : n ≤ k := hk
    intro hm
    rcases p.openLoops_succ_cases k with ⟨-, hs⟩ | ⟨-, hs⟩ | ⟨-, -, hs⟩
    · rw [hs, List.mem_cons] at hm
      rcases hm with rfl | hm
      · omega
      · exact ih hm
    · rw [hs] at hm
      exact ih (List.mem_of_mem_tail hm)
    · rw [hs] at hm
      exact ih hm

/-! ## Partners -/

theorem opening?_eq_some_iff :
    p.opening? j = some i ↔ p[j]? = some ']' ∧ (p.openLoops j).head? = some i := by
  unfold opening?
  split <;> simp_all

theorem opening?_eq_none_iff (hc : p[j]? = some ']') :
    p.opening? j = none ↔ p.openLoops j = [] := by
  rw [opening?, if_pos hc, List.head?_eq_none_iff]

theorem openLoops_of_opening? (h : p.opening? j = some i) :
    p.openLoops j = i :: p.openLoops i :=
  openLoops_of_head (opening?_eq_some_iff.mp h).2

theorem opening?_bounds (h : p.opening? j = some i) :
    i < j ∧ j < p.size ∧ p[i]? = some '[' ∧ p[j]? = some ']' := by
  have hj := (opening?_eq_some_iff.mp h).1
  obtain ⟨hlt, ho⟩ := mem_openLoops (p := p) (n := j) (i := i) (by simp [openLoops_of_opening? h])
  exact ⟨hlt, (Array.getElem?_eq_some_iff.mp hj).1, ho, hj⟩

/-- Behind a loop the same loops are open as in front of it. -/
theorem openLoops_succ_of_opening? (h : p.opening? j = some i) :
    p.openLoops (j + 1) = p.openLoops i := by
  rw [openLoops_succ_of_close (opening?_bounds h).2.2.2, openLoops_of_opening? h, List.tail_cons]

/-- At the beginning of a loop's body the same loops are open as at its end. -/
theorem openLoops_body_of_opening? (h : p.opening? j = some i) :
    p.openLoops (i + 1) = p.openLoops j := by
  rw [openLoops_succ_of_open (opening?_bounds h).2.2.1, openLoops_of_opening? h]

theorem not_mem_openLoops_of_opening? (h : p.opening? j = some i) (hk : j < k) :
    i ∉ p.openLoops k := by
  refine not_mem_openLoops_of_le (n := j + 1) (by have := (opening?_bounds h).1; omega) ?_ hk
  rw [openLoops_succ_of_opening? h]
  exact fun hm => absurd (mem_openLoops hm).1 (Nat.lt_irrefl i)

theorem opening?_injective (hj : p.opening? j = some i) (hk : p.opening? k = some i) : j = k := by
  have hmj : i ∈ p.openLoops j := by simp [openLoops_of_opening? hj]
  have hmk : i ∈ p.openLoops k := by simp [openLoops_of_opening? hk]
  rcases Nat.lt_trichotomy j k with hlt | heq | hlt
  · exact absurd hmk (not_mem_openLoops_of_opening? hj hlt)
  · exact heq
  · exact absurd hmj (not_mem_openLoops_of_opening? hk hlt)

theorem ending?_eq_some_iff : p.ending? i = some j ↔ p.opening? j = some i := by
  constructor
  · intro h
    simpa using List.find?_some h
  · intro h
    have hm : j ∈ List.range p.size := List.mem_range.mpr (opening?_bounds h).2.1
    cases hf : p.ending? i with
    | none =>
      have hn := List.find?_eq_none.mp hf j hm
      simp [h] at hn
    | some k =>
      have hk : p.opening? k = some i := by simpa using List.find?_some hf
      rw [opening?_injective h hk]

theorem ending?_eq_none_iff : p.ending? i = none ↔ ∀ j, p.opening? j ≠ some i := by
  constructor
  · intro h j hj
    rw [ending?_eq_some_iff.mpr hj] at h
    cases h
  · intro h
    cases hj : p.ending? i with
    | none => rfl
    | some j => exact absurd (ending?_eq_some_iff.mp hj) (h j)

theorem ending?_eq_none_of_ne (h : p[i]? ≠ some '[') : p.ending? i = none :=
  ending?_eq_none_iff.mpr fun _ hj => h (opening?_bounds hj).2.2.1

/-- A loop that begins inside another one ends inside it. -/
theorem opening?_nested {l : Nat} (hj : p.opening? j = some i) (hl : p.opening? l = some k)
    (hik : i < k) (hkj : k < j) : l < j := by
  apply Nat.lt_of_not_le
  intro hle
  have hm : k ∈ p.openLoops j := by
    apply Decidable.byContradiction
    intro hn
    exact not_mem_openLoops_of_le hkj hn hle (by simp [openLoops_of_opening? hl])
  rw [openLoops_of_opening? hj, List.mem_cons] at hm
  rcases hm with rfl | hm
  · omega
  · have := (mem_openLoops hm).1
    omega

/-! ## Pieces of text -/

/-- Partners lie on one side of each border of the text from `i` up to `n`. -/
def Closed (p : Program) (i n : Nat) : Prop :=
  ∀ k j, p.opening? j = some k → (i ≤ k ∧ k < n ↔ i ≤ j ∧ j < n)

theorem closed_all (p : Program) : p.Closed 0 p.size := by
  intro k j hj
  have := opening?_bounds hj
  omega

theorem closed_body (hp : p.opening? j = some i) : p.Closed (i + 1) j := by
  intro k l hl
  have hkl := (opening?_bounds hl).1
  constructor
  · intro h
    obtain ⟨hik, hkj⟩ := h
    exact ⟨by omega, opening?_nested hp hl hik hkj⟩
  · intro h
    obtain ⟨hil, hlj⟩ := h
    refine ⟨?_, by omega⟩
    rcases Nat.lt_trichotomy i k with hik | rfl | hki
    · exact hik
    · have := opening?_injective hp hl
      omega
    · have := opening?_nested hl hp hki hil
      omega

theorem Closed.behind (h : p.Closed i n) (hp : p.opening? j = some i) : p.Closed (j + 1) n := by
  intro k l hl
  have hij := (opening?_bounds hp).1
  have hkl := (opening?_bounds hl).1
  have hh := h k l hl
  constructor
  · intro h
    obtain ⟨hjk, hkn⟩ := h
    omega
  · intro h
    obtain ⟨hjl, hln⟩ := h
    obtain ⟨hik, hkn⟩ := hh.mpr ⟨by omega, hln⟩
    refine ⟨?_, hkn⟩
    rcases Nat.lt_trichotomy k j with hkj | rfl | hjk
    · rcases Nat.lt_or_eq_of_le hik with hik | rfl
      · have := opening?_nested hp hl hik hkj
        omega
      · have := opening?_injective hp hl
        omega
    · have ho := (opening?_bounds hl).2.2.1
      rw [(opening?_bounds hp).2.2.2] at ho
      cases ho
    · exact hjk

theorem Closed.tail (h : p.Closed i n) (he : p.ending? i = none) : p.Closed (i + 1) n := by
  intro k j hj
  have hkj := (opening?_bounds hj).1
  have hh := h k j hj
  have hne : k ≠ i := by
    intro hk
    rw [hk] at hj
    exact ending?_eq_none_iff.mp he j hj
  omega

/-! ## The forward search -/

/-- A position that is not the partner may be passed over in looking for it. -/
theorem succ_le_and_opening?_iff (h : p.opening? k ≠ some i) :
    k + 1 ≤ j ∧ p.opening? j = some i ↔ k ≤ j ∧ p.opening? j = some i := by
  apply and_congr_left
  intro hj
  constructor
  · intro hle
    omega
  · intro hle
    rcases Nat.lt_or_eq_of_le hle with hlt | rfl
    · exact hlt
    · exact absurd hj h

/-- The search that has met `depth` more `[` than `]` since the loop at `i` began
finds the partner of that `[`. In terms of the scan, `depth` loops are open
inside the one at `i`. -/
theorem closingFrom_eq_some_iff {depth : Nat} {inner outer : List Nat}
    (hs : p.openLoops k = inner ++ i :: outer) (hd : inner.length = depth) :
    p.closingFrom depth k = some j ↔ k ≤ j ∧ p.opening? j = some i := by
  fun_induction closingFrom p depth k generalizing inner with
  | case1 depth k hk ho ih =>
    have ho' : p[k]? = some '[' := by rw [Array.getElem?_eq_getElem hk, ho]
    have hs' : p.openLoops (k + 1) = (k :: inner) ++ i :: outer := by
      rw [openLoops_succ_of_open ho', hs, List.cons_append]
    rw [ih hs' (by simp [hd])]
    exact succ_le_and_opening?_iff (by simp [opening?, ho'])
  | case2 k hk _ hc =>
    have hc' : p[k]? = some ']' := by rw [Array.getElem?_eq_getElem hk, hc]
    obtain rfl := List.eq_nil_of_length_eq_zero hd
    have hp : p.opening? k = some i := opening?_eq_some_iff.mpr ⟨hc', by simp [hs]⟩
    constructor
    · intro h
      obtain rfl := Option.some.inj h
      exact ⟨Nat.le_refl k, hp⟩
    · intro h
      obtain ⟨-, hj⟩ := h
      rw [opening?_injective hp hj]
  | case3 k hk _ hc depth ih =>
    have hc' : p[k]? = some ']' := by rw [Array.getElem?_eq_getElem hk, hc]
    obtain ⟨x, inner, rfl⟩ := List.exists_cons_of_length_eq_add_one hd
    have hs' : p.openLoops (k + 1) = inner ++ i :: outer := by
      rw [openLoops_succ_of_close hc', hs, List.cons_append, List.tail_cons]
    rw [ih hs' (by simpa using hd)]
    apply succ_le_and_opening?_iff
    intro hk
    -- the `]` at `k` closes the loop at `x`, which lies inside the one at `i`
    have hx : x = i := by simpa [hs] using (opening?_eq_some_iff.mp hk).2
    have hn := p.openLoops_nodup k
    simp [hs, hx] at hn
  | case4 depth k hk ho hc ih =>
    have ho' : p[k]? ≠ some '[' := by simpa [Array.getElem?_eq_getElem hk] using ho
    have hc' : p[k]? ≠ some ']' := by simpa [Array.getElem?_eq_getElem hk] using hc
    rw [ih (by rw [openLoops_succ_of_other ho' hc', hs]) hd]
    exact succ_le_and_opening?_iff (by simp [opening?, hc'])
  | case5 depth k hk =>
    constructor
    · intro h
      cases h
    · intro h
      obtain ⟨hle, hj⟩ := h
      have := (opening?_bounds hj).2.1
      omega

/-- **The forward search agrees with the scan.** From a `[` it finds the `]` that
the scan pairs with it, and it fails if the scan leaves that `[` alone. -/
theorem closing?_eq_ending? (h : p[i]? = some '[') : p.closing? i = p.ending? i := by
  apply Option.ext
  intro j
  have hs : p.openLoops (i + 1) = [] ++ i :: p.openLoops i := openLoops_succ_of_open h
  rw [closing?, ending?_eq_some_iff, closingFrom_eq_some_iff hs List.length_nil, and_iff_right_iff_imp]
  intro hj
  exact (opening?_bounds hj).1

/-! ## Brackets without a partner -/

/-- A loop stays open as long as its partner does not come. -/
theorem mem_openLoops_of_ending?_eq_none (ho : p[i]? = some '[') (he : p.ending? i = none)
    (hn : i < n) : i ∈ p.openLoops n := by
  induction hn with
  | refl => simp [openLoops_succ_of_open ho]
  | @step n hn ih =>
    rcases p.openLoops_succ_cases n with ⟨-, hs⟩ | ⟨hc, hs⟩ | ⟨-, -, hs⟩
    · rw [hs]
      exact List.mem_cons_of_mem n ih
    · rw [hs]
      cases hl : p.openLoops n with
      | nil => simp [hl] at ih
      | cons x rest =>
        have hx : x ≠ i := by
          intro hx
          exact ending?_eq_none_iff.mp he n (opening?_eq_some_iff.mpr ⟨hc, by simp [hl, hx]⟩)
        rw [hl] at ih
        exact (List.mem_cons.mp ih).resolve_left (Ne.symm hx)
    · rwa [hs]

/-- The loops open behind the whole program are those without a partner. -/
theorem mem_openLoops_size_iff : i ∈ p.openLoops p.size ↔ i ∈ p.unclosed := by
  rw [unclosed, List.mem_filter, List.mem_range, decide_eq_true_iff]
  constructor
  · intro h
    obtain ⟨hlt, ho⟩ := mem_openLoops h
    refine ⟨hlt, ho, ending?_eq_none_iff.mpr ?_⟩
    intro j hj
    exact not_mem_openLoops_of_opening? hj (opening?_bounds hj).2.1 h
  · intro h
    obtain ⟨hlt, ho, he⟩ := h
    exact mem_openLoops_of_ending?_eq_none ho he hlt

theorem length_openLoops_size (p : Program) : (p.openLoops p.size).length = p.unclosed.length :=
  List.Perm.length_eq <| (List.perm_ext_iff_of_nodup (p.openLoops_nodup p.size)
    (List.nodup_range.filter _)).mpr fun _ => mem_openLoops_size_iff

/-! ## Balanced programs -/

/-- No prefix has more `]` than `[`, and the whole has as many of both. -/
structure Balanced (p : Program) : Prop where
  prefixes : ∀ n, (p.toList.take n).count ']' ≤ (p.toList.take n).count '['
  whole : p.toList.count '[' = p.toList.count ']'

/-- While no prefix has more `]` than `[`, the scan counts the difference. -/
theorem length_openLoops_add_count
    (h : ∀ n, (p.toList.take n).count ']' ≤ (p.toList.take n).count '[') (n : Nat) :
    (p.openLoops n).length + (p.toList.take n).count ']' = (p.toList.take n).count '[' := by
  induction n with
  | zero => simp [openLoops]
  | succ n ih =>
    have hn := h (n + 1)
    rw [List.take_add_one, List.count_append, List.count_append, Array.getElem?_toList] at hn ⊢
    rcases p.openLoops_succ_cases n with ⟨ho, hs⟩ | ⟨hc, hs⟩ | ⟨ho, hc, hs⟩
    · have h1 : p[n]?.toList.count '[' = 1 := by simp [ho]
      have h2 : p[n]?.toList.count ']' = 0 := by simp [ho]
      rw [hs, List.length_cons]
      omega
    · have h1 : p[n]?.toList.count '[' = 0 := by simp [hc]
      have h2 : p[n]?.toList.count ']' = 1 := by simp [hc]
      rw [hs, List.length_tail]
      omega
    · have h1 : p[n]?.toList.count '[' = 0 := by
        simpa [List.count_eq_zero] using ho
      have h2 : p[n]?.toList.count ']' = 0 := by
        simpa [List.count_eq_zero] using hc
      rw [hs]
      omega

theorem Balanced.opening?_isSome (hb : p.Balanced) (hc : p[j]? = some ']') :
    (p.opening? j).isSome := by
  have hn := hb.prefixes (j + 1)
  have hj := length_openLoops_add_count hb.prefixes j
  rw [List.take_add_one, List.count_append, List.count_append, Array.getElem?_toList] at hn
  have h1 : p[j]?.toList.count '[' = 0 := by simp [hc]
  have h2 : p[j]?.toList.count ']' = 1 := by simp [hc]
  rw [Option.isSome_iff_ne_none, ne_eq, opening?_eq_none_iff hc]
  intro hs
  rw [hs, List.length_nil] at hj
  omega

theorem Balanced.ending?_isSome (hb : p.Balanced) (ho : p[i]? = some '[') :
    (p.ending? i).isSome := by
  have hs := length_openLoops_add_count hb.prefixes p.size
  rw [List.take_of_length_le (by simp), hb.whole] at hs
  rw [Option.isSome_iff_ne_none]
  intro he
  have hi := mem_openLoops_of_ending?_eq_none ho he (Array.getElem?_eq_some_iff.mp ho).1
  have := List.length_pos_of_mem hi
  omega

end Brainfuck.Program
