import Brainfuck.Proofs.Tabulation

/-! The step table on a page that is too short. The page is filled to its last
byte with the beginning of the table. What does not fit stops the machine, and
where it stops is told by the byte that found no room: in the heading nothing has
been executed yet, and in a row its instruction has, once, and no other after it. -/

namespace Brainfuck

namespace Table

variable {room : Nat} {p page : Page} {m : Machine}

/-! ## Printing on what room is left -/

theorem Page.print_overflows (hp : p.sink.room = some room) {s : String}
    (h : room < (utf8 s).length) :
    ∃ p', p.print s = (.error p.sink.refusal, p') ∧
      p'.taken.toList = p.taken.toList ++ (utf8 s).take room := by
  have hf : ¬ p.sink.fits (utf8 s) = true := by simp [Writer.fits, hp, h]
  refine ⟨_, by rw [Page.print_eq, if_neg hf], ?_⟩
  simp [Writer.accepted, hp]

theorem hasRoom_iff (hp : p.sink.room = some room) {n : Nat} : p.HasRoom n ↔ n ≤ room := by
  simp [Page.HasRoom, hp]

/-! ## Rows -/

theorem length_le_lines (n : Nat) (es : List Executed) :
    es.length ≤ (utf8 (lines n es)).length := by
  induction es generalizing n with
  | nil => exact Nat.zero_le _
  | cons e es ih =>
    have hrow : 0 < (utf8 (row n e)).length := by
      rw [row, utf8_append, List.length_append]
      exact Nat.add_pos_right _ (by decide)
    have hes := ih (n + 1)
    rw [lines, utf8_append, List.length_append, List.length_cons]
    omega

/-- Byte number `room` of the rows of `es`, numbered from `i`, lies in the row that
`k` others precede. -/
def InRow (i : Nat) (es : List Executed) (k room : Nat) : Prop :=
  (utf8 (lines i (es.take k))).length ≤ room ∧ room < (utf8 (lines i (es.take (k + 1)))).length

theorem inRow_zero {i : Nat} {e : Executed} {es : List Executed} :
    InRow i (e :: es) 0 room ↔ room < (utf8 (row i e)).length := by
  simp [InRow, lines, utf8]

theorem inRow_succ {i k : Nat} {e : Executed} {es : List Executed} :
    InRow i (e :: es) (k + 1) room ↔
      (utf8 (row i e)).length ≤ room ∧ InRow (i + 1) es k (room - (utf8 (row i e)).length) := by
  simp only [InRow, List.take_succ_cons, lines, utf8_append, List.length_append]
  omega

theorem exists_inRow {i : Nat} {es : List Executed} (h : room < (utf8 (lines i es)).length) :
    ∃ k e, es[k]? = some e ∧ InRow i es k room := by
  induction es generalizing i room with
  | nil => simp [lines, utf8] at h
  | cons e es ih =>
    rcases Nat.lt_or_ge room (utf8 (row i e)).length with hlt | hge
    · exact ⟨0, e, rfl, inRow_zero.mpr hlt⟩
    · have hes : room - (utf8 (row i e)).length < (utf8 (lines (i + 1) es)).length := by
        rw [lines, utf8_append, List.length_append] at h
        omega
      obtain ⟨k, e', he', hk⟩ := ih hes
      exact ⟨k + 1, e', he', inRow_succ.mpr ⟨hge, hk⟩⟩

/-- Where the room gives out in a row, its instruction is the last. -/
theorem rows_overflow (n : Nat) (done : Array Executed) (m : Machine) {k : Nat} {e : Executed}
    (hp : page.sink.room = some room) (he : (m.trace n Silent.mk).1.toList[k]? = some e)
    (hk : InRow done.size (m.trace n Silent.mk).1.toList k room) :
    ∃ page', rows n done m page = (done ++ ((m.trace n Silent.mk).1.toList.take (k + 1)).toArray,
        .failed (.io page.sink.refusal e.ip), (m.run (k + 1) Silent.mk).2.1, page') ∧
      page'.taken.toList = page.taken.toList ++
        (utf8 (lines done.size (m.trace n Silent.mk).1.toList)).take room := by
  induction n generalizing done m page room k with
  | zero => simp [Machine.trace_zero] at he
  | succ n ih =>
    rw [Machine.trace_succ] at he hk ⊢
    rw [rows, Machine.run]
    generalize m.step Silent.mk = x at he hk ⊢
    rcases x with ⟨e₁ | _ | f, m₁, ⟨⟩⟩
    · simp only [Array.toList_append, List.singleton_append] at he hk ⊢
      cases k with
      | zero =>
        cases he
        obtain ⟨p₁, hprint, ht₁⟩ := Page.print_overflows hp (inRow_zero.mp hk)
        refine ⟨p₁, by simp [hprint, Machine.run], ?_⟩
        rw [ht₁, lines, utf8_append, List.take_append_of_le_length (Nat.le_of_lt (inRow_zero.mp hk))]
      | succ k =>
        obtain ⟨hle, hk⟩ := inRow_succ.mp hk
        obtain ⟨p₁, hprint, hr₁, hf₁, ht₁⟩ := Page.print_fits (hasRoom_iff hp |>.mpr hle)
        rw [hp, Option.map_some] at hr₁
        obtain ⟨page', hrows, ht⟩ := ih (done.push e₁) m₁ hr₁ he (by rwa [Array.size_push])
        refine ⟨page', ?_, ?_⟩
        · simp only [hprint, hrows, hf₁]
          simp
        · rw [ht, ht₁, lines, utf8_append, List.take_append, List.take_of_length_le hle]
          simp
    · simp at he
    · simp at he

/-! ## The heading -/

/-- Where the room gives out in the heading, nothing is executed. -/
theorem heading_overflow (n : Nat) (m : Machine) (hp : page.sink.room = some room)
    (h : room < (utf8 heading).length) :
    ∃ page', print n m page = (#[], .failed (.io page.sink.refusal 0), m, page') ∧
      page'.taken.toList = page.taken.toList ++ (utf8 heading).take room := by
  have htext : utf8 heading = utf8 titles ++ utf8 rule := utf8_append titles rule
  rw [htext, List.length_append] at h
  rw [print]
  rcases Nat.lt_or_ge room (utf8 titles).length with hlt | hge
  · obtain ⟨p₁, h₁, ht₁⟩ := Page.print_overflows hp hlt
    refine ⟨p₁, by rw [h₁], ?_⟩
    rw [ht₁, htext, List.take_append_of_le_length (Nat.le_of_lt hlt)]
  · obtain ⟨p₁, h₁, hr₁, hf₁, ht₁⟩ := Page.print_fits ((hasRoom_iff hp).mpr hge)
    rw [hp, Option.map_some] at hr₁
    obtain ⟨p₂, h₂, ht₂⟩ := Page.print_overflows hr₁ (s := rule) (by omega)
    refine ⟨p₂, by rw [h₁]; dsimp only; rw [h₂, hf₁], ?_⟩
    rw [ht₂, ht₁, htext, List.take_append, List.take_of_length_le hge, List.append_assoc]

/-! ## Bounds -/

/-- A table that has come to an end is not changed by a greater bound. -/
theorem rows_add (n j : Nat) (done : Array Executed) (m : Machine) (page : Page)
    (h : (rows n done m page).2.1 ≠ .paused) :
    rows (n + j) done m page = rows n done m page := by
  induction n generalizing done m page with
  | zero => exact absurd rfl h
  | succ n ih =>
    rw [Nat.succ_add]
    simp only [rows] at h ⊢
    generalize m.step Silent.mk = x at h ⊢
    rcases x with ⟨e | _ | f, m₁, ⟨⟩⟩
    · dsimp only at h ⊢
      generalize page.print (row done.size e) = y at h ⊢
      rcases y with ⟨_ | _, p₁⟩
      · rfl
      · exact ih _ _ _ h
    · rfl
    · rfl

theorem print_add (n j : Nat) (m : Machine) (page : Page)
    (h : (print n m page).2.1 ≠ .paused) : print (n + j) m page = print n m page := by
  rw [print] at h ⊢
  rw [print]
  rcases h₁ : page.print titles with ⟨_ | _, p₁⟩
  · rfl
  · rw [h₁] at h
    dsimp only at h ⊢
    rcases h₂ : p₁.print rule with ⟨_ | _, p₂⟩
    · rfl
    · rw [h₂] at h
      exact rows_add n j _ _ _ h

end Table

/-- Executing `es` in silence has brought `m` to `mid`, which goes on with whatever
`m` would have executed next. -/
structure Machine.PausedAfter (m : Machine) (es : Array Executed) (mid : Machine) : Prop where
  trace : m.trace es.size Silent.mk = (es, .paused, mid, Silent.mk)
  running : mid.status = .running
  resumes (j : Nat) :
    m.trace (es.size + j) Silent.mk = (es ++ (mid.trace j Silent.mk).1, (mid.trace j Silent.mk).2)

namespace Table

theorem pausedAfter_take {m : Machine} {n k : Nat} {e : Executed}
    (hk : (m.trace n Silent.mk).1.toList[k]? = some e) :
    m.PausedAfter ((m.trace n Silent.mk).1.toList.take (k + 1)).toArray
      (m.run (k + 1) Silent.mk).2.1 := by
  obtain ⟨_, _, mid, ⟨⟩, -, ht, htr⟩ := (Machine.course_trace n m Silent.mk).at_step hk
  have hsize : ((m.trace n Silent.mk).1.toList.take (k + 1)).toArray.size = k + 1 := by
    have hlt := (List.getElem?_eq_some_iff.mp hk).1
    simp only [List.size_toArray, List.length_take]
    omega
  rw [← Machine.trace_snd, htr]
  exact ⟨by rw [hsize, htr], ht.running_of_executed, fun j => by rw [hsize, Machine.trace_add htr]⟩

/-- Where the room gives out below the heading, it does in a row. -/
theorem print_overflow (n : Nat) (m : Machine) {page : Page} {room : Nat}
    (h0 : page.taken = #[]) (hp : page.sink.room = some room)
    (hlo : (utf8 heading).length ≤ room)
    (hhi : room < (utf8 (text (m.trace n Silent.mk).1.toList)).length) :
    ∃ k e page', (m.trace n Silent.mk).1.toList[k]? = some e ∧
      (utf8 (text ((m.trace n Silent.mk).1.toList.take k))).length ≤ room ∧
      room < (utf8 (text ((m.trace n Silent.mk).1.toList.take (k + 1)))).length ∧
      print n m page = (((m.trace n Silent.mk).1.toList.take (k + 1)).toArray,
        .failed (.io page.sink.refusal e.ip), (m.run (k + 1) Silent.mk).2.1, page') ∧
      page'.taken.toList = (utf8 (text (m.trace n Silent.mk).1.toList)).take room := by
  obtain ⟨p₁, h₁, hr₁, hf₁, ht₁⟩ := print_heading n m ((hasRoom_iff hp).mpr hlo)
  rw [hp, Option.map_some] at hr₁
  rw [utf8_text, List.length_append] at hhi
  obtain ⟨k, e, he, hk⟩ := exists_inRow (Nat.sub_lt_left_of_lt_add hlo hhi)
  obtain ⟨page', hrows, ht⟩ := rows_overflow n #[] m hr₁ he hk
  refine ⟨k, e, page', he, ?_, ?_, by rw [h₁, hrows, hf₁, Array.empty_append], ?_⟩
  · rw [utf8_text, List.length_append]
    have := hk.1
    omega
  · rw [utf8_text, List.length_append]
    have := hk.2
    omega
  · rw [ht, ht₁, h0, utf8_text, List.take_append, List.take_of_length_le hlo]
    rfl

/-- A page that is too short stops a machine sooner than a bound above its room. -/
theorem print_ends (n : Nat) (m : Machine) {page : Page} {room : Nat}
    (h0 : page.taken = #[]) (hp : page.sink.room = some room) (hn : room < n) :
    (print n m page).2.1 ≠ .paused := by
  rcases Nat.lt_or_ge room (utf8 heading).length with hlt | hge
  · obtain ⟨page', hcut, -⟩ := heading_overflow n m hp hlt
    simp [hcut]
  · rcases Nat.lt_or_ge room (utf8 (text (m.trace n Silent.mk).1.toList)).length with hlt | hge'
    · obtain ⟨k, e, page', -, -, -, hcut, -⟩ := print_overflow n m h0 hp hge hlt
      simp [hcut]
    · -- all rows fit, so there are less than `n`
      obtain ⟨page', hcut, -⟩ := print_fits n m h0 ((hasRoom_iff hp).mpr hge')
      intro hpaused
      rw [hcut] at hpaused
      have hsize := Machine.size_trace_of_paused hpaused
      have hrows := length_le_lines 0 (m.trace n Silent.mk).1.toList
      rw [utf8_text, List.length_append] at hge'
      rw [Array.length_toList, hsize] at hrows
      omega

/-- **A short page cuts a table off at a byte.** What it takes is the beginning of
the table that a page without end would take, as far as there is room; and with
room for `room` bytes no more than `room` steps are ever taken. If the whole table
fits, nothing is different. If the room gives out in the heading, the machine is as
it was. If it gives out in a row, the error points at the instruction of this row,
and the machine has executed it, once, and stands ready to go on behind it. -/
theorem print_cut_off (n : Nat) (m : Machine) {sink : Writer} {room : Nat}
    (hroom : sink.room = some room) :
    let full := print n m (.ofRoom none)
    let table := full.2.2.2.taken.toList
    let cut := print n m ⟨sink, #[]⟩
    cut.2.2.2.taken.toList = table.take room ∧
    (room < n → cut.2.1 ≠ .paused ∧ ∀ j, print (n + j) m ⟨sink, #[]⟩ = cut) ∧
    (table.length ≤ room → cut.1 = full.1 ∧ cut.2.1 = full.2.1 ∧ cut.2.2.1 = full.2.2.1) ∧
    (room < (utf8 heading).length →
      cut.1 = #[] ∧ cut.2.1 = .failed (.io sink.refusal 0) ∧ cut.2.2.1 = m) ∧
    ((utf8 heading).length ≤ room → room < table.length →
      ∃ k e, full.1[k]? = some e ∧
        (utf8 (text (full.1.toList.take k))).length ≤ room ∧
        room < (utf8 (text (full.1.toList.take (k + 1)))).length ∧
        cut.1 = (full.1.toList.take (k + 1)).toArray ∧
        cut.2.1 = .failed (.io sink.refusal e.ip) ∧ m.PausedAfter cut.1 cut.2.2.1) := by
  obtain ⟨pf, hfull, htable⟩ := print_unlimited n m
  have hp : (⟨sink, #[]⟩ : Page).sink.room = some room := hroom
  have hhead : (utf8 heading).length ≤ (utf8 (text (m.trace n Silent.mk).1.toList)).length := by
    rw [utf8_text, List.length_append]
    exact Nat.le_add_right _ _
  have hends (hn : room < n) := print_ends n m rfl hp hn
  have hadd (hn : room < n) := fun j => print_add n j m _ (hends hn)
  simp only [hfull, htable]
  rcases Nat.lt_or_ge room (utf8 heading).length with hlt | hge
  · obtain ⟨page', hcut, ht⟩ := heading_overflow n m hp hlt
    refine ⟨?_, fun hn => ⟨hends hn, hadd hn⟩, fun h => by omega, fun _ => ?_, fun h => by omega⟩
    · rw [hcut, utf8_text,
        List.take_append_of_le_length (Nat.le_of_lt hlt)]
      exact ht
    · rw [hcut]
      exact ⟨rfl, rfl, rfl⟩
  · rcases Nat.lt_or_ge room (utf8 (text (m.trace n Silent.mk).1.toList)).length with hlt | hge'
    · obtain ⟨k, e, page', he, hlo, hhi, hcut, ht⟩ := print_overflow n m rfl hp hge hlt
      refine ⟨by rw [hcut, ht], fun hn => ⟨hends hn, hadd hn⟩, fun h => by omega, fun h => by omega,
        fun _ _ => ⟨k, e, by rwa [Array.getElem?_toList] at he, hlo, hhi, ?_⟩⟩
      rw [hcut]
      exact ⟨rfl, rfl, pausedAfter_take he⟩
    · obtain ⟨page', hcut, ht⟩ := print_fits n m rfl ((hasRoom_iff hp).mpr hge')
      refine ⟨?_, fun hn => ⟨hends hn, hadd hn⟩, fun _ => ?_, fun h => by omega, fun _ h => by omega⟩
      · rw [hcut, ht, List.take_of_length_le hge']
      · rw [hcut]
        exact ⟨rfl, rfl, rfl⟩

/-- A page with room for the heading and one row: the second row finds none, and the
machine has executed both instructions. -/
theorem print_cut_off_between_rows :
    ∃ m sink full cut,
      ((m = Machine.load "+." ∧ full = print 2 m (.ofRoom none) ∧ cut = print 2 m ⟨sink, #[]⟩) ∧
        sink.room = some 187 ∧ (utf8 heading).length ≤ 187 ∧
        187 < full.2.2.2.taken.toList.length ∧
        (utf8 (text (full.1.toList.take 1))).length = 187) ∧
      cut.2.1 = .failed (.io ⟨.writeZero, "failed to write whole buffer"⟩ 1) ∧
      cut.2.2.2.taken.toList = full.2.2.2.taken.toList.take 187 ∧
      m.PausedAfter cut.1 cut.2.2.1 := by
  have hroom : ({ Writer.unbounded with room := some 187 } : Writer).room = some 187 := rfl
  obtain ⟨htaken, -, -, -, hrow⟩ := print_cut_off 2 (Machine.load "+.") hroom
  have hlo : (utf8 heading).length ≤ 187 := by decide +kernel
  have hhi : 187 < (print 2 (Machine.load "+.") (.ofRoom none)).2.2.2.taken.toList.length := by
    decide +kernel
  obtain ⟨k, e, -, -, -, -, -, hpaused⟩ := hrow hlo hhi
  exact ⟨_, _, _, _, ⟨⟨rfl, rfl, rfl⟩, hroom, hlo, hhi, by decide +kernel⟩, by decide +kernel,
    htaken, hpaused⟩

end Table

end Brainfuck
