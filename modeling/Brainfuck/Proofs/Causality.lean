import Brainfuck.Proofs.Accounting

/-! What a run depends on. On streams that refuse nothing a machine learns nothing but
the bytes that it reads, one at a time. So as long as two inputs have given the same
bytes, its runs on them are the same, whatever is still to come in either and whatever
the prompts say; and what goes through the streams differs in the prompts only. -/

namespace Brainfuck

/-- Whether an event is of the sink for prompts. -/
def Event.onCue : Event → Bool
  | wrote .cue _ | writeRefused .cue | flushed .cue | flushRefused .cue => true
  | _ => false

/-- What went through the streams beside the prompts. -/
def Streams.uncued (s : Streams) : List Event := s.transcript.toList.filter (!·.onCue)

/-- How many bytes some instructions asked for. -/
def reads (es : List Executed) : Nat := es.countP (·.command = .input)

/-! ## What deeds put through beside the prompts -/

theorem filter_promptEvents (prompt : String) :
    (Streams.promptEvents prompt).filter (!·.onCue) = [.flushed .output] := by
  unfold Streams.promptEvents
  split <;> rfl

theorem Deed.filter_events (prompt prompt' : String) (d : Deed) :
    (d.events prompt).filter (!·.onCue) = (d.events prompt').filter (!·.onCue) := by
  rcases d with ⟨_, _, _, _, eff⟩ | _
  · cases eff with
    | read byte =>
      simp only [events, Effect.events, List.filter_append, filter_promptEvents]
    | _ => rfl
  · rfl

theorem Deed.filter_flatMap (prompt prompt' : String) (deeds : List Deed) :
    (deeds.flatMap (events prompt)).filter (!·.onCue) =
      (deeds.flatMap (events prompt')).filter (!·.onCue) := by
  simp only [List.filter_flatMap, filter_events prompt prompt']

namespace Streams

variable {s t s' t' : Streams} {common rest rest' : List UInt8}

/-! ## Streams with a beginning in common -/

/-- A read behind its prompt gives what is next in the input. -/
theorem Faultless.prompted_read (h : s.Faultless) :
    ∃ t u, s.showPrompt = (.ok (), t) ∧ t.receive = (.ok s.input.pending.head?, u) ∧
      s.Carries (promptEvents s.prompt ++ [received s.input.pending.head?]) u := by
  obtain ⟨t, hp, hprompt⟩ := h.showPrompt
  obtain ⟨u, hr, hread⟩ := hprompt.faultless.receive
  have hpending : t.input.pending = s.input.pending := by
    have hp := hprompt.pending
    rwa [Deed.byteRead_promptEvents, List.nil_append] at hp
  rw [hpending] at hr hread
  exact ⟨t, u, hp, hr, hprompt.trans hread⟩

/-- Two streams that refuse nothing and will both give `common` first. -/
structure Share (common rest rest' : List UInt8) (s t : Streams) : Prop where
  left : s.Faultless
  right : t.Faultless
  pending : s.input.pending = common ++ rest
  pending' : t.input.pending = common ++ rest'

/-- What reads nothing leaves the beginning in common. -/
theorem Share.carries {events events' : List Event} (h : Share common rest rest' s t)
    (hs : s.Carries events s') (ht : t.Carries events' t')
    (he : events.filterMap Event.byteRead? = []) (he' : events'.filterMap Event.byteRead? = []) :
    Share common rest rest' s' t' where
  left := hs.faultless
  right := ht.faultless
  pending := by
    have hp := hs.pending
    rwa [he, List.nil_append, h.pending] at hp
  pending' := by
    have hp := ht.pending
    rwa [he', List.nil_append, h.pending'] at hp

end Streams

open Streams (Share)

namespace Machine

variable {m m' : Machine} {s t s' : Streams} {common rest rest' : List UInt8} {o : Outcome}

/-! ## Steps -/

/-- An instruction that does not read, or one that reads what is in common. -/
theorem Acts.shared {c : Command} {e : Effect} (ha : m.Acts s c e m' s')
    (h : Share common rest rest' s t) (hc : c = .input → common ≠ []) :
    ∃ t', m.Acts t c e m' t' ∧
      Share (common.drop (if c = .input then 1 else 0)) rest rest' s' t' := by
  cases ha with
  | right => exact ⟨t, .right, h⟩
  | left => exact ⟨t, .left, h⟩
  | increment => exact ⟨t, .increment, h⟩
  | decrement => exact ⟨t, .decrement, h⟩
  | output hw =>
    obtain ⟨s₁, hs, hs₁⟩ := h.left.send .output (List.cons_ne_nil m.current [])
    obtain ⟨t₁, ht, ht₁⟩ := h.right.send .output (List.cons_ne_nil m.current [])
    cases hs.symm.trans hw
    exact ⟨t₁, .output ht, h.carries hs₁ ht₁ rfl rfl⟩
  | input hp hr =>
    obtain ⟨b, common, rfl⟩ := List.exists_cons_of_ne_nil (hc rfl)
    obtain ⟨s₁, s₂, hps, hrs, hs⟩ := h.left.prompted_read
    obtain ⟨t₁, t₂, hpt, hrt, ht⟩ := h.right.prompted_read
    cases hps.symm.trans hp
    cases hrs.symm.trans hr
    have hb : s.input.pending.head? = some b := by rw [h.pending]; rfl
    have hb' : t.input.pending.head? = some b := by rw [h.pending']; rfl
    rw [hb'] at hrt ht
    rw [hb] at hs ⊢
    refine ⟨t₂, .input hpt hrt, hs.faultless, ht.faultless, ?_, ?_⟩
    · have hp := hs.pending
      rw [List.filterMap_append, Deed.byteRead_promptEvents, h.pending] at hp
      exact (List.cons.inj hp).2
    · have hp := ht.pending
      rw [List.filterMap_append, Deed.byteRead_promptEvents, h.pending'] at hp
      exact (List.cons.inj hp).2
  | skip h0 hj => exact ⟨t, .skip h0 hj, h⟩
  | enter h0 => exact ⟨t, .enter h0, h⟩
  | exit h0 hl => exact ⟨t, .exit h0 hl, h⟩
  | stray h0 hl => exact ⟨t, .stray h0 hl, h⟩
  | again h0 hl => exact ⟨t, .again h0 hl, h⟩

theorem Transition.shared {e : Executed} (ht : Transition m s (.executed e) m' s')
    (h : Share common rest rest' s t) (he : e.command = .input → common ≠ []) :
    ∃ t', Transition m t (.executed e) m' t' ∧
      Share (common.drop (if e.command = .input then 1 else 0)) rest rest' s' t' := by
  cases ht with
  | executed hs hc ha =>
    obtain ⟨t', ha', h'⟩ := ha.shared h he
    exact ⟨t', .executed hs hc ha', h'⟩

/-- A step that executes nothing reads nothing, either. -/
theorem Transition.shared_of_ended (ht : Transition m s o m' s')
    (h : Share common rest rest' s t) (ho : ∀ e, o ≠ .executed e) :
    ∃ t', Transition m t o m' t' ∧ Share common rest rest' s' t' := by
  cases ht with
  | idle hs => exact ⟨t, .idle hs, h⟩
  | executed => exact absurd rfl (ho _)
  | failed hs hf =>
    obtain ⟨rfl, hown⟩ := hf.own h.left
    exact ⟨t, .failed hs (hown t), h⟩
  | ended hs hp he =>
    obtain ⟨s₁, hs₁, hcs⟩ := endLine_carries h.left
    obtain ⟨t₁, ht₁, hct⟩ := endLine_carries h.right
    cases hs₁.symm.trans he
    exact ⟨t₁, .ended hs hp ht₁, h.carries hcs hct rfl rfl⟩
  | endRefused _ _ he =>
    obtain ⟨s₁, hs₁, -⟩ := endLine_carries h.left
    cases hs₁.symm.trans he

/-! ## Runs -/

theorem Course.shared {es : List Executed} {r : Ending} (hc : m.Course s es r m' s')
    (h : Share common rest rest' s t) (hk : reads es ≤ common.length) :
    ∃ t', m.Course t es r m' t' ∧ Share (common.drop (reads es)) rest rest' s' t' := by
  induction hc generalizing t common with
  | paused => exact ⟨t, .paused _ _, h⟩
  | @executed _ _ _ _ _ _ e es _ ht _ ih =>
    have hreads : reads (e :: es) = reads es + if e.command = .input then 1 else 0 := by
      simp [reads, List.countP_cons]
    rw [hreads] at hk ⊢
    obtain ⟨t₁, ht₁, h₁⟩ := ht.shared h fun he hnil => by simp [he, hnil] at hk
    obtain ⟨t', hc', h'⟩ := ih h₁ (by rw [List.length_drop]; omega)
    rw [List.drop_drop, Nat.add_comm] at h'
    exact ⟨t', .executed ht₁ hc', h'⟩
  | halted ht =>
    obtain ⟨t', ht', h'⟩ := ht.shared_of_ended h (by simp)
    exact ⟨t', .halted ht', h'⟩
  | failed ht =>
    obtain ⟨t', ht', h'⟩ := ht.shared_of_ended h (by simp)
    exact ⟨t', .failed ht', h'⟩

/-- Unless the end of the input is met, each read takes a byte of it. -/
theorem Course.length_delivered {σ : Type} [Terminal σ] {io io' : σ} {es : List Executed}
    {r : Ending} (hc : m.Course io es r m' io') (h : ∀ e ∈ es, e.effect ≠ .read none) :
    (Deed.delivered (es.map .executed)).length = reads es := by
  induction hc with
  | paused | halted | failed => rfl
  | @executed _ _ _ _ _ _ e es _ ht _ ih =>
    obtain ⟨he, hes⟩ := List.forall_mem_cons.mp h
    have hrest := ih hes
    rw [Deed.delivered] at hrest ⊢
    rw [reads, List.countP_cons, ← reads, ← hrest, List.map_cons, List.filterMap_cons]
    cases ht with
    | executed _ _ ha =>
      cases ha with
      | @input _ _ byte =>
        cases byte with
        | none => exact absurd rfl he
        | some b => rfl
      | _ => rfl

theorem Course.reads_le {es : List Executed} {r : Ending} (hc : m.Course s es r m' s')
    (hs : s.Faultless) (h : ∀ e ∈ es, e.effect ≠ .read none) :
    reads es ≤ s.input.pending.length := by
  rw [← hc.length_delivered h, ← (hc.carries hs).pending, Deed.byteRead_flatMap, Deed.delivered,
    Deed.delivered, List.filterMap_append, List.append_assoc, List.length_append]
  exact Nat.le_add_right _ _

/-- Two runs from the beginning, on inputs with their first `k` bytes in common. -/
theorem trace_shared {source prompt : String} (prompt' : String) {k n : Nat} {a b : List UInt8}
    {es : Array Executed} {r : Ending} (ha : k ≤ a.length) (hab : a.take k = b.take k)
    (h : (load source).trace n (Streams.ofInput a prompt) = (es, r, m, s))
    (hk : reads es.toList ≤ k) :
    ∃ t, (load source).trace n (Streams.ofInput b prompt') = (es, r, m, t) ∧
      s.input.pending = a.drop (reads es.toList) ∧ t.input.pending = b.drop (reads es.toList) ∧
      t.uncued = s.uncued ∧ (prompt' = prompt → t.transcript = s.transcript) := by
  obtain ⟨es⟩ := es
  obtain ⟨hc, hn⟩ := trace_eq_iff.mp h
  have hshare : Share (a.take k) (a.drop k) (b.drop k) (.ofInput a prompt) (.ofInput b prompt') :=
    ⟨Streams.faultless_ofInput a prompt, Streams.faultless_ofInput b prompt',
      (List.take_append_drop k a).symm, hab ▸ (List.take_append_drop k b).symm⟩
  have hlength : (a.take k).length = k := List.length_take_of_le ha
  have hk' : reads es ≤ (a.take k).length := by rwa [hlength]
  obtain ⟨t, hc', h'⟩ := hc.shared hshare hk'
  have hs := (hc.carries hshare.left).transcript
  have ht := (hc'.carries hshare.right).transcript
  simp only [Streams.ofInput, List.nil_append] at hs ht
  refine ⟨t, hc'.trace_eq hn, ?_, ?_, ?_, fun hp => ?_⟩
  · rw [h'.pending, ← List.drop_append_of_le_length hk', List.take_append_drop]
  · rw [h'.pending', ← List.drop_append_of_le_length hk', hab, List.take_append_drop]
  · rw [Streams.uncued, Streams.uncued, hs, ht]
    exact Deed.filter_flatMap prompt' prompt _
  · rw [← Array.toList_inj, hs, ht, hp]

/-- **What has not been read has no say.** Take two inputs that begin with the same `k`
bytes, and any two prompts. Both runs come to their next `,` behind these at the same
step. Up to there they are the same step by step: the instructions with their effects,
how they come to rest, and the machine. The same goes through the streams in the same
order, but for the prompts, and as much is left of each input. So if a run does not meet
the end of its input, then behind a longer one nothing about it is different, and what
was added is left unread. -/
theorem trace_of_shared_input {source prompt prompt' : String} {k : Nat} {a b : List UInt8}
    (ha : k ≤ a.length) (hb : k ≤ b.length) (hab : a.take k = b.take k) :
    let left := Streams.ofInput a prompt
    let right := Streams.ofInput b prompt'
    (∀ n, reads ((load source).trace n left).1.toList ≤ k ↔
      reads ((load source).trace n right).1.toList ≤ k) ∧
    (∀ n es r m s, (load source).trace n left = (es, r, m, s) → reads es.toList ≤ k →
      ∃ t, (load source).trace n right = (es, r, m, t) ∧ t.uncued = s.uncued ∧
        s.input.pending = a.drop (reads es.toList) ∧
        t.input.pending = b.drop (reads es.toList)) ∧
    ∀ n es r m s, (load source).trace n left = (es, r, m, s) →
      (∀ e ∈ es, e.effect ≠ .read none) → ∀ more,
        ∃ t, (load source).trace n (Streams.ofInput (a ++ more) prompt) = (es, r, m, t) ∧
          t.transcript = s.transcript ∧ t.input.pending = s.input.pending ++ more := by
  intro left right
  refine ⟨fun n => ⟨fun hk => ?_, fun hk => ?_⟩, ?_, ?_⟩
  · obtain ⟨t, htr, -⟩ := trace_shared prompt' ha hab rfl hk
    rwa [htr]
  · obtain ⟨t, htr, -⟩ := trace_shared prompt hb hab.symm rfl hk
    rwa [htr]
  · intro n es r m s h hk
    obtain ⟨t, htr, hs, ht, huncued, -⟩ := trace_shared prompt' ha hab h hk
    exact ⟨t, htr, huncued, hs, ht⟩
  · intro n es r m s h hend more
    have hk : reads es.toList ≤ a.length :=
      (trace_course h).reads_le (Streams.faultless_ofInput a prompt) (by simpa using hend)
    have hab : a.take a.length = (a ++ more).take a.length := by simp
    obtain ⟨t, htr, hs, ht, -, htranscript⟩ :=
      trace_shared prompt (Nat.le_refl a.length) hab h hk
    refine ⟨t, htr, htranscript rfl, ?_⟩
    rw [ht, hs, List.drop_append_of_le_length hk]

/-- Two inputs that differ in their second byte, one with a prompt and one without: both
runs come to the second `,` with the same behind them. The first run takes all its input
and not a byte more. -/
theorem trace_of_shared_input_without_prompt :
    let a : List UInt8 := [65, 1]
    let b : List UInt8 := [65, 2]
    let m := load ",+.>,"
    (1 ≤ a.length ∧ 1 ≤ b.length ∧ a.take 1 = b.take 1) ∧
    (∃ es m' s t, m.trace 4 (Streams.ofInput a "? ") = (es, .paused, m', s) ∧
      m.trace 4 (Streams.ofInput b "") = (es, .paused, m', t) ∧ reads es.toList = 1 ∧
      t.uncued = s.uncued ∧ t.uncued = [.flushed .output, .read 65, .wrote .output [66]] ∧
      s.written .cue = [63, 32]) ∧
    ∃ es m' s t, m.trace 9 (Streams.ofInput a "? ") = (es, .halted, m', s) ∧
      m.trace 9 (Streams.ofInput (a ++ [7]) "? ") = (es, .halted, m', t) ∧
      t.transcript = s.transcript ∧ t.input.pending = [7] := by
  intro a b m
  have hab : 1 ≤ a.length ∧ 1 ≤ b.length ∧ a.take 1 = b.take 1 := by decide
  obtain ⟨-, hsame, hmore⟩ :=
    @trace_of_shared_input ",+.>," "? " "" 1 a b hab.1 hab.2.1 hab.2.2
  have hfour : let t := m.trace 4 (Streams.ofInput a "? ")
      t.2.1 = .paused ∧ reads t.1.toList = 1 ∧ t.2.2.2.written .cue = [63, 32] ∧
        t.2.2.2.uncued = [.flushed .output, .read 65, .wrote .output [66]] := by decide +kernel
  have hall : let t := m.trace 9 (Streams.ofInput a "? ")
      t.2.1 = .halted ∧ (∀ e ∈ t.1, e.effect ≠ .read none) ∧ t.2.2.2.input.pending = [] := by
    decide +kernel
  rcases htr : m.trace 4 (Streams.ofInput a "? ") with ⟨es, r, m₁, s⟩
  rcases htr' : m.trace 9 (Streams.ofInput a "? ") with ⟨es', r', m₂, s'⟩
  rw [htr] at hfour
  rw [htr'] at hall
  obtain ⟨rfl, hreads, hcue, huncued⟩ := hfour
  obtain ⟨rfl, hend, hpending⟩ := hall
  obtain ⟨t, ht, htu, -⟩ := hsame 4 es _ m₁ s htr (Nat.le_of_eq hreads)
  obtain ⟨t', ht', htranscript, hleft⟩ := hmore 9 es' _ m₂ s' htr' hend [7]
  exact ⟨hab, ⟨es, m₁, s, t, rfl, ht, hreads, htu, htu.trans huncued, hcue⟩,
    es', m₂, s', t', rfl, ht', htranscript, by rw [hleft, hpending]; rfl⟩

end Machine

end Brainfuck
