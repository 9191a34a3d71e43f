import Brainfuck.Proofs.Tabulation
import Brainfuck.Session

/-! What goes through streams that several machines share. As long as nothing is
refused, the streams carry what the deeds of a session ask for, deed by deed, and
nothing besides, however the machines take turns. So the deeds alone tell how far
the input has been read and when the output was flushed. -/

namespace Brainfuck

/-! ## What a deed has to do with the streams -/

/-- What an instruction with this effect puts through the streams. -/
def Effect.events (prompt : String) : Effect → List Event
  | wrote b => [.wrote .output [b]]
  | read byte => Streams.promptEvents prompt ++ [Streams.received byte]
  | _ => []

namespace Deed

def events (prompt : String) : Deed → List Event
  | executed e => e.effect.events prompt
  | ended => [.wrote .output [10], .flushed .output]

/-- The byte of the input that was delivered to this instruction. -/
def byte? : Deed → Option UInt8
  | executed ⟨_, _, _, _, .read byte⟩ => byte
  | _ => none

/-- The bytes of the input that these deeds took, in order. -/
def delivered (deeds : List Deed) : List UInt8 := deeds.filterMap byte?

theorem byteRead_promptEvents (prompt : String) :
    (Streams.promptEvents prompt).filterMap Event.byteRead? = [] := by
  unfold Streams.promptEvents
  split <;> rfl

theorem byteRead_events (prompt : String) (d : Deed) :
    (d.events prompt).filterMap Event.byteRead? = d.byte?.toList := by
  rcases d with ⟨_, _, _, _, eff⟩ | _
  · cases eff with
    | read byte =>
      rw [events, Effect.events, List.filterMap_append, byteRead_promptEvents]
      cases byte <;> rfl
    | _ => rfl
  · rfl

theorem byteRead_flatMap (prompt : String) (deeds : List Deed) :
    (deeds.flatMap (events prompt)).filterMap Event.byteRead? = delivered deeds := by
  induction deeds with
  | nil => rfl
  | cons d deeds ih =>
    rw [List.flatMap_cons, List.filterMap_append, byteRead_events, ih, delivered, delivered,
      List.filterMap_cons]
    cases d.byte? <;> rfl

end Deed

/-! ## Output lands before anyone is asked for input -/

/-- Whether something is asked for or taken from outside. -/
def Event.asks : Event → Bool
  | wrote .cue _ | read _ | inputEnded => true
  | _ => false

/-- Nothing is asked for or taken before all that was written has been flushed. -/
def Landed (events : List Event) : Prop :=
  ∀ past e rest, events = past ++ e :: rest → e.asks = true →
    ∃ earlier since, past = earlier ++ .flushed .output :: since ∧
      ∀ bytes, .wrote .output bytes ∉ since

theorem Landed.append {events events' : List Event} (h : Landed events) (h' : Landed events') :
    Landed (events ++ events') := by
  intro past e rest heq he
  rcases List.append_eq_append_iff.mp heq with ⟨more, rfl, hmore⟩ | ⟨more, rfl, hmore⟩
  · obtain ⟨earlier, since, rfl, hs⟩ := h' more e rest hmore he
    exact ⟨events ++ earlier, since, by rw [List.append_assoc], hs⟩
  · cases more with
    | nil =>
      obtain ⟨earlier, since, hnil, -⟩ := h' [] e rest hmore.symm he
      simp at hnil
    | cons e' more =>
      obtain ⟨rfl, -⟩ := List.cons.inj hmore
      exact h past e more rfl he

theorem landed_of_no_asks {events : List Event} (h : events.any Event.asks = false) :
    Landed events := by
  rintro past e rest rfl he
  rw [List.any_append, List.any_cons, he, Bool.true_or, Bool.or_true] at h
  cases h

theorem landed_of_flushed {events : List Event} (h : ∀ bytes, .wrote .output bytes ∉ events) :
    Landed (.flushed .output :: events) := by
  intro past e rest heq he
  cases past with
  | nil =>
    cases heq
    cases he
  | cons e' past =>
    obtain ⟨rfl, rfl⟩ := List.cons.inj heq
    exact ⟨[], past, rfl, fun bytes hb => h bytes (List.mem_append_left _ hb)⟩

theorem Deed.landed (prompt : String) (d : Deed) : Landed (d.events prompt) := by
  rcases d with ⟨_, _, _, _, eff⟩ | _
  · cases eff with
    | read byte =>
      refine landed_of_flushed fun bytes => ?_
      cases byte <;> split <;> simp [Streams.received]
    | _ => exact landed_of_no_asks rfl
  · exact landed_of_no_asks rfl

theorem Deed.landed_flatMap (prompt : String) (deeds : List Deed) :
    Landed (deeds.flatMap (events prompt)) := by
  induction deeds with
  | nil => exact landed_of_no_asks rfl
  | cons d deeds ih => exact (d.landed prompt).append ih

/-! ## Calls -/

namespace Machine

variable {m m' : Machine} {io io' : Streams} {o : Outcome}

theorem Acts.carries {c : Command} {e : Effect} (ha : m.Acts io c e m' io') (h : io.Faultless) :
    io.Carries (e.events io.prompt) io' := by
  cases ha with
  | output hw =>
    obtain ⟨t, ht, hc⟩ := h.send .output (List.cons_ne_nil m.current [])
    cases ht.symm.trans hw
    exact hc
  | input hp hr =>
    obtain ⟨byte, hbyte, hc⟩ := h.ask hp hr
    cases hbyte
    exact hc
  | _ => exact .refl h

/-- Where nothing is refused, an error is the program's own: the terminal has no part in
it, and any other would see it as well. -/
theorem Fails.own {f : Failure} (hf : m.Fails io f io') (h : io.Faultless) :
    io' = io ∧ ∀ {τ : Type} [Terminal τ] (u : τ), m.Fails u f u := by
  cases hf with
  | invalid hc hn => exact ⟨rfl, fun _ => .invalid hc hn⟩
  | unclosed hc h0 hj => exact ⟨rfl, fun _ => .unclosed hc h0 hj⟩
  | unopened hc h0 hl => exact ⟨rfl, fun _ => .unopened hc h0 hl⟩
  | output _ hw =>
    obtain ⟨t, ht, -⟩ := h.send .output (List.cons_ne_nil m.current [])
    cases ht.symm.trans hw
  | prompt _ hp =>
    obtain ⟨t, ht, -⟩ := h.showPrompt
    cases ht.symm.trans hp
  | input _ hp hr =>
    obtain ⟨byte, hbyte, -⟩ := h.ask hp hr
    cases hbyte

theorem endLine_carries (h : io.Faultless) :
    ∃ t, endLine io = (.ok (), t) ∧ io.Carries (Deed.ended.events io.prompt) t := by
  obtain ⟨s, hs, hc⟩ := h.send .output (List.cons_ne_nil 10 [])
  obtain ⟨t, ht, hc'⟩ := hc.faultless.flushSink .output
  refine ⟨t, ?_, hc.trans hc'⟩
  have hw : Terminal.writeByte 10 io = (.ok (), s) := hs
  rw [endLine, hw]
  exact ht

theorem passed_self (m : Machine) : m.passed m = [] := by
  refine if_neg fun h => ?_
  rw [h.1] at h
  cases h.2.1

theorem passed_of_running {m₁ : Machine} (h : m.status = .running) (h₁ : m₁.status = .running)
    (m' : Machine) : m.passed m' = m₁.passed m' := by
  simp only [passed, h, h₁]

theorem Transition.carries_halted (ht : Transition m io .halted m' io') (h : io.Faultless) :
    io.Carries ((m.passed m').flatMap (Deed.events io.prompt)) io' := by
  cases ht with
  | idle =>
    rw [passed_self]
    exact .refl h
  | ended hs hp he =>
    obtain ⟨t, ht, hc⟩ := endLine_carries h
    cases ht.symm.trans he
    have hend : (m.stopped .terminated).atEnd = true :=
      decide_eq_true (Array.getElem?_eq_none_iff.mp hp)
    rw [passed, if_pos ⟨hs, rfl, hend⟩]
    exact hc

theorem Transition.carries_failed {f : Failure} (ht : Transition m io (.failed f) m' io')
    (h : io.Faultless) : io.Carries ((m.passed m').flatMap (Deed.events io.prompt)) io' := by
  cases ht with
  | failed hs hf =>
    rw [(hf.own h).1]
    simpa [passed, stopped] using Streams.Carries.refl h
  | endRefused _ _ he =>
    obtain ⟨t, ht, -⟩ := endLine_carries h
    cases ht.symm.trans he

/-- A course puts through the streams what its instructions ask for, and the line
feed if it comes to the end of the program. -/
theorem Course.carries {es : List Executed} {r : Ending} (hc : m.Course io es r m' io')
    (h : io.Faultless) :
    io.Carries ((es.map Deed.executed ++ m.passed m').flatMap (Deed.events io.prompt)) io' := by
  induction hc with
  | paused m =>
    rw [passed_self]
    exact .refl h
  | @executed m m₁ m' io io₁ io' e es r ht _ ih =>
    have h₁ := ht.running_of_executed
    cases ht with
    | executed hs _ ha =>
      have hfirst := ha.carries h
      have hrest := ih hfirst.faultless
      rw [hfirst.prompt, ← passed_of_running hs h₁] at hrest
      exact hfirst.trans hrest
  | halted ht => exact ht.carries_halted h
  | failed ht => exact ht.carries_failed h

theorem perform_carries (c : Call) (m : Machine) (h : io.Faultless) :
    io.Carries ((m.perform c io).1.flatMap (Deed.events io.prompt)) (m.perform c io).2.2 := by
  have hrun (n : Nat) := (course_trace n m io).carries h
  cases c with
  | step =>
    rw [perform_step]
    exact hrun 1
  | run bound => exact hrun bound
  | table => exact .refl h

/-! ## Ends of programs -/

/-- How many ends of the program the machine can still come to. -/
def endsLeft (m : Machine) : Nat := if m.status = .running then 1 else 0

theorem endsLeft_le_one (m : Machine) : m.endsLeft ≤ 1 := by
  unfold endsLeft
  split <;> omega

theorem count_ended_passed (hm : m.status ≠ .running → m' = m) :
    (m.passed m').count .ended + m'.endsLeft ≤ m.endsLeft := by
  by_cases hs : m.status = .running
  · cases hs' : m'.status <;> cases hend : m'.atEnd <;> simp [passed, endsLeft, hs, hs', hend]
  · rw [hm hs, passed_self]
    simp

theorem perform_count_ended (c : Call) (m : Machine) (io : Streams) :
    (m.perform c io).1.count .ended + (m.perform c io).2.1.endsLeft ≤ m.endsLeft := by
  have hrun (n : Nat) :
      (m.perform (.run n) io).1.count .ended + (m.perform (.run n) io).2.1.endsLeft ≤ m.endsLeft := by
    have hc := count_ended_passed (course_trace n m io).eq_of_not_running
    have h0 (es : List Executed) : (es.map Deed.executed).count .ended = 0 :=
      List.count_eq_zero.mpr (by simp)
    rwa [perform_run, List.count_append, h0, Nat.zero_add]
  cases c with
  | step =>
    rw [perform_step]
    exact hrun 1
  | run bound => exact hrun bound
  | table bound room =>
    by_cases hs : m.status = .running
    · have h1 : m.endsLeft = 1 := if_pos hs
      rw [h1]
      simpa [perform, Call.onTerminal] using endsLeft_le_one _
    · have hm := (Table.print_course bound m (.ofRoom room)).eq_of_not_running hs
      simp [perform, call, Call.onTerminal, hm]

end Machine

/-! ## Sessions -/

namespace Session

variable {s : Session Streams}

theorem take_carries (t : Turn) (h : s.io.Faultless) :
    s.io.Carries (((s.take t).1.map (·.2)).flatMap (Deed.events s.io.prompt)) (s.take t).2.io := by
  cases t with
  | call who c =>
    rw [take]
    cases s.machines[who]? with
    | none => exact .refl h
    | some m =>
      have hc := m.perform_carries c h
      simpa [List.map_map, Function.comp_def] using hc
  | clone who =>
    rw [take]
    cases s.machines[who]? with
    | none => exact .refl h
    | some m => exact .refl h

theorem play_carries (turns : List Turn) (h : s.io.Faultless) :
    s.io.Carries (((s.play turns).1.map (·.2)).flatMap (Deed.events s.io.prompt))
      (s.play turns).2.io := by
  induction turns generalizing s with
  | nil => exact .refl h
  | cons t turns ih =>
    have hfirst := take_carries t h
    have hrest := ih hfirst.faultless
    rw [hfirst.prompt] at hrest
    rw [play, List.map_append, List.flatMap_append]
    exact hfirst.trans hrest

/-- How many ends of its program the machine number `who` can still come to. A copy
that has not been made yet may come to one. -/
def endsLeft (s : Session Streams) (who : Nat) : Nat :=
  s.machines[who]?.elim 1 Machine.endsLeft

theorem endsLeft_le_one (s : Session Streams) (who : Nat) : s.endsLeft who ≤ 1 := by
  rw [endsLeft]
  cases s.machines[who]? with
  | none => exact Nat.le_refl 1
  | some m => exact m.endsLeft_le_one

private theorem count_tagged (i who : Nat) (deeds : List Deed) :
    (deeds.map (i, ·)).count (who, .ended) = if i = who then deeds.count .ended else 0 := by
  induction deeds with
  | nil => simp
  | cons d deeds ih =>
    rw [List.map_cons, List.count_cons, List.count_cons, ih]
    by_cases h : i = who <;> simp [h]

theorem take_count_ended (t : Turn) (s : Session Streams) (who : Nat) :
    (s.take t).1.count (who, .ended) + (s.take t).2.endsLeft who ≤ s.endsLeft who := by
  cases t with
  | call i c =>
    rw [take]
    cases hi : s.machines[i]? with
    | none => simp
    | some m =>
      have hlt := (Array.getElem?_eq_some_iff.mp hi).1
      simp only [count_tagged, endsLeft, Array.getElem?_setIfInBounds]
      by_cases h : i = who
      · subst h
        simp only [if_pos hlt, hi, Option.elim_some]
        exact m.perform_count_ended c s.io
      · simp [h]
  | clone i =>
    rw [take]
    cases hi : s.machines[i]? with
    | none => simp
    | some m =>
      simp only [List.count_nil, Nat.zero_add, endsLeft, Array.getElem?_push]
      by_cases h : who = s.machines.size
      · simpa [h] using m.endsLeft_le_one
      · simp [h]

theorem play_count_ended (turns : List Turn) (s : Session Streams) (who : Nat) :
    (s.play turns).1.count (who, .ended) + (s.play turns).2.endsLeft who ≤ s.endsLeft who := by
  induction turns generalizing s with
  | nil => simp [play]
  | cons t turns ih =>
    have hfirst := s.take_count_ended t who
    have hrest := ih (s.take t).2
    simp only [play, List.count_append]
    omega

/-- **The deeds of a session account for all that goes through the streams.** However
the machines take turns: the events are those of the deeds, in their order. The bytes
that were read are the beginning of the input and went to the deeds one by one, and
a machine that is told that the input has ended comes after all of it. All output is
flushed before a prompt or a read. No machine ends its program twice. -/
theorem play_accounts (turns : List Turn) (h : s.io.Faultless) :
    let deeds := (s.play turns).1.map (·.2)
    let events := deeds.flatMap (Deed.events s.io.prompt)
    let io := (s.play turns).2.io
    io.transcript.toList = s.io.transcript.toList ++ events ∧
    Deed.delivered deeds ++ io.input.pending = s.io.input.pending ∧
    (∀ past e rest, deeds = past ++ .executed e :: rest → e.effect = .read none →
      Deed.delivered past = s.io.input.pending) ∧
    Landed events ∧
    ∀ who, (s.play turns).1.count (who, .ended) ≤ 1 := by
  have hc := play_carries turns h
  refine ⟨hc.transcript, ?_, ?_, Deed.landed_flatMap _ _, ?_⟩
  · rw [← Deed.byteRead_flatMap s.io.prompt]
    exact hc.pending
  · intro past e rest hdeeds he
    -- what this deed asks for ends with the report that the input has ended
    have hend := hc.ended (past.flatMap (Deed.events s.io.prompt) ++
      Streams.promptEvents s.io.prompt) (rest.flatMap (Deed.events s.io.prompt)) (by
        rw [hdeeds, List.flatMap_append, List.flatMap_cons, Deed.events, he, Effect.events]
        simp [Streams.received])
    rw [← hend, List.filterMap_append, Deed.byteRead_flatMap, Deed.byteRead_promptEvents,
      List.append_nil]
  · intro who
    have hcount := s.play_count_ended turns who
    have hone := s.endsLeft_le_one who
    omega

/-- Two copies of one program read a byte each, and there is only one: the second is
told that the input has ended. Both close with a line feed, once. -/
theorem play_accounts_two_copies :
    ∃ (s : Session Streams) (turns : List Turn), (s = ⟨#[.load ",."], .ofInput [65] "?"⟩ ∧
        turns = [.clone 0, .call 0 .step, .call 1 (.run 5), .call 0 (.run 5), .call 1 .step]) ∧
      s.io.Faultless ∧
      (s.play turns).2.io.transcript.toList =
        [.flushed .output, .wrote .cue [63], .flushed .cue, .read 65,
         .flushed .output, .wrote .cue [63], .flushed .cue, .inputEnded,
         .wrote .output [0], .wrote .output [10], .flushed .output,
         .wrote .output [65], .wrote .output [10], .flushed .output] ∧
      ∀ who, (s.play turns).1.count (who, .ended) ≤ 1 := by
  have h := Streams.faultless_ofInput [65] "?"
  obtain ⟨hevents, -, -, -, hended⟩ := play_accounts (s := ⟨#[.load ",."], .ofInput [65] "?"⟩)
    [.clone 0, .call 0 .step, .call 1 (.run 5), .call 0 (.run 5), .call 1 .step] h
  exact ⟨_, _, ⟨rfl, rfl⟩, h, hevents.trans (by decide +kernel), hended⟩

end Session

end Brainfuck
