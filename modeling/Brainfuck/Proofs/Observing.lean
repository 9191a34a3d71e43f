import Brainfuck.Observer
import Brainfuck.Proofs.Results

/-! What an observer changes. What is heard goes to stderr, and nothing comes back from
there. So a run that is observed executes the same instructions, ends in the same way and
has the same output as one that is not; and two runs observed alike write the same to stderr
behind whatever they had written before. -/

namespace Brainfuck

variable {c : Channel} {past past' : List UInt8} {s t s' t' : Streams}

/-! ## Streams side by side -/

namespace Streams

/-- Streams that give a machine the same answers, and whose sinks `c` have taken the same
behind `past` and `past'`. -/
structure Beside (c : Channel) (past past' : List UInt8) (s t : Streams) : Prop where
  left : s.Faultless
  right : t.Faultless
  prompt : t.prompt = s.prompt
  pending : t.input.pending = s.input.pending
  written : ∃ bytes, s.written c = past ++ bytes ∧ t.written c = past' ++ bytes

/-- The same reads leave the same to be read. -/
theorem Carries.pending_eq {events events' : List Event} (hs : s.Carries events s')
    (ht : t.Carries events' t') (h : t.input.pending = s.input.pending)
    (hread : events'.filterMap Event.byteRead? = events.filterMap Event.byteRead?) :
    t'.input.pending = s'.input.pending := by
  have hp := ht.pending
  rw [hread, h, ← hs.pending] at hp
  exact List.append_cancel_left hp

/-- What goes through both may differ in what it puts into the other sink. -/
theorem Beside.carries {events events' : List Event} (h : Beside c past past' s t)
    (hs : s.Carries events s') (ht : t.Carries events' t')
    (hread : events'.filterMap Event.byteRead? = events.filterMap Event.byteRead?)
    (hbytes : events'.flatMap (Event.bytesTo c) = events.flatMap (Event.bytesTo c)) :
    Beside c past past' s' t' where
  left := hs.faultless
  right := ht.faultless
  prompt := by rw [ht.prompt, hs.prompt, h.prompt]
  pending := hs.pending_eq ht h.pending hread
  written := by
    obtain ⟨bytes, hw, hw'⟩ := h.written
    refine ⟨bytes ++ events.flatMap (Event.bytesTo c), ?_, ?_⟩
    · rw [hs.written, hw, List.append_assoc]
    · rw [ht.written, hw', hbytes, List.append_assoc]

theorem Beside.carries_same {events : List Event} (h : Beside c past past' s t)
    (hs : s.Carries events s') (ht : t.Carries events t') : Beside c past past' s' t' :=
  h.carries hs ht rfl rfl

/-- Whatever has been written to two sides, they are beside each other if they have read
the same. -/
theorem Carries.beside {io : Streams} {events events' : List Event} (hs : io.Carries events s)
    (ht : io.Carries events' t)
    (hread : events'.filterMap Event.byteRead? = events.filterMap Event.byteRead?) (c : Channel) :
    Beside c (s.written c) (t.written c) s t where
  left := hs.faultless
  right := ht.faultless
  prompt := by rw [ht.prompt, hs.prompt]
  pending := hs.pending_eq ht rfl hread
  written := ⟨[], by rw [List.append_nil], by rw [List.append_nil]⟩

end Streams

open Streams (Beside)

theorem Dialogue.play_beside {α : Type} (d : Dialogue α) (h : Beside c past past' s t) :
    ∃ a s' t', d.play s = (a, s') ∧ d.play t = (a, t') ∧ Beside c past past' s' t' := by
  induction d generalizing s t with
  | done a => exact ⟨a, s, t, rfl, rfl, h⟩
  | write b next ih =>
    obtain ⟨s₁, hs, hcs⟩ := h.left.send .output (List.cons_ne_nil b [])
    obtain ⟨t₁, ht, hct⟩ := h.right.send .output (List.cons_ne_nil b [])
    have hws : Terminal.writeByte b s = (.ok (), s₁) := hs
    have hwt : Terminal.writeByte b t = (.ok (), t₁) := ht
    rw [play, play, hws, hwt]
    exact ih _ (h.carries_same hcs hct)
  | read next ih =>
    obtain ⟨s₁, hs, hcs⟩ := h.left.receive
    obtain ⟨t₁, ht, hct⟩ := h.right.receive
    rw [h.pending] at ht hct
    have hrs : Terminal.readByte s = (.ok s.input.pending.head?, s₁) := hs
    have hrt : Terminal.readByte t = (.ok s.input.pending.head?, t₁) := ht
    rw [play, play, hrs, hrt]
    exact ih _ (h.carries_same hcs hct)
  | prompt next ih =>
    obtain ⟨s₁, hs, hcs⟩ := h.left.showPrompt
    obtain ⟨t₁, ht, hct⟩ := h.right.showPrompt
    rw [h.prompt] at hct
    have hps : Terminal.prompt s = (.ok (), s₁) := hs
    have hpt : Terminal.prompt t = (.ok (), t₁) := ht
    rw [play, play, hps, hpt]
    exact ih _ (h.carries_same hcs hct)
  | flush next ih =>
    obtain ⟨s₁, hs, hcs⟩ := h.left.flushSink .output
    obtain ⟨t₁, ht, hct⟩ := h.right.flushSink .output
    have hfs : Terminal.flush s = (.ok (), s₁) := hs
    have hft : Terminal.flush t = (.ok (), t₁) := ht
    rw [play, play, hfs, hft]
    exact ih _ (h.carries_same hcs hct)

theorem Machine.step_beside (m : Machine) (h : Beside c past past' s t) :
    ∃ o m' s' t', m.step s = (o, m', s') ∧ m.step t = (o, m', t') ∧ Beside c past past' s' t' := by
  obtain ⟨⟨o, m'⟩, s', t', hs, ht, h'⟩ := m.turn.play_beside h
  refine ⟨o, m', s', t', ?_, ?_, h'⟩
  · simp only [step, hs]
  · simp only [step, ht]

/-! ## Entries -/

namespace Journal

variable {j j' : Journal}

/-- The journal after an entry, whatever it was entered on. -/
def next (j : Journal) (e : Log.Entry) : Journal :=
  if j.hears e.site then { j with shown := j.shown + 1 } else j

/-- What an entry puts into stderr. -/
def bytes (j : Journal) (e : Log.Entry) : List UInt8 :=
  if j.hears e.site then utf8 (j.line j.shown e ++ "\n") else []

/-- An entry as the streams see it. -/
def events (j : Journal) (e : Log.Entry) : List Event :=
  if j.hears e.site then [.wrote .cue (j.bytes e)] else []

theorem reads_events (j : Journal) (e : Log.Entry) :
    (j.events e).filterMap Event.byteRead? = [] := by
  unfold events
  cases j.hears e.site <;> rfl

theorem bytesTo_events (j : Journal) (e : Log.Entry) (c : Channel) :
    (j.events e).flatMap (Event.bytesTo c) = if c = .cue then j.bytes e else [] := by
  unfold events bytes
  cases c <;> cases j.hears e.site <;> simp [Event.bytesTo]

theorem enter_fst (j : Journal) (e : Log.Entry) (io : Streams) : (j.enter e io).1 = j.next e := by
  unfold enter next
  cases j.hears e.site <;> rfl

theorem enter_carries (j : Journal) (e : Log.Entry) (h : s.Faultless) :
    s.Carries (j.events e) (j.enter e s).2 := by
  cases hears : j.hears e.site with
  | false =>
    rw [events, enter, hears]
    exact .refl h
  | true =>
    have hne : utf8 (j.line j.shown e ++ "\n") ≠ [] := utf8_ne_nil (by simp)
    obtain ⟨t, ht, hc⟩ := h.send .cue hne
    rw [events, enter, bytes, hears, if_pos rfl, if_pos rfl, if_pos rfl, ht]
    exact hc

/-- Streams that nothing but an entry each has gone through. -/
theorem beside_of_enter (j j' : Journal) (e e' : Log.Entry) (input : List UInt8)
    (prompt : String) :
    let io := Streams.ofInput input prompt
    Beside .output [] [] (j.enter e io).2 (j'.enter e' io).2 ∧
      Beside .cue (j.bytes e) (j'.bytes e') (j.enter e io).2 (j'.enter e' io).2 := by
  intro io
  have hio : io.Faultless := Streams.faultless_ofInput input prompt
  have hwritten (j : Journal) (e : Log.Entry) (c : Channel) :
      (j.enter e io).2.written c = if c = .cue then j.bytes e else [] := by
    rw [(j.enter_carries e hio).written, bytesTo_events]
    rfl
  have hreads := (j'.reads_events e').trans (j.reads_events e).symm
  have hb := (j.enter_carries e hio).beside (j'.enter_carries e' hio) hreads
  constructor
  · simpa [hwritten] using hb .output
  · simpa [hwritten] using hb .cue

/-- Two journals that are the same as far as the sink `c` can tell. -/
def Agree (c : Channel) (j j' : Journal) : Prop := c = .output ∨ j' = j

theorem Agree.next (h : Agree c j j') (e : Log.Entry) : Agree c (j.next e) (j'.next e) :=
  h.imp_right fun hj => by rw [hj]

theorem enter_beside (hj : Agree c j j') (e : Log.Entry) (h : Beside c past past' s t) :
    Beside c past past' (j.enter e s).2 (j'.enter e t).2 := by
  refine h.carries (j.enter_carries e h.left) (j'.enter_carries e h.right) ?_ ?_
  · rw [reads_events, reads_events]
  · obtain rfl | rfl := hj
    · rw [bytesTo_events, bytesTo_events]
      rfl
    · rfl

theorem enterAll_beside (hj : Agree c j j') (es : List Log.Entry) (h : Beside c past past' s t) :
    Agree c (j.enterAll es s).1 (j'.enterAll es t).1 ∧
      Beside c past past' (j.enterAll es s).2 (j'.enterAll es t).2 := by
  induction es generalizing j j' s t with
  | nil => exact ⟨hj, h⟩
  | cons e es ih =>
    refine ih ?_ (enter_beside hj e h)
    rw [enter_fst, enter_fst]
    exact hj.next e

/-- Observed runs side by side. -/
theorem run_beside (hj : Agree c j j') (n : Nat) (m : Machine) (h : Beside c past past' s t) :
    ∃ r m' s' t', j.run n m s = (r, m', s') ∧ j'.run n m t = (r, m', t') ∧
      Beside c past past' s' t' := by
  induction n generalizing j j' m s t with
  | zero => exact ⟨.paused, m, s, t, rfl, rfl, h⟩
  | succ n ih =>
    obtain ⟨o, m₁, s₁, t₁, hs, ht, h₁⟩ := m.step_beside h
    rw [run, run, hs, ht]
    cases o with
    | executed e =>
      obtain ⟨hj', h'⟩ := enterAll_beside hj (Log.ofExecuted e) h₁
      exact ih hj' m₁ h'
    | halted =>
      exact ⟨.halted, m₁, _, _, rfl, rfl, (enterAll_beside hj (Log.ofEnd m m₁) h₁).2⟩
    | failed f =>
      exact ⟨.failed f, m₁, _, _, rfl, rfl, (enterAll_beside hj (Log.ofEnd m m₁) h₁).2⟩

/-! ## Journals that hear nothing -/

variable (hj : ∀ site, j.hears site = false)

include hj

theorem enter_of_deaf (e : Log.Entry) (io : Streams) : j.enter e io = (j, io) :=
  if_neg (by rw [hj]; exact Bool.false_ne_true)

theorem enterAll_of_deaf (es : List Log.Entry) (io : Streams) : j.enterAll es io = (j, io) := by
  induction es with
  | nil => rfl
  | cons e es ih => rw [enterAll, enter_of_deaf hj, ih]

theorem run_of_deaf (n : Nat) (m : Machine) (io : Streams) : j.run n m io = m.run n io := by
  induction n generalizing m io with
  | zero => rfl
  | succ n ih =>
    rw [run, Machine.run]
    rcases m.step io with ⟨e | _ | f, m', io'⟩
    · simp only [enterAll_of_deaf hj, ih]
    · simp only [enterAll_of_deaf hj]
    · simp only [enterAll_of_deaf hj]

end Journal

/-! ## Invocations -/

/-- All that is not written to stderr. -/
def Result.besideStderr (r : Result) : Nat × List UInt8 := (r.code, r.stdout)

/-- The result with some bytes in front of stderr. -/
def Result.behind (bytes : List UInt8) (r : Result) : Result :=
  { r with stderr := bytes ++ r.stderr }

/-- All that is reported is below a warning. -/
theorem Observer.hears_of_unset (o : Observer) {env : String → Option String}
    (h : env "RUST_LOG" = none) (site : Log.Site) : o.hears env site = false := by
  rw [hears, h]
  cases site <;> rfl

namespace Invocation

open Journal (Agree)

variable {i i' : Invocation} {j j' : Journal} {sets sets' : Settings} {fuel : Nat} {text : String}

theorem conclude_behind (hname : i'.name = i.name) (m : Machine) (out err : List UInt8)
    (r : Ending) :
    i'.conclude m out (past ++ err) r = (i.conclude m out err r).map (.behind past) := by
  cases r <;> simp [conclude, Result.behind, hname]

theorem conclude_besideStderr (m : Machine) (out err err' : List UInt8) (r : Ending) :
    (i.conclude m out err r).map (·.besideStderr) =
      (i.conclude m out err' r).map (·.besideStderr) := by
  cases r <;> rfl

theorem executeWith_debug {done : Array Executed} {r : Ending} {m : Machine} {page : Table.Page}
    (hd : sets.debug = true)
    (hprint : Table.print fuel (.load text) (.ofRoom none) = (done, r, m, page)) :
    i.executeWith fuel sets text j s = i.conclude m page.taken.toList
      ((j.enterAll (Log.entries (.load text) done m) s).2.written .cue) r := by
  simp only [executeWith, if_pos hd, hprint]

theorem executeWith_plain {r : Ending} {m : Machine} {io : Streams} (hd : sets.debug = false)
    (hrun : (j.enter (.started (Machine.load text).program.size) s).1.run fuel (.load text)
      (j.enter (.started (Machine.load text).program.size) s).2 = (r, m, io)) :
    i.executeWith fuel sets text j s = i.conclude m (io.written .output) (io.written .cue) r := by
  simp only [executeWith, hd, Bool.false_eq_true, if_false, hrun]

/-- Runs that are observed alike, on streams that have taken something different each. -/
theorem executeWith_behind (hname : i'.name = i.name) (hdebug : sets'.debug = sets.debug)
    (hout : Beside .output [] [] s t) (hcue : Beside .cue past past' s t) (fuel : Nat)
    (text : String) :
    ∃ rest : Option Result, i.executeWith fuel sets text j s = rest.map (.behind past) ∧
      i'.executeWith fuel sets' text j t = rest.map (.behind past') := by
  have hj (c : Channel) : Agree c j j := .inr rfl
  cases hd : sets.debug with
  | true =>
    rcases hprint : Table.print fuel (.load text) (.ofRoom none) with ⟨done, r, m, page⟩
    obtain ⟨-, h⟩ := Journal.enterAll_beside (hj .cue) (Log.entries (.load text) done m) hcue
    obtain ⟨bytes, hs, ht⟩ := h.written
    refine ⟨i.conclude m page.taken.toList bytes r, ?_, ?_⟩
    · rw [executeWith_debug hd hprint, hs, conclude_behind rfl]
    · rw [executeWith_debug (hdebug.trans hd) hprint, ht, conclude_behind hname]
  | false =>
    let started := Log.Entry.started (Machine.load text).program.size
    have hsame (c : Channel) : Agree c (j.enter started s).1 (j.enter started t).1 := by
      rw [Journal.enter_fst, Journal.enter_fst]
      exact .inr rfl
    obtain ⟨r, m, s', t', hs, ht, hout'⟩ :=
      Journal.run_beside (hsame _) fuel (.load text) (Journal.enter_beside (hj _) started hout)
    obtain ⟨_, _, _, _, hs₂, ht₂, hcue'⟩ :=
      Journal.run_beside (hsame _) fuel (.load text) (Journal.enter_beside (hj _) started hcue)
    cases hs₂.symm.trans hs
    cases ht₂.symm.trans ht
    obtain ⟨out, hos, hot⟩ := hout'.written
    obtain ⟨err, hes, het⟩ := hcue'.written
    refine ⟨i.conclude m out err r, ?_, ?_⟩
    · rw [executeWith_plain hd hs, hos, hes, List.nil_append, conclude_behind rfl]
    · rw [executeWith_plain (hdebug.trans hd) ht, hot, het, List.nil_append,
        conclude_behind hname]

/-- Runs that may be observed differently. -/
theorem executeWith_besideStderr (hout : Beside .output [] [] s t) :
    (i.executeWith fuel sets text j s).map (·.besideStderr) =
      (i.executeWith fuel sets text j' t).map (·.besideStderr) := by
  have hj {j j' : Journal} : Agree .output j j' := .inl rfl
  cases hd : sets.debug with
  | true =>
    rcases hprint : Table.print fuel (.load text) (.ofRoom none) with ⟨done, r, m, page⟩
    rw [executeWith_debug hd hprint, executeWith_debug hd hprint]
    exact conclude_besideStderr _ _ _ _ _
  | false =>
    let started := Log.Entry.started (Machine.load text).program.size
    obtain ⟨r, m, s', t', hs, ht, hout'⟩ :=
      Journal.run_beside hj fuel (.load text)
        (Journal.enter_beside (hj : Agree .output j j') started hout)
    obtain ⟨out, hos, hot⟩ := hout'.written
    rw [executeWith_plain hd hs, executeWith_plain hd ht, hos, hot]
    exact conclude_besideStderr _ _ _ _ _

theorem executeWith_of_deaf (hj : ∀ site, j.hears site = false) (fuel : Nat) (sets : Settings)
    (text : String) :
    i.executeWith fuel sets text j (.ofInput (i.input sets.source) sets.prompt) =
      i.execute fuel sets text := by
  unfold executeWith execute
  simp only [Journal.enterAll_of_deaf hj, Journal.enter_of_deaf hj, Journal.run_of_deaf hj]
  rfl

/-- **What an observer hears goes to stderr.** Whatever is heard, there is a result as soon
as there is one without an observer, with the same code and the same stdout; and if nothing
is heard, it is that result. -/
theorem observed_besideStderr (o : Observer) (i : Invocation) (fuel : Nat) :
    (i.observed o fuel).map (·.besideStderr) = (i.result fuel).map (·.besideStderr) ∧
    ((∀ site, o.hears i.env site = false) → i.observed o fuel = i.result fuel) := by
  unfold observed result
  cases hp : CommandLine.parse i.args with
  | help | version | refused => simp only [respond, hp, implies_true, and_self]
  | run a =>
    cases hl : (Settings.resolve a.source a.overrides i.env).source.load i.read i.stdin with
    | error e =>
      rw [respond_of_load_refused hp hl, respond_of_load_refused hp hl]
      exact ⟨rfl, fun _ => rfl⟩
    | ok text =>
      rw [respond_of_loaded hp hl, respond_of_loaded hp hl]
      generalize Settings.resolve a.source a.overrides i.env = sets
      constructor
      · let deaf : Journal := ⟨fun _ => false, o.line, 0⟩
        have hdeaf (site : Log.Site) : deaf.hears site = false := rfl
        have hout := (Journal.beside_of_enter (o.journal i.env) deaf
          (.loaded sets.source sets.debug) (.loaded sets.source sets.debug)
          (i.input sets.source) sets.prompt).1
        rw [Journal.enter_of_deaf hdeaf] at hout
        rw [← executeWith_of_deaf hdeaf]
        exact executeWith_besideStderr hout
      · intro h
        have hj : ∀ site, (o.journal i.env).hears site = false := h
        simp only [Journal.enter_of_deaf hj]
        exact executeWith_of_deaf hj fuel sets text

end Invocation

end Brainfuck
