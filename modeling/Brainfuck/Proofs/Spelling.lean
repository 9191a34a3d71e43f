import Brainfuck.Proofs.Observing

/-! Code on the command line. A part of code may be written in several ways, and may look
like an option, or like the end of the options; but the option in front of it takes it as
it stands. So a command line of complete parts, flags and files means what it says, read
from left to right, and how its code was written and cut shows at most in what is reported
of the program that was loaded. -/

namespace Brainfuck

namespace CommandLine

/-! ## Spellings -/

/-- The short option for code, alone or behind the debug flag on one hyphen. -/
def codeOption (debug : Bool) : String := if debug then "-de" else "-e"

def codeItems (debug : Bool) (part : String) : List Item :=
  if debug then [.debug, .code part] else [.code part]

/-- `Spells args items`: complete arguments, and what they ask for. -/
inductive Spells : List String → List Item → Prop where
  | debug : Spells ["-d"] [.debug]
  | longDebug : Spells ["--debug"] [.debug]
  | prompt (text : String) : Spells ["--prompt=" ++ text] [.prompt text]
  | apart (debug : Bool) (part : String) : Spells [codeOption debug, part] (codeItems debug part)
  | attached (debug : Bool) {part : String} (hne : part ≠ "") (heq : part.toList.head? ≠ some '=') :
      Spells [codeOption debug ++ part] (codeItems debug part)
  | joined (debug : Bool) (part : String) :
      Spells [codeOption debug ++ "=" ++ part] (codeItems debug part)
  | longApart (part : String) : Spells ["--execute", part] [.code part]
  | longJoined (part : String) : Spells ["--execute=" ++ part] [.code part]
  | file {name : String} (hne : name ≠ "") (ho : looksLikeOption name = false) :
      Spells [name] [.file name]

/-- A command line made of complete arguments. -/
inductive Line : List String → List Item → Prop where
  | nil : Line [] []
  | cons {here rest : List String} {first more : List Item} (h : Spells here first)
      (t : Line rest more) : Line (here ++ rest) (first ++ more)

theorem meaning_of_cluster {arg : String} {ch : Char} {body : List Char}
    (h : arg.toList = '-' :: ch :: body) (hch : ch ≠ '-') :
    meaning arg = .items (cluster (ch :: body)).1 (cluster (ch :: body)).2 := by
  unfold meaning
  rw [h]
  split <;> simp_all

theorem meaning_of_long {arg : String} {body : List Char} (h : arg.toList = '-' :: '-' :: body)
    (hne : body ≠ []) : meaning arg = longMeaning body := by
  unfold meaning
  rw [h]
  cases body with
  | nil => exact absurd rfl hne
  | cons ch body => rfl

theorem meaning_of_file {arg : String} (h : looksLikeOption arg = false) :
    meaning arg = .items [.file arg] none := by
  unfold looksLikeOption at h
  unfold meaning
  split at h
  · cases h
  · split <;> simp_all

theorem meaning_codeOption (debug : Bool) :
    meaning (codeOption debug) = .items (if debug then [.debug] else []) (some .code) := by
  cases debug <;> rfl

/-- Code written behind a short option on the same hyphen. -/
theorem meaning_codeOption_append (debug : Bool) {value : String} (hne : value ≠ "") :
    meaning (codeOption debug ++ value) =
      .items (codeItems debug (String.ofList (attached value.toList))) none := by
  have hvalue : value.toList ≠ [] := fun h => hne (String.toList_eq_nil_iff.mp h)
  obtain ⟨ch, rest, hchars⟩ := List.exists_cons_of_ne_nil hvalue
  cases debug with
  | false =>
    have harg : (codeOption false ++ value).toList = '-' :: 'e' :: ch :: rest := by
      simp [codeOption, hchars]
    rw [meaning_of_cluster harg (by decide), hchars]
    rfl
  | true =>
    have harg : (codeOption true ++ value).toList = '-' :: 'd' :: 'e' :: ch :: rest := by
      simp [codeOption, hchars]
    rw [meaning_of_cluster harg (by decide), hchars]
    rfl

theorem attached_of_head?_ne {value : List Char} (h : value.head? ≠ some '=') :
    attached value = value := by
  unfold attached
  split <;> simp_all

theorem splitValue_append {name : List Char} (h : '=' ∉ name) (value : List Char) :
    splitValue (name ++ '=' :: value) = (name, some value) := by
  induction name with
  | nil => rfl
  | cons ch name ih =>
    rw [List.cons_append, splitValue, ih (List.not_mem_of_not_mem_cons h)]
    exact fun heq => List.ne_of_not_mem_cons h heq.symm

theorem meaning_prompt (text : String) :
    meaning ("--prompt=" ++ text) = .items [.prompt text] none := by
  have harg : ("--prompt=" ++ text).toList =
      '-' :: '-' :: ("prompt".toList ++ '=' :: text.toList) := by simp
  rw [meaning_of_long harg (by simp), longMeaning, splitValue_append (by decide)]
  simp

theorem meaning_execute (part : String) :
    meaning ("--execute=" ++ part) = .items [.code part] none := by
  have harg : ("--execute=" ++ part).toList =
      '-' :: '-' :: ("execute".toList ++ '=' :: part.toList) := by simp
  rw [meaning_of_long harg (by simp), longMeaning, splitValue_append (by decide)]
  simp

/-! ## Lines -/

theorem items_of_meaning {arg : String} {first : List Item} (h : meaning arg = .items first none)
    (rest : List String) : items (arg :: rest) = first ++ items rest := by
  rw [items, h]

theorem items_of_wanted_code {arg : String} {first : List Item}
    (h : meaning arg = .items first (some .code)) (part : String) (rest : List String) :
    items (arg :: part :: rest) = first ++ .code part :: items rest := by
  rw [items, h]

/-- Complete arguments mean what they spell, whatever comes behind them. -/
theorem Spells.items_append {here : List String} {first : List Item} (h : Spells here first)
    (rest : List String) : items (here ++ rest) = first ++ items rest := by
  cases h with
  | debug => exact items_of_meaning rfl rest
  | longDebug => exact items_of_meaning rfl rest
  | prompt text => exact items_of_meaning (meaning_prompt text) rest
  | apart debug part =>
    refine (items_of_wanted_code (meaning_codeOption debug) part rest).trans ?_
    cases debug <;> rfl
  | @attached debug part hne heq =>
    have hm := meaning_codeOption_append debug hne
    rw [attached_of_head?_ne heq, String.ofList_toList] at hm
    exact items_of_meaning hm rest
  | joined debug part =>
    have hvalue : CommandLine.attached ("=" ++ part).toList = part.toList := by
      simp [CommandLine.attached]
    have hm : meaning (codeOption debug ++ ("=" ++ part)) = _ :=
      meaning_codeOption_append debug (by simp)
    rw [hvalue, String.ofList_toList, ← String.append_assoc] at hm
    exact items_of_meaning hm rest
  | longApart part =>
    have hm : meaning "--execute" = .items [] (some .code) := rfl
    exact items_of_wanted_code hm part rest
  | longJoined part => exact items_of_meaning (meaning_execute part) rest
  | file hne ho => exact items_of_meaning (meaning_of_file ho) rest

theorem Line.items_eq {args : List String} {asked : List Item} (h : Line args asked) :
    items args = asked := by
  induction h with
  | nil => rfl
  | cons h _ ih => rw [h.items_append, ih]

/-! ## What a line sets -/

@[simp] def Item.code? : Item → Option String
  | .code part => some part
  | _ => none

@[simp] def Item.prompt? : Item → Option String
  | .prompt text => some text
  | _ => none

@[simp] def Item.file? : Item → Option String
  | .file name => some name
  | _ => none

/-- An item that sets something, and cannot be refused by itself. -/
def Item.Sets : Item → Prop
  | .debug | .prompt _ | .code _ => True
  | .file name => name ≠ ""
  | .help | .version | .refused _ => False

/-- What is set once some items have been taken as well. -/
def after (a : Arguments) (asked : List Item) : Arguments where
  debug := a.debug || asked.contains .debug
  prompt := a.prompt.or (asked.filterMap Item.prompt?).head?
  code := a.code ++ asked.filterMap Item.code?
  files := a.files ++ asked.filterMap Item.file?

/-- Neither the flag nor the prompt is given twice, counting those already set. -/
structure Once (a : Arguments) (asked : List Item) : Prop where
  debug : a.debug.toNat + asked.count .debug ≤ 1
  prompt : a.prompt.toList.length + (asked.filterMap Item.prompt?).length ≤ 1

theorem after_nil (a : Arguments) : after a [] = a := by
  simp [after]

theorem after_cons (a : Arguments) (item : Item) (asked : List Item) :
    after a (item :: asked) = after (after a [item]) asked := by
  cases item <;> simp [after, List.filterMap_cons]

theorem toNat_debug_after_le (a : Arguments) (asked : List Item) :
    (after a asked).debug.toNat ≤ a.debug.toNat + asked.count .debug := by
  have hcontains : (asked.contains .debug).toNat ≤ asked.count .debug := by
    cases h : asked.contains .debug with
    | false => exact Nat.zero_le _
    | true => exact List.count_pos_iff.mpr (List.contains_iff_mem.mp h)
  have hor : (after a asked).debug = (a.debug || asked.contains .debug) := rfl
  rw [hor]
  cases a.debug with
  | false => simpa using hcontains
  | true => simp

theorem length_prompt_after_le (a : Arguments) (asked : List Item) :
    (after a asked).prompt.toList.length ≤
      a.prompt.toList.length + (asked.filterMap Item.prompt?).length := by
  have hor : (after a asked).prompt = a.prompt.or (asked.filterMap Item.prompt?).head? := rfl
  rw [hor]
  cases a.prompt with
  | none => cases asked.filterMap Item.prompt? <;> simp
  | some text => simp

section

variable {a : Arguments} {item : Item} {asked : List Item}

theorem Once.debug_eq (h : Once a (.debug :: asked)) : a.debug = false := by
  have hd := h.debug
  rw [List.count_cons_self] at hd
  exact Bool.toNat_eq_zero.mp (by omega)

theorem Once.prompt_eq {text : String} (h : Once a (.prompt text :: asked)) :
    a.prompt = none := by
  have hp := h.prompt
  simp only [List.filterMap_cons, Item.prompt?, List.length_cons] at hp
  exact Option.toList_eq_nil_iff.mp (List.eq_nil_of_length_eq_zero (by omega))

theorem Once.after (h : Once a (item :: asked)) : Once (after a [item]) asked := by
  have hsplit : item :: asked = [item] ++ asked := rfl
  obtain ⟨hd, hp⟩ := h
  rw [hsplit, List.count_append] at hd
  rw [hsplit, List.filterMap_append, List.length_append] at hp
  have := toNat_debug_after_le a [item]
  have := length_prompt_after_le a [item]
  exact ⟨by omega, by omega⟩

theorem take_cons (hs : item.Sets) (h : Once a (item :: asked)) :
    take a (item :: asked) = take (CommandLine.after a [item]) asked := by
  cases item with
  | debug =>
    rw [take, h.debug_eq, if_neg Bool.false_ne_true]
    simp [CommandLine.after, List.filterMap_cons]
  | prompt text =>
    rw [take, h.prompt_eq, Option.isSome_none, if_neg Bool.false_ne_true]
    simp [CommandLine.after, h.prompt_eq, List.filterMap_cons]
  | code part =>
    simp [take, CommandLine.after, List.filterMap_cons]
  | file name =>
    have hname : name.isEmpty = false := by simpa [Item.Sets] using hs
    simp [take, hname, CommandLine.after, List.filterMap_cons]
  | help | version | refused => exact hs.elim

end

theorem take_eq_after {a : Arguments} {asked : List Item} (hs : ∀ item ∈ asked, item.Sets)
    (ho : Once a asked) : take a asked = take (after a asked) [] := by
  induction asked generalizing a with
  | nil => rw [after_nil]
  | cons item asked ih =>
    obtain ⟨hitem, hrest⟩ := List.forall_mem_cons.mp hs
    rw [take_cons hitem ho, ih hrest ho.after, ← after_cons]

theorem take_nil_of_code {a : Arguments} (hf : a.files = []) : take a [] = .run a := by
  simp [take, hf]

theorem take_nil_of_files {a : Arguments} (hc : a.code ≠ []) (hf : a.files ≠ []) :
    take a [] = .refused .codeWithFiles := by
  simp [take, hc, hf]

theorem Line.sets {args : List String} {asked : List Item} (h : Line args asked) :
    ∀ item ∈ asked, item.Sets := by
  induction h with
  | nil => nofun
  | cons h _ ih =>
    refine List.forall_mem_append.mpr ⟨?_, ih⟩
    cases h with
    | debug | longDebug | prompt | longApart | longJoined => simp [Item.Sets]
    | apart debug | attached debug | joined debug => cases debug <;> simp [codeItems, Item.Sets]
    | file hne => simpa [Item.Sets] using hne

theorem Line.parse_eq {args : List String} {asked : List Item} (h : Line args asked)
    (ho : Once .none asked) : parse args = take (after .none asked) [] := by
  rw [parse, h.items_eq, take_eq_after h.sets ho]

/-! ## The canonical line -/

theorem Line.append {args args' : List String} {asked asked' : List Item} (h : Line args asked)
    (h' : Line args' asked') : Line (args ++ args') (asked ++ asked') := by
  induction h with
  | nil => exact h'
  | cons h _ ih =>
    rw [List.append_assoc, List.append_assoc]
    exact .cons h ih

theorem Spells.line {args : List String} {asked : List Item} (h : Spells args asked) :
    Line args asked := by
  simpa using Line.cons h .nil

/-- The line that has the code in one part, behind the flag and the prompt. -/
def canonical (asked : List Item) : List String :=
  (if asked.contains .debug then ["-d"] else []) ++
    (asked.filterMap Item.prompt?).map ("--prompt=" ++ ·) ++
    ["-e", String.join (asked.filterMap Item.code?)]

def canonicalItems (asked : List Item) : List Item :=
  (if asked.contains .debug then [.debug] else []) ++
    (asked.filterMap Item.prompt?).map .prompt ++
    [.code (String.join (asked.filterMap Item.code?))]

theorem line_canonical (asked : List Item) : Line (canonical asked) (canonicalItems asked) := by
  have hdebug : Line (if asked.contains .debug then ["-d"] else [])
      (if asked.contains .debug then [.debug] else []) := by
    cases asked.contains .debug with
    | false => exact .nil
    | true => exact Spells.debug.line
  have hprompts (texts : List String) :
      Line (texts.map ("--prompt=" ++ ·)) (texts.map .prompt) := by
    induction texts with
    | nil => exact .nil
    | cons text texts ih => exact .cons (.prompt text) ih
  exact (hdebug.append (hprompts _)).append (Spells.apart false _).line

theorem filterMap_prompt?_canonicalItems (asked : List Item) :
    (canonicalItems asked).filterMap Item.prompt? = asked.filterMap Item.prompt? := by
  have hprompts (texts : List String) : (texts.map Item.prompt).filterMap Item.prompt? = texts := by
    rw [List.filterMap_map]
    exact List.filterMap_some
  unfold canonicalItems
  rw [List.filterMap_append, List.filterMap_append, hprompts]
  cases asked.contains .debug <;> simp [List.filterMap_cons]

theorem Once.canonicalItems {asked : List Item} (h : Once .none asked) :
    Once .none (canonicalItems asked) where
  debug := by
    have hprompts (texts : List String) : (texts.map Item.prompt).count .debug = 0 := by
      simp [List.count_eq_zero]
    unfold CommandLine.canonicalItems
    rw [List.count_append, List.count_append, hprompts]
    cases asked.contains .debug <;> simp [Arguments.none]
  prompt := by
    rw [filterMap_prompt?_canonicalItems]
    exact h.prompt

/-- The canonical line sets what the line did, except for how the code is cut. -/
theorem after_canonicalItems (asked : List Item) :
    after .none (canonicalItems asked) =
      { after .none asked with
        code := [String.join (asked.filterMap Item.code?)]
        files := [] } := by
  have hdebug : (canonicalItems asked).contains .debug = asked.contains .debug := by
    unfold canonicalItems
    cases asked.contains .debug <;> simp
  have hcode : (canonicalItems asked).filterMap Item.code? =
      [String.join (asked.filterMap Item.code?)] := by
    unfold canonicalItems
    cases asked.contains .debug <;> simp [List.filterMap_cons]
  have hfile : (canonicalItems asked).filterMap Item.file? = [] := by
    unfold canonicalItems
    cases asked.contains .debug <;> simp [List.filterMap_cons]
  simp only [after, hdebug, filterMap_prompt?_canonicalItems, hcode, hfile]
  rfl

end CommandLine

namespace Invocation

open CommandLine

variable {i : Invocation}

/-- A run of code given on the command line. -/
theorem observed_of_code {a : Arguments} (h : parse i.args = .run a) (hc : a.code ≠ [])
    (o : Observer) (fuel : Nat) :
    let sets := Settings.resolve (.inline a.code) a.overrides i.env
    let loaded := Log.Entry.loaded (.inline a.code) sets.debug
    i.observed o fuel = i.executeWith fuel sets (String.join a.code)
      ((o.journal i.env).next loaded)
      ((o.journal i.env).enter loaded (.ofInput i.stdin sets.prompt)).2 := by
  intro sets loaded
  have hsource : a.source = .inline a.code := by
    simp [Arguments.source, hc]
  have htext : (Settings.resolve a.source a.overrides i.env).source.load i.read i.stdin =
      .ok (String.join a.code) := by
    rw [hsource]
    rfl
  rw [observed, respond_of_loaded h htext, hsource, ← Journal.enter_fst]
  rfl

end Invocation

end Brainfuck
