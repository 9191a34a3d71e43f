import Brainfuck.Machine.Run
import Brainfuck.Source
import Brainfuck.Terminal.Streams

/-! Programs loaded in pieces. What matters about the pieces is the text that they make
together: files, parts of code and standard input with the same text give the same
machine. Only files are cut by bytes, and as each of them must be a text by itself, a cut
inside a character is noticed. -/

namespace Brainfuck

/-! ## Bytes of texts -/

theorem decodeText_utf8 (s : String) : decodeText (utf8 s) = .ok s := by
  have hvalid : String.fromUTF8? ⟨(utf8 s).toArray⟩ = some s := dif_pos s.isValidUTF8
  rw [decodeText, hvalid]

theorem utf8_inj {s t : String} : utf8 s = utf8 t ↔ s = t := by
  refine ⟨fun h => ?_, congrArg utf8⟩
  have hdecoded := congrArg decodeText h
  rw [decodeText_utf8, decodeText_utf8] at hdecoded
  exact Except.ok.inj hdecoded

/-- Bytes that encode a text, valid UTF-8 that is. -/
def IsText (bytes : List UInt8) : Prop := ∃ s, bytes = utf8 s

theorem decodeText_eq_ok_iff {bytes : List UInt8} {s : String} :
    decodeText bytes = .ok s ↔ bytes = utf8 s := by
  constructor
  · intro h
    unfold decodeText String.fromUTF8? at h
    split at h
    · rename_i t ht
      split at ht
      · obtain rfl := Option.some.inj ht
        obtain rfl := Except.ok.inj h
        rfl
      · cases ht
    · cases h
  · rintro rfl
    exact decodeText_utf8 s

theorem decodeText_eq_error_iff {bytes : List UInt8} {e : IoError} :
    decodeText bytes = .error e ↔ ¬ IsText bytes ∧ e = .invalidText := by
  have hcause {e : IoError} (h : decodeText bytes = .error e) : e = .invalidText := by
    unfold decodeText at h
    split at h
    · cases h
    · exact (Except.error.inj h).symm
  constructor
  · intro h
    refine ⟨?_, hcause h⟩
    rintro ⟨s, rfl⟩
    rw [decodeText_utf8] at h
    cases h
  · rintro ⟨hbytes, rfl⟩
    cases h : decodeText bytes with
    | ok s => exact absurd ⟨s, decodeText_eq_ok_iff.mp h⟩ hbytes
    | error e => rw [hcause h]

theorem utf8_join (parts : List String) : utf8 (String.join parts) = parts.flatMap utf8 := by
  induction parts with
  | nil => exact utf8_empty
  | cons part parts ih => rw [String.join_cons, utf8_append, ih, List.flatMap_cons]

theorem Program.toList_ofSource_join (parts : List String) :
    (ofSource (String.join parts)).toList = parts.flatMap fun part => (ofSource part).toList := by
  induction parts with
  | nil => rfl
  | cons part parts ih =>
    rw [String.join_cons, ofSource_append, Array.toList_append, ih, List.flatMap_cons]

theorem FileSystem.read_eq_ok_iff {fs : FileSystem} {name : String} {bytes : List UInt8} :
    fs.read name = .ok bytes ↔ fs.find name = .ok (.file bytes) := by
  unfold read
  split <;> simp_all

/-! ## Cuts -/

/-- A position among the bytes of a text that lies inside a character. -/
def InsideCharacter (text : String) (n : Nat) : Prop :=
  ∃ (front back : String) (ch : Char), text = front ++ String.singleton ch ++ back ∧
    (utf8 front).length < n ∧ n < (utf8 (front ++ String.singleton ch)).length

/-- Where one text ends and the next one begins there is no character to cut. -/
theorem not_insideCharacter_append (s t : String) :
    ¬ InsideCharacter (s ++ t) (utf8 s).length := by
  rintro ⟨front, back, ch, htext, hlo, hhi⟩
  have hlist : s.toList ++ t.toList = front.toList ++ ch :: back.toList := by
    simpa using congrArg String.toList htext
  have hlength {a b c : String} (h : a.toList = b.toList ++ c.toList) :
      (utf8 a).length = (utf8 b).length + (utf8 c).length := by
    have ha : a = b ++ c := String.toList_inj.mp (by rw [h, String.toList_append])
    rw [ha, utf8_append, List.length_append]
  rcases List.append_eq_append_iff.mp hlist with ⟨rest, hfront, -⟩ | ⟨rest, hs, hrest⟩
  · -- `s` ends in front of the character or at its beginning
    have := hlength (c := String.ofList rest) (by simpa using hfront)
    omega
  · cases rest with
    | nil =>
      have := hlength (c := "") (by simpa using hs)
      simp at this
      omega
    | cons ch' rest =>
      -- `s` has the whole character
      obtain ⟨rfl, -⟩ := List.cons.inj hrest
      have := hlength (a := s) (b := front ++ String.singleton ch) (c := String.ofList rest)
        (by simpa using hs)
      omega

namespace Source

variable {read : String → Except IoError (List UInt8)} {names : List String} {input : List UInt8}

/-! ## Files -/

/-- The text of one file. -/
def readText (read : String → Except IoError (List UInt8)) (name : String) :
    Except IoError String := read name >>= decodeText

theorem readText_eq_ok_iff {name text : String} :
    readText read name = .ok text ↔ read name = .ok (utf8 text) := by
  unfold readText
  cases read name with
  | ok bytes => simp [bind, Except.bind, decodeText_eq_ok_iff]
  | error e => simp [bind, Except.bind]

theorem readText_eq_error_iff {name : String} {e : IoError} :
    readText read name = .error e ↔ read name = .error e ∨
      ∃ bytes, read name = .ok bytes ∧ ¬ IsText bytes ∧ e = .invalidText := by
  unfold readText
  cases read name with
  | ok bytes => simp [bind, Except.bind, decodeText_eq_error_iff]
  | error e => simp [bind, Except.bind]

theorem readAll_cons (read : String → Except IoError (List UInt8)) (name : String)
    (names : List String) :
    readAll read (name :: names) =
      match readText read name with
      | .ok text => (readAll read names).map (text ++ ·)
      | .error e => .error e := by
  rw [readAll, readText]
  cases read name with
  | error e => rfl
  | ok bytes =>
    show (decodeText bytes >>= _) = match decodeText bytes with | .ok text => _ | .error e => _
    cases decodeText bytes with
    | error e => rfl
    | ok text => cases readAll read names <;> rfl

theorem readAll_of_texts {parts : List String}
    (h : names.map read = parts.map fun part => .ok (utf8 part)) :
    readAll read names = .ok (String.join parts) := by
  induction names generalizing parts with
  | nil =>
    rw [List.map_eq_nil_iff.mp h.symm]
    rfl
  | cons name names ih =>
    obtain ⟨part, rest, rfl, hpart, hrest⟩ := List.map_eq_cons_iff.mp h.symm
    rw [readAll_cons, readText_eq_ok_iff.mpr hpart.symm, ih hrest.symm, String.join_cons]
    rfl

/-- The first file that cannot be read decides, whatever comes behind it. -/
theorem readAll_of_failure {front back : List String} {name : String} {e : IoError}
    (hfront : ∀ n ∈ front, ∃ text, readText read n = .ok text)
    (h : readText read name = .error e) : readAll read (front ++ name :: back) = .error e := by
  induction front with
  | nil => rw [List.nil_append, readAll_cons, h]
  | cons first front ih =>
    obtain ⟨⟨text, htext⟩, hfront⟩ := List.forall_mem_cons.mp hfront
    rw [List.cons_append, readAll_cons, htext, ih hfront]
    rfl

/-- Either all files can be read or there is a first one that cannot. -/
theorem texts_or_failure (read : String → Except IoError (List UInt8)) (names : List String) :
    (∃ parts : List String, names.map read = parts.map fun part => .ok (utf8 part)) ∨
    ∃ front name back e, names = front ++ name :: back ∧
      (∀ n ∈ front, ∃ text, readText read n = .ok text) ∧ readText read name = .error e := by
  induction names with
  | nil => exact .inl ⟨[], rfl⟩
  | cons name names ih =>
    cases hname : readText read name with
    | error e => exact .inr ⟨[], name, names, e, rfl, nofun, hname⟩
    | ok text =>
      rcases ih with ⟨parts, hparts⟩ | ⟨front, failing, back, e, rfl, hfront, he⟩
      · exact .inl ⟨text :: parts, by
          rw [List.map_cons, hparts, readText_eq_ok_iff.mp hname, List.map_cons]⟩
      · exact .inr ⟨name :: front, failing, back, e, rfl,
          List.forall_mem_cons.mpr ⟨⟨text, hname⟩, hfront⟩, he⟩

theorem readAll_eq_ok_iff {text : String} :
    readAll read names = .ok text ↔ ∃ parts : List String,
      names.map read = parts.map (fun part => .ok (utf8 part)) ∧ text = String.join parts := by
  constructor
  · intro h
    rcases texts_or_failure read names with
      ⟨parts, hparts⟩ | ⟨front, name, back, e, rfl, hfront, he⟩
    · rw [readAll_of_texts hparts] at h
      exact ⟨parts, hparts, (Except.ok.inj h).symm⟩
    · rw [readAll_of_failure hfront he] at h
      cases h
  · rintro ⟨parts, hparts, rfl⟩
    exact readAll_of_texts hparts

theorem readAll_eq_error_iff {e : IoError} :
    readAll read names = .error e ↔ ∃ front name back, names = front ++ name :: back ∧
      (∀ n ∈ front, ∃ text, readText read n = .ok text) ∧ readText read name = .error e := by
  constructor
  · intro h
    rcases texts_or_failure read names with
      ⟨parts, hparts⟩ | ⟨front, name, back, e', rfl, hfront, he⟩
    · rw [readAll_of_texts hparts] at h
      cases h
    · rw [readAll_of_failure hfront he] at h
      obtain rfl := Except.error.inj h
      exact ⟨front, name, back, rfl, hfront, he⟩
  · rintro ⟨front, name, back, rfl, hfront, he⟩
    exact readAll_of_failure hfront he

/-! ## Cut texts -/

/-- Files that have the bytes of a text between them, but cut it inside a character. -/
theorem readAll_of_insideCharacter {text : String} {pieces : List (List UInt8)}
    (hread : names.map read = pieces.map .ok) (htext : utf8 text = pieces.flatten) {k : Nat}
    (hk : InsideCharacter text (pieces.take k).flatten.length) :
    readAll read names = .error .invalidText := by
  cases h : readAll read names with
  | ok text' =>
    obtain ⟨parts, hparts, -⟩ := readAll_eq_ok_iff.mp h
    have hpieces : pieces = parts.map utf8 := by
      rw [hread, ← Function.comp_def, ← List.map_map] at hparts
      exact (List.map_inj_right fun _ _ => Except.ok.inj).mp hparts
    have hjoin : text = String.join (parts.take k) ++ String.join (parts.drop k) := by
      rw [← String.join_append, List.take_append_drop, ← utf8_inj, htext, hpieces, utf8_join,
        List.flatMap_def]
    have hlength : (pieces.take k).flatten = utf8 (String.join (parts.take k)) := by
      rw [utf8_join, hpieces, ← List.map_take, List.flatMap_def]
    rw [hjoin, hlength] at hk
    exact absurd hk (not_insideCharacter_append _ _)
  | error e =>
    obtain ⟨front, name, back, rfl, -, he⟩ := readAll_eq_error_iff.mp h
    rcases readText_eq_error_iff.mp he with he | ⟨-, -, -, rfl⟩
    · -- each of the files can be read
      have hmem : read name ∈ pieces.map Except.ok := hread ▸ List.mem_map_of_mem (by simp)
      obtain ⟨piece, -, hpiece⟩ := List.mem_map.mp hmem
      rw [← hpiece] at he
      cases he
    · rfl

theorem exists_readText_iff {name : String} :
    (∃ text, readText read name = .ok text) ↔ ∃ bytes, read name = .ok bytes ∧ IsText bytes := by
  constructor
  · rintro ⟨text, h⟩
    exact ⟨utf8 text, readText_eq_ok_iff.mp h, text, rfl⟩
  · rintro ⟨-, h, text, rfl⟩
    exact ⟨text, readText_eq_ok_iff.mpr h⟩

end Source

end Brainfuck
