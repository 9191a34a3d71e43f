import Brainfuck.Settings

/-! The command line. Reading it takes two stages. First every argument becomes
items: what it asks for, with the value that it carries or takes from the next
argument. Then the items are taken from left to right, and the first one that
asks for help, for the version, or for something impossible decides.

The value of `-e` is the next argument whatever that looks like, since code may
well begin with a hyphen. The value of `--prompt` must not look like an option,
unless it is attached with `=`. -/

namespace Brainfuck

/-- What is wrong with a command line. -/
inductive UsageError where
  | unknownOption (name : String)
  | missingValue (option : String)
  | unexpectedValue (option : String)
  | repeated (option : String)
  | emptyFile
  | codeWithFiles
  deriving DecidableEq, Repr

def UsageError.message : UsageError → String
  | unknownOption name => "error: unexpected argument '" ++ name ++ "' found"
  | missingValue option => "error: a value is required for '" ++ option ++ "'"
  | unexpectedValue option => "error: unexpected value for '" ++ option ++ "'"
  | repeated option => "error: the argument '" ++ option ++ "' cannot be used multiple times"
  | emptyFile => "error: a value is required for '[FILE]...'"
  | codeWithFiles => "error: '--execute <CODE>' cannot be used with '[FILE]...'"

/-- What a command line sets. -/
structure Arguments where
  debug : Bool
  prompt : Option String
  /-- Parts of code, in order. -/
  code : List String
  files : List String
  deriving DecidableEq, Repr

def Arguments.none : Arguments := ⟨false, .none, [], []⟩

def Arguments.source (a : Arguments) : Source :=
  if !a.code.isEmpty then .inline a.code
  else if !a.files.isEmpty then .files a.files
  else .stdin

def Arguments.overrides (a : Arguments) : Overrides := ⟨a.prompt, a.debug⟩

/-- What a command line asks for. -/
inductive Request where
  | help
  | version
  | refused (e : UsageError)
  | run (a : Arguments)
  deriving DecidableEq, Repr

namespace CommandLine

/-! ## Items -/

inductive Item where
  | debug
  | prompt (text : String)
  | code (part : String)
  | file (name : String)
  | help
  | version
  | refused (e : UsageError)
  deriving DecidableEq, Repr

/-- An option that takes its value from the next argument. -/
inductive Wanted where
  | code
  | prompt
  deriving DecidableEq, Repr

/-- What one argument means by itself. -/
inductive Meaning where
  /-- Items, and perhaps an option that still wants its value. -/
  | items (items : List Item) (wanted : Option Wanted)
  | endOfOptions
  deriving DecidableEq, Repr

/-- The text before the first `=` and, if there is one, the text after it. -/
def splitValue : List Char → List Char × Option (List Char)
  | [] => ([], none)
  | '=' :: value => ([], some value)
  | ch :: rest =>
    let (name, value) := splitValue rest
    (ch :: name, value)

/-- The meaning of `--` followed by `body`. -/
def longMeaning (body : List Char) : Meaning :=
  let (name, value) := splitValue body
  let flag (option : String) (item : Item) : Meaning :=
    match value with
    | none => .items [item] none
    | some _ => .items [.refused (.unexpectedValue option)] none
  match String.ofList name, value with
  | "debug", _ => flag "--debug" .debug
  | "help", _ => flag "--help" .help
  | "version", _ => flag "--version" .version
  | "prompt", some text => .items [.prompt (String.ofList text)] none
  | "prompt", none => .items [] (some .prompt)
  | "execute", some part => .items [.code (String.ofList part)] none
  | "execute", none => .items [] (some .code)
  | name, _ => .items [.refused (.unknownOption ("--" ++ name))] none

/-- The value attached to a short option: an `=` in front is no part of it. -/
def attached : List Char → List Char
  | '=' :: value => value
  | value => value

/-- The items of short options written together after one hyphen. -/
def cluster : List Char → List Item × Option Wanted
  | [] => ([], none)
  | 'e' :: [] => ([], some .code)
  | 'e' :: value => ([.code (String.ofList (attached value))], none)
  | 'd' :: rest => let (items, wanted) := cluster rest; (.debug :: items, wanted)
  | 'h' :: rest => let (items, wanted) := cluster rest; (.help :: items, wanted)
  | 'V' :: rest => let (items, wanted) := cluster rest; (.version :: items, wanted)
  | ch :: _ => ([.refused (.unknownOption (String.ofList ['-', ch]))], none)

def meaning (arg : String) : Meaning :=
  match arg.toList with
  | ['-', '-'] => .endOfOptions
  | '-' :: '-' :: body => longMeaning body
  | '-' :: ch :: body => .items (cluster (ch :: body)).1 (cluster (ch :: body)).2
  | _ => .items [.file arg] none

/-- Whether an argument would be read as an option. A lone hyphen would not. -/
def looksLikeOption (arg : String) : Bool :=
  match arg.toList with
  | '-' :: _ :: _ => true
  | _ => false

/-- The items of a whole command line. -/
def items : List String → List Item
  | [] => []
  | arg :: rest =>
    match meaning arg with
    | .endOfOptions => rest.map .file
    | .items here none => here ++ items rest
    | .items here (some .code) =>
      match rest with
      | [] => here ++ [.refused (.missingValue "--execute <CODE>")]
      | part :: rest => here ++ .code part :: items rest
    | .items here (some .prompt) =>
      match rest with
      | [] => here ++ [.refused (.missingValue "--prompt <TEXT>")]
      | text :: rest =>
        if looksLikeOption text then here ++ [.refused (.missingValue "--prompt <TEXT>")]
        else here ++ .prompt text :: items rest

/-! ## From left to right -/

def take (a : Arguments) : List Item → Request
  | [] => if !a.code.isEmpty && !a.files.isEmpty then .refused .codeWithFiles else .run a
  | .help :: _ => .help
  | .version :: _ => .version
  | .refused e :: _ => .refused e
  | .debug :: rest =>
    if a.debug then .refused (.repeated "--debug") else take { a with debug := true } rest
  | .prompt text :: rest =>
    if a.prompt.isSome then .refused (.repeated "--prompt <TEXT>")
    else take { a with prompt := some text } rest
  | .code part :: rest => take { a with code := a.code ++ [part] } rest
  | .file name :: rest =>
    if name.isEmpty then .refused .emptyFile else take { a with files := a.files ++ [name] } rest

def parse (args : List String) : Request := take .none (items args)

end CommandLine

end Brainfuck
