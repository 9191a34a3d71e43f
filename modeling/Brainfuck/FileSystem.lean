import Brainfuck.Terminal.Basic

/-! Files by name. A name is a walk from the working directory: its parts lie
between slashes, a part may also be `.` or `..`, and every part but the last
must lead to a directory. Outside the working directory nothing is known but
directories. -/

namespace Brainfuck

abbrev PathPart := List Char

/-- The parts of a name between its slashes, empty ones included. -/
def pathParts : List Char → List PathPart
  | [] => [[]]
  | ch :: rest =>
    if ch = '/' then [] :: pathParts rest
    else
      match pathParts rest with
      | [] => [[ch]]
      | part :: parts => (ch :: part) :: parts

namespace IoError

def notFound : IoError := ⟨.notFound, "No such file or directory (os error 2)"⟩

def isADirectory : IoError := ⟨.isADirectory, "Is a directory (os error 21)"⟩

def notADirectory : IoError := ⟨.notADirectory, "Not a directory (os error 20)"⟩

end IoError

inductive Node where
  | file (bytes : List UInt8)
  | directory
  deriving DecidableEq, Repr

/-- The nodes below the working directory by the parts of their paths. The
directories on the way to a node need no entry of their own. -/
structure FileSystem where
  entries : List (List PathPart × Node)

namespace FileSystem

/-- Files and directories by name. -/
def ofNames (names : List (String × Node)) : FileSystem :=
  ⟨names.map fun (name, node) => (pathParts name.toList, node)⟩

def node? (fs : FileSystem) (path : List PathPart) : Option Node :=
  if path.isEmpty then some .directory
  else
    match fs.entries.lookup path with
    | some node => some node
    | none =>
      if fs.entries.any fun (p, _) => path.isPrefixOf p then some .directory else none

/-- Where a walk stands: at a node below the working directory, its path
innermost first, or outside. -/
inductive Place where
  | inside (path : List PathPart)
  | outside

def nodeAt? (fs : FileSystem) : Place → Option Node
  | .inside path => fs.node? path.reverse
  | .outside => some .directory

/-- The place that a part leads to from a directory. -/
def Place.enter : Place → PathPart → Place
  | here, [] => here
  | here, ['.'] => here
  | .inside (_ :: path), ['.', '.'] => .inside path
  | _, ['.', '.'] => .outside
  | .inside path, part => .inside (part :: path)
  | .outside, _ => .outside

/-- Whether a part leads to a place that cannot be known. -/
def Place.loses : Place → PathPart → Bool
  | .outside, part => part != [] && part != ['.'] && part != ['.', '.']
  | .inside _, _ => false

def walk (fs : FileSystem) : Place → List PathPart → Except IoError Node
  | here, [] =>
    match fs.nodeAt? here with
    | some node => .ok node
    | none => .error .notFound
  | here, part :: parts =>
    match fs.nodeAt? here with
    | none => .error .notFound
    | some (.file _) => .error .notADirectory
    | some .directory =>
      if here.loses part then .error .notFound else fs.walk (here.enter part) parts

/-- The node that a name leads to. A name that opens with a slash starts
outside. -/
def find (fs : FileSystem) (name : String) : Except IoError Node :=
  match name.toList with
  | [] => .error .notFound
  | '/' :: rest => fs.walk .outside (pathParts rest)
  | chars => fs.walk (.inside []) (pathParts chars)

/-- The bytes of the file that a name leads to. -/
def read (fs : FileSystem) (name : String) : Except IoError (List UInt8) :=
  match fs.find name with
  | .error e => .error e
  | .ok .directory => .error .isADirectory
  | .ok (.file bytes) => .ok bytes

end FileSystem

end Brainfuck
