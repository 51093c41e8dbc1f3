/-!
# Directories

What reading a path gives, for a directory whose files are held in memory. A path is walked name by
name: every name but the last has to lead to a directory. Around the directory there are others, of
which nothing else is known.
-/

namespace BlockLang

/-- Why a path cannot be read. -/
inductive Unreadable where
  | notFound
  | notDirectory
  | isDirectory
  | nameTooLong
  | other (reason : String)
deriving DecidableEq, Repr

def Unreadable.message : Unreadable → String
  | notFound => "No such file or directory (os error 2)"
  | notDirectory => "Not a directory (os error 20)"
  | isDirectory => "Is a directory (os error 21)"
  | nameTooLong => "File name too long (os error 36)"
  | other reason => reason

/-- The contents of a file, or why there are none. -/
abbrev ReadFile := String → Except Unreadable String

/-- The files of a directory, by the names that lead to them. -/
structure Directory where
  files : List (List String × String) := []
deriving Repr

/-- Where a walk has got to. -/
inductive Place where
  /-- The names that lead there from the directory. -/
  | inside (names : List String)
  /-- A directory around it. -/
  | outside
deriving DecidableEq, Repr

namespace Directory

/-- The names in a path. -/
def names (path : String) : List String :=
  (path.splitOn "/").filter fun name => name != "" && name != "."

def ofFiles (files : List (String × String)) : Directory :=
  ⟨files.map fun (path, text) => (names path, text)⟩

def file? (d : Directory) : Place → Option String
  | .inside names => d.files.lookup names
  | .outside => none

/-- Whether the names lead to a file or to a directory with files in it. -/
def contains (d : Directory) (names : List String) : Bool :=
  d.files.any fun f => names.isPrefixOf f.1

/-- The most bytes in a name. -/
def maxName : Nat := 255

/-- The most bytes in a path. -/
def maxPath : Nat := 4095

/-- One step of a walk. -/
def enter (d : Directory) (place : Place) (name : String) : Except Unreadable Place :=
  if (d.file? place).isSome then .error .notDirectory
  else if name == "" || name == "." then .ok place
  else if maxName < name.utf8ByteSize then .error .nameTooLong
  else match place, name with
    | .inside [], ".." => .ok .outside
    | .inside names, ".." => .ok (.inside names.dropLast)
    | .inside names, _ =>
      let next := names ++ [name]
      if d.contains next then .ok (.inside next) else .error .notFound
    | .outside, ".." => .ok .outside
    | .outside, _ => .error .notFound

/-- Where a path leads to. -/
def walk (d : Directory) (path : String) : Except Unreadable Place :=
  if maxPath < path.utf8ByteSize then .error .nameTooLong
  else
    let start := if path.startsWith "/" then Place.outside else .inside []
    (path.splitOn "/").foldlM d.enter start

/-- The contents of the file that a path leads to. -/
def read (d : Directory) : ReadFile := fun path => do
  match d.file? (← d.walk path) with
  | some text => return text
  | none => throw .isDirectory

end Directory

end BlockLang
