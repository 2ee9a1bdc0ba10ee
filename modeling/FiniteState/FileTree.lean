import FiniteState.Text.Split

/-!
# Trees of files

A tree of files in memory, which the program can be run on in the place of a disk. A path is
followed name by name, from the working folder or, if it begins with a slash, from the top.
Only a folder can be left by a name, even by an empty one, so a slash after the name of a
file is a fault.
-/

namespace FiniteState

/-- Where a file or a folder is: the names on the way from the top. -/
abbrev Location := List String

/-- Why nothing can be read at a path. -/
inductive PathFault where
  | missing
  | notFolder
  | isFolder
  | nameTooLong
deriving DecidableEq, Inhabited

/-- The number that systems give a fault. -/
def PathFault.number : PathFault → Nat
  | .missing => 2
  | .notFolder => 20
  | .isFolder => 21
  | .nameTooLong => 36

def PathFault.ofNumber? (n : Nat) : Option PathFault :=
  [.missing, .notFolder, .isFolder, .nameTooLong].find? fun f => f.number == n

def PathFault.message (f : PathFault) : String :=
  (match f with
    | .missing => "No such file or directory"
    | .notFolder => "Not a directory"
    | .isFolder => "Is a directory"
    | .nameTooLong => "File name too long") ++
    " (os error " ++ toString f.number ++ ")"

/-- Files and folders, and the folder in which the program runs. -/
structure FileTree where
  files : List (Location × String)
  /-- Folders that are there whether they hold files or not. -/
  folders : List Location
  working : Location
deriving Inhabited

namespace FileTree

def text? (t : FileTree) (l : Location) : Option String := t.files.lookup l

/-- Whether there is a folder at a location: one that is given, or one that another folder
or a file lies in. -/
def isFolder (t : FileTree) (l : Location) : Bool :=
  (t.working :: (t.folders ++ t.files.map fun f => f.1.dropLast)).any fun m =>
    l.isPrefixOf m

def isThere (t : FileTree) (l : Location) : Bool := (t.text? l).isSome || t.isFolder l

/-- How many bytes a name has at most. -/
def nameLimit : Nat := 255

/-- How many bytes a path has at most. -/
def pathLimit : Nat := 4095

/-- Follows names from a location. -/
def walk (t : FileTree) : Location → List String → Except PathFault Location
  | l, [] => .ok l
  | l, name :: names =>
      if !t.isFolder l then .error .notFolder
      else if name = "" ∨ name = "." then walk t l names
      else if name = ".." then walk t l.dropLast names
      else if nameLimit < name.utf8ByteSize then .error .nameTooLong
      else if t.isThere (l ++ [name]) then walk t (l ++ [name]) names
      else .error .missing

def namesOf (path : String) : List String :=
  (Text.split '/' path.toList).map String.ofList

def origin (t : FileTree) (path : String) : Location :=
  if path.toList.head? = some '/' then [] else t.working

def read (t : FileTree) (path : String) : Except PathFault String :=
  if path = "" then .error .missing
  else if pathLimit < path.utf8ByteSize then .error .nameTooLong
  else
    match t.walk (t.origin path) (namesOf path) with
    | .error f => .error f
    | .ok l =>
        match t.text? l with
        | some text => .ok text
        | none => .error .isFolder

end FileTree

end FiniteState
