import EnglishScript.Text

namespace EnglishScript

/-- What a program does when it is started with the path of a file: it writes, copies the file, sleeps for some
nanoseconds and ends with a status. -/
structure Executable where
  permitted : Bool
  stdout : Text
  stderr : Text
  copiesInput : Bool
  nap : Nat
  status : Int
  deriving DecidableEq, Repr

/-- What stands in a tree. -/
inductive Entry where
  | directory
  | file (content : Text)
  | program (p : Executable)
  deriving DecidableEq, Repr

/-- Why a path leads to nothing. -/
inductive PathFault where
  | noSuchFile
  | notDirectory
  | isDirectory
  deriving DecidableEq, Repr

/-- The wording of the fault. -/
def PathFault.message : PathFault → Text
  | noSuchFile => utf8 "no such file or directory"
  | notDirectory => utf8 "not a directory"
  | isDirectory => utf8 "is a directory"

/-- A place in a tree: the names on the way to it. -/
abbrev Place : Type := List Text

/-- Files below the directory named `top`. Directories on the way to an entry exist without an entry of their own. -/
structure FileTree where
  top : Text
  entries : List (Place × Entry)
  deriving DecidableEq, Repr

namespace FileTree

/-- The byte that separates names in a path. -/
def slash : UInt8 := 47

/-- The pieces of a text between slashes. -/
def pieces : Text → List Text
  | [] => [[]]
  | b :: rest =>
    match b == slash, pieces rest with
    | true, ps => [] :: ps
    | false, p :: ps => (b :: p) :: ps
    | false, [] => [[b]]

/-- The steps of a path. Empty names and single dots lead nowhere else. -/
def steps (path : Text) : List Text :=
  (pieces path).filter fun p => !p.isEmpty && p != utf8 "."

/-- The steps of a path from the top of the tree; nothing for a path outside. -/
def fromTop (t : FileTree) (path : Text) : Option (List Text) :=
  if path == t.top then some []
  else if (t.top ++ [slash]).isPrefixOf path then some (steps (path.drop (t.top.length + 1)))
  else if path.head? == some slash then none
  else some (steps path)

/-- What stands at a place. -/
def at? (t : FileTree) (p : Place) : Option Entry :=
  match t.entries.lookup p with
  | some e => some e
  | none => if p.isEmpty || t.entries.any (fun e => p.isPrefixOf e.1) then some .directory else none

/-- Goes the steps of a path from a place. -/
def walk (t : FileTree) : Place → List Text → Except PathFault (Place × Entry)
  | p, [] =>
    match t.at? p with
    | some e => .ok (p, e)
    | none => .error .noSuchFile
  | p, s :: rest =>
    match t.at? p with
    | none => .error .noSuchFile
    | some .directory => walk t (if s = utf8 ".." then p.dropLast else p ++ [s]) rest
    | some _ => .error .notDirectory

/-- What a path leads to. A slash at the end asks for a directory. -/
def find (t : FileTree) (path : Text) : Except PathFault Entry :=
  match t.fromTop path with
  | none => .error .noSuchFile
  | some way =>
    if path.isEmpty then .error .noSuchFile
    else
      match t.walk [] way with
      | .error e => .error e
      | .ok (_, .directory) => .ok .directory
      | .ok (_, e) => if path.getLast? == some slash then .error .notDirectory else .ok e

/-- The content of the file at a path. A program's own text is of no interest. -/
def read (t : FileTree) (path : Text) : Except PathFault Text :=
  match t.find path with
  | .ok .directory => .error .isDirectory
  | .ok (.file content) => .ok content
  | .ok (.program _) => .ok []
  | .error e => .error e

/-- The message for a file that cannot be read: a directory can be opened, but not read. -/
def readMessage (path : Text) (f : PathFault) : Text :=
  (if f = .isDirectory then utf8 "read " else utf8 "open ") ++ path ++ utf8 ": " ++ f.message

/-- The directory of a place and the name in it. -/
def split (t : FileTree) (path : Text) : Except PathFault (Place × Text) :=
  match t.fromTop path with
  | none => .error .noSuchFile
  | some way =>
    match way.getLast? with
    | none => .error .isDirectory
    | some name =>
      match t.walk [] way.dropLast with
      | .error e => .error e
      | .ok (p, .directory) => .ok (p, name)
      | .ok _ => .error .notDirectory

/-- Puts a file at a path, in place of a file that is there. -/
def write (t : FileTree) (path content : Text) : Except PathFault FileTree :=
  if path.isEmpty then .error .noSuchFile
  else
    match t.split path with
    | .error e => .error e
    | .ok (p, name) =>
      let place := p ++ [name]
      if t.at? place = some .directory || path.getLast? == some slash then .error .isDirectory
      else .ok { t with entries := (place, .file content) :: t.entries.filter fun e => e.1 != place }

/-- Takes the file at a path away; its directory stays. -/
def remove (t : FileTree) (path : Text) : FileTree :=
  match t.split path with
  | .error _ => t
  | .ok (p, name) =>
    let rest := t.entries.filter fun e => e.1 != p ++ [name]
    { t with entries := if p.isEmpty || rest.any (fun e => p == e.1) then rest else (p, .directory) :: rest }

/-- The number of files directly in a place. -/
def countIn (t : FileTree) (p : Place) : Nat :=
  (t.entries.filter fun e => e.2 != .directory && e.1.dropLast == p && e.1 != []).length

/-- Makes the directories on a way that are missing; a file on the way is reported by the names up to it. -/
def makeWay (t : FileTree) : Place → List Text → Except Place FileTree
  | _, [] => .ok t
  | p, s :: rest =>
    let next := if s = utf8 ".." then p.dropLast else p ++ [s]
    match t.at? next with
    | some .directory => t.makeWay next rest
    | some _ => .error next
    | none => .ok { t with entries := (next ++ rest, .directory) :: t.entries }

/-- A place in the form of a path. -/
def pathOf (p : Place) : Text :=
  Text.join [slash] p

/-- Makes the directories that a file at a path needs. A file in their place is reported by its path, which starts as
the given one does. -/
def makeParents (t : FileTree) (path : Text) : Except Text FileTree :=
  match t.fromTop path with
  | none => .ok t
  | some way =>
    match t.makeWay [] (if path.getLast? == some slash then way else way.dropLast) with
    | .ok t => .ok t
    | .error p => .error ((if (t.top ++ [slash]).isPrefixOf path then t.top ++ [slash] else []) ++ pathOf p)

end FileTree

end EnglishScript
