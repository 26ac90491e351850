import EnglishScript.FileTree

namespace EnglishScript.SourceFile

/-- The ending of a source file's name. -/
def ending : Text := utf8 ".ebpl"

/-- The name from its last dot on. -/
def extension (name : Text) : Text :=
  if name.contains 46 then 46 :: (name.reverse.takeWhile (· != 46)).reverse else []

/-- Whether an entry is a source file. -/
def isSource (e : Place × Entry) : Bool :=
  e.2 != .directory && (e.1.getLast?.map extension) == some ending

/-- The source files at or below a path, ordered by the bytes of their paths. -/
def under (t : FileTree) (path : Text) : Except PathFault (List Text) :=
  match t.fromTop path with
  | none => .error .noSuchFile
  | some way =>
    (t.walk [] way).map fun (root, _) =>
      ((t.entries.filter fun e => isSource e && root.isPrefixOf e.1).map fun e => FileTree.pathOf e.1).mergeSort
        fun a b => !Text.before b a

end EnglishScript.SourceFile
