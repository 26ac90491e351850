import EnglishScript.Runner
import EnglishScript.Text.Quoted

namespace EnglishScript

/-- Why a program cannot be started. -/
inductive StartFault where
  | noCommand
  | notInPath
  | noSuchFile
  | notDirectory
  | notPermitted
  deriving DecidableEq, Repr

/-- The message for a program of the given name. -/
def StartFault.message (name : Text) : StartFault → Text
  | noCommand => utf8 "exec: no command"
  | notInPath => utf8 "exec: " ++ Text.quoted name ++ utf8 ": executable file not found in $PATH"
  | noSuchFile => utf8 "fork/exec " ++ name ++ utf8 ": no such file or directory"
  | notDirectory => utf8 "fork/exec " ++ name ++ utf8 ": not a directory"
  | notPermitted => utf8 "fork/exec " ++ name ++ utf8 ": permission denied"

/-- A machine: its files, the directory for temporary files, the name that the next of them gets, and whether runs are
canceled from the start. -/
structure Machine where
  files : FileTree
  tempRoot : Text
  tempName : Text
  canceled : Bool
  deriving DecidableEq, Repr

namespace Machine

/-- The program that a name stands for. A name with a slash is a path; other names are looked up in the search path,
where this machine has no programs. -/
def program? (m : Machine) (name : Text) : Except StartFault Executable :=
  if name.isEmpty then .error .noCommand
  else if name.contains FileTree.slash then
    match m.files.find name with
    | .ok (.program p) => if p.permitted then .ok p else .error .notPermitted
    | .ok _ => .error .notPermitted
    | .error .notDirectory => .error .notDirectory
    | .error _ => .error .noSuchFile
  else .error .notInPath

/-- What starting a program by name gives. -/
def host (m : Machine) : Host := fun _ name input =>
  match m.program? name with
  | .ok p => .ok ⟨p.stdout ++ (if p.copiesInput then input else []), p.stderr, p.status⟩
  | .error fault => .error (fault.message name)

/-- The nanoseconds until an interpreter has ended. -/
def timeOf (m : Machine) (name : Text) : Nat :=
  match m.program? name with
  | .ok p => p.nap + 1
  | .error _ => 1

/-- What a run hears when it asks for the `n`-th time whether it is to end; it asks twice for each interpreter. -/
def asks (m : Machine) (r : Runner) (n : Nat) : Option Ending :=
  let elapsed := (r.interpreters.take (n / 2 + 1)).foldl (fun total name => total + m.timeOf name) 0
  if m.canceled then some .canceled
  else if 0 < r.timeout && r.timeout ≤ (elapsed : Int) then some .deadlineExceeded
  else none

/-- Runs a program. -/
def run (m : Machine) (r : Runner) (program : Text) : RunRecord × Machine :=
  let (record, files) := r.run m.host (m.asks r) m.tempRoot m.tempName program m.files
  (record, { m with files })

end Machine

end EnglishScript
