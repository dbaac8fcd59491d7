/-!
# Directories

The files that a run can read are those of one directory. A path leads to one of
them, or to nothing, or to a directory; `Directory.read` says which, so a run
needs no file system to be a function.
-/

namespace QuantAccel

/-- Why there is no text to read at a path. -/
inductive ReadFault where
  | missing
  | denied
  | notDirectory
  | directory
  | nameTooLong
  | notText
  | other (reason : String)
  deriving Repr, DecidableEq

def ReadFault.message : ReadFault → String
  | missing => "No such file or directory (os error 2)"
  | denied => "Permission denied (os error 13)"
  | notDirectory => "Not a directory (os error 20)"
  | directory => "Is a directory (os error 21)"
  | nameTooLong => "File name too long (os error 36)"
  | notText => "stream did not contain valid UTF-8"
  | other reason => reason

/-- A directory without subdirectories: the texts of its files by name. -/
structure Directory where
  files : List (String × String)
  deriving Repr, DecidableEq

namespace Directory

/-- Bytes of the longest name. -/
def maxName : Nat := 255

/-- Bytes of the longest path. -/
def maxPath : Nat := 4095

/-- The text at the end of a path, from the directory itself or, when `inside`
is false, from one of those around it. Nothing lies around it but the
directories that lead to it. A name that more components follow has to be a
directory, which no file is. -/
def follow (d : Directory) (inside : Bool) : (components : List String) → Except ReadFault String
  | [] => .error .directory
  | "" :: rest => d.follow inside rest
  | "." :: rest => d.follow inside rest
  | ".." :: rest => d.follow false rest
  | name :: rest =>
    if maxName < name.utf8ByteSize then .error .nameTooLong
    else
      match if inside then d.files.lookup name else none with
      | none => .error .missing
      | some text => if rest.isEmpty then .ok text else .error .notDirectory

/-- The text at a path. A path that begins with a slash does not begin in the
directory, and the empty path leads nowhere. -/
def read (d : Directory) (path : String) : Except ReadFault String :=
  if path.isEmpty then .error .missing
  else if maxPath < path.utf8ByteSize then .error .nameTooLong
  else d.follow (!path.startsWith "/") (path.splitOn "/")

end Directory

end QuantAccel
