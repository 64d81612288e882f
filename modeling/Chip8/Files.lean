/-!
A small tree of files. A path is read component by component from the root: an empty component and
a single dot stay where they are, two dots go up, and every component but the last has to lead to
a directory. Paths and their components have a longest length, in bytes, and hold no NUL.
-/

namespace Chip8

inductive ReadError
  | missing
  | isDirectory
  | notDirectory
  | tooLong
  | nulByte
deriving DecidableEq, Repr

def ReadError.message : ReadError → String
  | .missing => "No such file or directory (os error 2)"
  | .isDirectory => "Is a directory (os error 21)"
  | .notDirectory => "Not a directory (os error 20)"
  | .tooLong => "File name too long (os error 36)"
  | .nulByte => "file name contained an unexpected NUL byte"

inductive Entry
  | file (bytes : List UInt8)
  | directory
deriving DecidableEq, Repr

/-- Files and directories under their components, the latest entry for a place first. -/
structure Files where
  entries : List (List String × Entry)
deriving DecidableEq, Repr

namespace Files

def longestPath : Nat := 4095
def longestName : Nat := 255

def lookup (f : Files) : List String → Option Entry
  | [] => some .directory
  | place => f.entries.lookup place

def walk (f : Files) : List String → List String → Except ReadError (List String)
  | place, [] => .ok place
  | place, c :: cs =>
    match f.lookup place with
    | none => .error .missing
    | some (.file _) => .error .notDirectory
    | some .directory =>
      if c = "" ∨ c = "." then f.walk place cs
      else if c = ".." then f.walk place.dropLast cs
      else if longestName < c.utf8ByteSize then .error .tooLong
      else f.walk (place ++ [c]) cs

def resolve (f : Files) (path : String) : Except ReadError (List String) :=
  if '\x00' ∈ path.toList then .error .nulByte
  else if longestPath < path.utf8ByteSize then .error .tooLong
  else f.walk [] (path.splitOn "/")

def read (f : Files) (path : String) : Except ReadError (List UInt8) :=
  match f.resolve path with
  | .error e => .error e
  | .ok place => match f.lookup place with
    | none => .error .missing
    | some .directory => .error .isDirectory
    | some (.file bytes) => .ok bytes

def write? (f : Files) (path : String) (bytes : List UInt8) : Option Files :=
  match f.resolve path with
  | .error _ => none
  | .ok place => match f.lookup place with
    | some .directory => none
    | _ => some ⟨(place, .file bytes) :: f.entries⟩

end Files
end Chip8
