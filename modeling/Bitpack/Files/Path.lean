import Bitpack.Bytes
import Bitpack.Error

/-!
Paths of files, and access to files over any monad that performs it. A path is a text whose pieces are
separated by slashes; empty pieces and single dots mean nothing.
-/
namespace Bitpack

structure Path where
  text : String
  deriving DecidableEq, Repr

namespace Path

def splitSlash : List Char → List (List Char)
  | [] => [[]]
  | c :: rest =>
    if c = '/' then [] :: splitSlash rest
    else
      match splitSlash rest with
      | [] => [[c]]
      | piece :: more => (c :: piece) :: more

def pieces (p : Path) : List String :=
  (splitSlash p.text.toList).map String.ofList

def isAbsolute (p : Path) : Bool :=
  p.text.toList.head? = some '/'

def steps (p : Path) : List String :=
  p.pieces.filter fun piece => piece ≠ "" && piece ≠ "."

/-- Whether the text ends as only the path of a directory can. -/
def endsAsDirectory (p : Path) : Bool :=
  p.pieces.getLast?.any fun piece => piece = "" || piece = "."

/-- Whether the last piece is a single dot, which no file can be created or replaced by. -/
def endsInDot (p : Path) : Bool :=
  (p.pieces.reverse.dropWhile (· = "")).head? = some "."

def fileName? (p : Path) : Option String :=
  p.steps.getLast?.filter (· ≠ "..")

def sibling (p : Path) (name : String) : Path :=
  let root := if p.isAbsolute then "/" else ""
  ⟨root ++ "/".intercalate (p.steps.dropLast ++ [name])⟩

end Path

class Files (m : Type → Type) where
  read : Path → m (Except IoError Bytes)
  write : Path → Bytes → m (Except IoError Unit)
  remove : Path → m (Except IoError Unit)
  rename : Path → Path → m (Except IoError Unit)

end Bitpack
