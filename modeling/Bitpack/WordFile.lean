import Bitpack.Word.Hex

/-!
Files of words: one hexadecimal word on each line. Blank lines and lines that start with `#` say
nothing, but they are counted where an error names a line.
-/
namespace Bitpack.WordFile

def lines : List Char → List (List Char)
  | [] => []
  | c :: rest =>
    if c = '\n' then [] :: lines rest
    else
      match lines rest with
      | [] => [[c]]
      | line :: more => (c :: line) :: more

def isWordLine (line : List Char) : Bool :=
  match Text.trim line with
  | [] => false
  | c :: _ => c ≠ '#'

def write (words : List Word) : String :=
  String.ofList (words.flatMap fun word => word.hexChars ++ ['\n'])

/-- The words of lines numbered from `number` on; an error comes with the number of its line. -/
def readLines (width : Nat) (number : Nat) :
    List (List Char) → Except (Nat × Error) (List Word)
  | [] => .ok []
  | line :: rest =>
    if isWordLine line then
      match Word.ofHexChars line width with
      | .error e => .error (number, e)
      | .ok word => (readLines width (number + 1) rest).map (word :: ·)
    else readLines width (number + 1) rest

def read (text : String) (width : Nat) : Except (Nat × Error) (List Word) :=
  readLines width 1 (lines text.toList)

end Bitpack.WordFile
