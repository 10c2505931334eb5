import Bitpack.Text

/-!
The command line: a command, and its options in any order. A long option takes its value behind an
equals sign or as the next argument, a short one also without anything between.
-/
namespace Bitpack

inductive Command where
  | pack (input : String) (config output : Option String)
  | generateConfig (input : String)
  | unpack (input : String) (config output : Option String)
  | inspect (input : String) (element : Option String) (blocks : Nat)
  deriving DecidableEq, Repr

namespace Command

structure OptionSpec where
  long : String
  short : Option Char
  takesValue : Bool

abbrev Given := String × Option String

def verbose : OptionSpec := ⟨"verbose", some 'v', false⟩
def input : OptionSpec := ⟨"input", some 'i', true⟩
def config : OptionSpec := ⟨"config", some 'c', true⟩
def output : OptionSpec := ⟨"output", some 'o', true⟩

def packSpecs : List OptionSpec :=
  [input, config, output, ⟨"generate-config", none, false⟩, verbose]

def unpackSpecs : List OptionSpec :=
  [input, config, output, verbose]

def inspectSpecs : List OptionSpec :=
  [input, ⟨"elem-type", some 'e', true⟩, ⟨"multi-pixel-out", some 'm', true⟩, verbose]

structure Reading where
  given : List Given
  pending : Option String

def readLong? (specs : List OptionSpec) (text : List Char) : Option Reading := do
  let name := String.ofList (text.takeWhile (· ≠ '='))
  let spec ← specs.find? fun spec => spec.long = name
  match spec.takesValue, text.dropWhile (· ≠ '=') with
  | true, [] => some ⟨[], some spec.long⟩
  | true, _ :: value => some ⟨[(spec.long, some (String.ofList value))], none⟩
  | false, [] => some ⟨[(spec.long, none)], none⟩
  | false, _ => none

def dropEquals : List Char → List Char
  | '=' :: rest => rest
  | text => text

/-- Short options behind one dash; the first that takes a value takes the rest of the text. -/
def readShort? (specs : List OptionSpec) : List Char → Option Reading
  | [] => some ⟨[], none⟩
  | c :: rest => do
    let spec ← specs.find? fun spec => spec.short = some c
    if spec.takesValue then
      if rest = [] then some ⟨[], some spec.long⟩
      else some ⟨[(spec.long, some (String.ofList (dropEquals rest)))], none⟩
    else
      let more ← readShort? specs rest
      return ⟨(spec.long, none) :: more.given, more.pending⟩

def looksLikeOption (argument : String) : Bool :=
  argument.toList.head? = some '-' && argument ≠ "-"

def readArgument? (specs : List OptionSpec) (argument : String) : Option Reading :=
  match argument.toList with
  | '-' :: '-' :: text => readLong? specs text
  | '-' :: c :: text => readShort? specs (c :: text)
  | _ => none

/-- The options of a list of arguments; two dashes may stand at the end. -/
def readAll? (specs : List OptionSpec) : List String → Option (List Given)
  | [] => some []
  | argument :: rest =>
    if argument = "--" then if rest = [] then some [] else none
    else do
      let reading ← readArgument? specs argument
      match reading.pending, rest with
      | none, rest => return reading.given ++ (← readAll? specs rest)
      | some _, [] => none
      | some name, value :: rest =>
        if looksLikeOption value then none
        else return reading.given ++ (name, some value) :: (← readAll? specs rest)

def options? (specs : List OptionSpec) (arguments : List String) : Option (List Given) := do
  let given ← readAll? specs arguments
  if (given.map Prod.fst).Nodup then some given else none

def value? (given : List Given) (name : String) : Option String :=
  (given.lookup name).bind id

def isGiven (given : List Given) (name : String) : Bool :=
  (given.lookup name).isSome

def blocks? (given : List Given) : Option Nat :=
  match value? given "multi-pixel-out" with
  | none => some 1
  | some text => Text.parse? (2 ^ 64) text.toList

def ofName? (name : String) (arguments : List String) : Option Command :=
  if name = "pack" then do
    let given ← options? packSpecs arguments
    let input ← value? given "input"
    if isGiven given "generate-config" then some (generateConfig input)
    else some (pack input (value? given "config") (value? given "output"))
  else if name = "unpack" then do
    let given ← options? unpackSpecs arguments
    return unpack (← value? given "input") (value? given "config") (value? given "output")
  else if name = "inspect" then do
    let given ← options? inspectSpecs arguments
    return inspect (← value? given "input") (value? given "elem-type") (← blocks? given)
  else none

/-- The command of a list of arguments. Before its name only the option for more messages may
stand, and that once; it changes nothing that a command does. -/
def ofArguments? : List String → Option Command
  | [] => none
  | first :: rest =>
    if first = "-v" ∨ first = "--verbose" then
      match rest with
      | [] => none
      | name :: arguments => ofName? name arguments
    else ofName? first rest

end Command

end Bitpack
