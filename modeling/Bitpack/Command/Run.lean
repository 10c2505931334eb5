import Bitpack.Command.Arguments
import Bitpack.Config
import Bitpack.Packing.Replay
import Bitpack.WordFile

/-!
The commands: packing an array file into a file of words, unpacking it, describing an array file and
writing a configuration for it.
-/
namespace Bitpack

/-- What a command was about when it failed. -/
inductive Context where
  | configRequired
  | configUnread (path : String)
  | configMalformed (path : String)
  | loading (path : String)
  | shapeMismatch (path : String) (found expected : List Nat)
  | packing (path : String)
  | writing (path : String)
  | reading (path : String)
  | badWord (path : String) (line : Nat)
  | unpacking (path : String)
  deriving DecidableEq, Repr

/-- One link of the chain of causes of a failure. -/
inductive Cause where
  | context (context : Context)
  | error (error : Error)
  | json
  deriving DecidableEq, Repr

def configName : String := "stream_config.json"

def Context.message : Context → String
  | configRequired =>
    s!"--config is required. Use --generate-config to create {configName}"
  | configUnread path => s!"Failed to read config: {path}"
  | configMalformed path => s!"Failed to parse config: {path}"
  | loading path => s!"Failed to load: {path}"
  | shapeMismatch path found expected =>
    s!"Tensor shape {Text.shape found} in {path} does not match config shape {Text.shape expected}"
  | packing path => s!"Failed to pack: {path}"
  | writing path => s!"Failed to write: {path}"
  | reading path => s!"Failed to read: {path}"
  | badWord path line => s!"{path}:{line}: bad word"
  | unpacking path => s!"Failed to unpack: {path}"

def Cause.message : Cause → String
  | context c => c.message
  | error e => e.message
  | json => "malformed JSON"

/-- A command reads and writes files, prints, and fails with a chain of causes, the outermost
first. What it printed before it failed stays printed. -/
abbrev Console (m : Type → Type) := ExceptT (List Cause) (StateT String m)

namespace Console

variable [Platform] {m : Type → Type} [Monad m] [Files m]

def print (line : String) : Console m Unit :=
  modify fun printed => printed ++ line ++ "\n"

def ofExcept {α : Type} (context : List Context) : Except Error α → Console m α
  | .ok a => pure a
  | .error e => throw (if e.isPanic then [.error e] else context.map .context ++ [.error e])

/-- Work on files, with the context that a failure is reported in. -/
def files {α : Type} (context : List Context) (access : ExceptT Error m α) : Console m α := do
  ofExcept context (← ExceptT.lift (StateT.lift access.run))

def readText (context : Context) (path : String) : Console m String :=
  files [context] <| ExceptT.mk do
    match ← Files.read ⟨path⟩ with
    | .error fault => return .error (.io fault)
    | .ok bytes =>
      match Bytes.toText? bytes with
      | none => return .error (.io .invalidData)
      | some text => return .ok text

def writeText (context : List Context) (path text : String) : Console m Unit :=
  files context <| ExceptT.mk do
    return NpyArray.orIo (← Files.write ⟨path⟩ (Bytes.ofText text))

/-- Runs a job on words that are already queued; the words left in the queue are the result. -/
def runJob (context : Context) (items : List Word) (job : Packing.Job Word m Unit) :
    Console m (List Word) := do
  let (result, station) ← ExceptT.lift (StateT.lift (job.run ⟨items, []⟩))
  ofExcept [context] result
  return station.items

def loadConfig (path : Option String) : Console m Config := do
  match path with
  | none => throw [.context .configRequired]
  | some path =>
    let text ← readText (.configUnread path) path
    match Config.parse? text with
    | none => throw [.context (.configMalformed path), .json]
    | some config => return config

def load (path : String) : Console m NpyArray :=
  files [.loading path] (NpyArray.load ⟨path⟩)

def readWords (path : String) (width : Nat) : Console m (List Word) := do
  let text ← readText (.reading path) path
  match WordFile.read text width with
  | .ok words => return words
  | .error (line, e) => throw [.context (.badWord path line), .error e]

def pack (input : String) (configPath output : Option String) : Console m Unit := do
  let config ← loadConfig configPath
  let output := output.getD "words.txt"
  let array ← load input
  if array.shape ≠ config.shape then
    throw [.context (.shapeMismatch input array.shape config.shape)]
  let width ← ofExcept [] (Packing.wordBits config.shape config.element)
  let words ← runJob (.packing input) []
    (Packing.npyToWords config.dtype ⟨input⟩ config.element config.options)
  writeText [.writing output] output (WordFile.write words)
  print s!"Packed {words.length} word(s) of {width} bits"
  print s!"Output: {output}"

def unpack (input : String) (configPath output : Option String) : Console m Unit := do
  let config ← loadConfig configPath
  let output := output.getD "output.npy"
  let width ← ofExcept [] (Packing.wordBits config.shape config.element)
  let words ← readWords input width
  let _ ← runJob (.unpacking input) words
    (Packing.wordsToNpy config.dtype config.shape ⟨output⟩ config.element config.options)
  print s!"Unpacked {config.dtype.name} tensor with shape {Text.shape config.shape}"
  print s!"Output: {output}"

def inspect (input : String) (element : Option String) (blocks : Nat) : Console m Unit := do
  let array ← load input
  let dtype ← ofExcept [] array.dtype
  let element ← match element with
    | some text => ofExcept [] (ElementType.parse text)
    | none => pure (Config.defaultElement dtype)
  let layout ← ofExcept [] (Layout.ofShape array.shape blocks)
  print s!"File: {input}"
  print s!"  dtype: {dtype.name} ({array.header.descr.text})"
  print s!"  shape: {Text.shape array.shape}"
  print s!"  values: {array.valueCount}"
  print s!"Layout for {element.name}:"
  print s!"  outer positions: {layout.outer}"
  print s!"  inner per block: {layout.inner} x {layout.blocks} block(s)"
  let width ← ofExcept [] (layout.wordBits element.bits)
  print s!"  word width: {width} bits"

def generateConfig (input : String) : Console m Unit := do
  let array ← load input
  let dtype ← ofExcept [] array.dtype
  print s!"Found {dtype.name} tensor with shape {Text.shape array.shape}"
  let config := Config.ofFile dtype array.shape
  writeText [] configName config.prettyText
  print s!"\n=== Generated {configName} ==="
  print s!"Element type: {config.element.name}"
  print "\nEdit the config, then run:"
  print s!"  apstream pack --input {input} --config {configName}"

def execute : Command → Console m Unit
  | .pack input config output => pack input config output
  | .generateConfig input => generateConfig input
  | .unpack input config output => unpack input config output
  | .inspect input element blocks => inspect input element blocks

end Console

structure Exit where
  code : Nat
  printed : String
  failure : Option String
  deriving DecidableEq, Repr

def Cause.exit : List Cause → Nat × Option String
  | [] => (1, none)
  | .error e :: _ => if e.isPanic then (101, none) else (1, some e.message)
  | cause :: _ => (1, some cause.message)

/-- The program: arguments that are no command end it with code two, a failure with code one, and a
panic with code 101. -/
def program [Platform] {m : Type → Type} [Monad m] [Files m] (arguments : List String) : m Exit := do
  match Command.ofArguments? arguments with
  | none => return ⟨2, "", none⟩
  | some command =>
    let (result, printed) ← (Console.execute command).run ""
    match result with
    | .ok () => return ⟨0, printed, none⟩
    | .error causes =>
      let (code, failure) := Cause.exit causes
      return ⟨code, printed, failure⟩

end Bitpack
