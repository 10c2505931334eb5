import Bitpack.Command.Run

/-!
The command-line program on the files of the system.
-/
namespace Bitpack

def IoError.ofNumber (number : UInt32) : IoError :=
  if number = 1 ∨ number = 13 then .permissionDenied
  else if number = 2 then .notFound
  else if number = 16 then .resourceBusy
  else if number = 17 then .alreadyExists
  else if number = 20 then .notADirectory
  else if number = 21 then .isADirectory
  else if number = 22 then .invalidInput
  else .other

def IoError.ofSystem : IO.Error → IoError
  | .noFileOrDirectory .. => .notFound
  | .alreadyExists _ number _ => ofNumber number
  | .inappropriateType _ number _ => ofNumber number
  | .permissionDenied _ number _ => ofNumber number
  | .invalidArgument _ number _ => ofNumber number
  | .resourceBusy .. => .resourceBusy
  | .otherError number _ => ofNumber number
  | _ => .other

def attempt {α : Type} (action : IO α) : IO (Except IoError α) := do
  match ← action.toBaseIO with
  | .ok a => return .ok a
  | .error e => return .error (IoError.ofSystem e)

instance : Files IO where
  read path := attempt do return (← IO.FS.readBinFile path.text).data.toList
  write path content := attempt (IO.FS.writeBinFile path.text ⟨content.toArray⟩)
  remove path := attempt (IO.FS.removeFile path.text)
  rename source target := attempt (IO.FS.rename source.text target.text)

end Bitpack

section

open scoped Bitpack.Platform.Release

def main (arguments : List String) : IO UInt32 := do
  let exit : Bitpack.Exit ← Bitpack.program arguments
  IO.print exit.printed
  if let some message := exit.failure then IO.eprintln s!"Error: {message}"
  return exit.code.toUInt32

end
