import Bitpack.Files.Path
import Bitpack.Npy.Array

/-!
Array files by path. Saving writes a hidden file beside the target and moves it over the target at
the end, so that a reader never finds half an array.
-/
namespace Bitpack.NpyArray

variable {m : Type → Type} [Monad m] [Files m]

def orIo {α : Type} : Except IoError α → Except Error α
  | .ok a => .ok a
  | .error fault => .error (.io fault)

def load (path : Path) : ExceptT Error m NpyArray := ExceptT.mk do
  let content ← Files.read path
  return orIo content >>= read

def hiddenName (name : String) : String :=
  "." ++ name ++ ".tmp"

/-- Writes the hidden file; if that fails, or if there is nothing to write, it is removed. -/
def stage (hidden : Path) (content : Except Error Bytes) : ExceptT Error m Unit := ExceptT.mk do
  let created ← Files.write hidden (content.toOption.getD [])
  match orIo created, content with
  | .ok (), .ok _ => return .ok ()
  | .error e, _ => do
    let _ ← Files.remove hidden
    return .error e
  | .ok (), .error e => do
    let _ ← Files.remove hidden
    return .error e

def save {d : Dtype} (path : Path) (shape : List Nat) (values : List (Scalar d)) :
    ExceptT Error m Unit := do
  match path.fileName? with
  | none => throw (.format (.notAFile path.text))
  | some name =>
    let hidden := path.sibling (hiddenName name)
    stage hidden (write shape values)
    let moved ← ExceptT.lift (Files.rename hidden path)
    ExceptT.mk (pure (orIo moved))

end Bitpack.NpyArray
