import Bitpack.Files.Path

/-!
Trees of files and directories held in memory. A place in a tree is the list of names that leads to
it from the root; the root itself is always a directory. Relative paths start at the working
directory.
-/
namespace Bitpack

inductive FileEntry where
  | file (content : Bytes)
  | directory
  deriving DecidableEq, Repr

structure FileTree where
  entries : List (List String × FileEntry)
  home : List String
  deriving DecidableEq, Repr

namespace FileTree

def empty (home : List String) : FileTree :=
  ⟨(List.range home.length).map fun i => (home.take (i + 1), .directory), home⟩

def get? (t : FileTree) (place : List String) : Option FileEntry :=
  if place = [] then some .directory else t.entries.lookup place

def erase (t : FileTree) (place : List String) : FileTree :=
  { t with entries := t.entries.filter fun entry => entry.1 ≠ place }

def put (t : FileTree) (place : List String) (entry : FileEntry) : FileTree :=
  { t with entries := (place, entry) :: (t.erase place).entries }

def names (t : FileTree) (place : List String) : List String :=
  let inside := t.entries.filterMap fun entry =>
    if entry.1.dropLast = place then entry.1.getLast? else none
  inside.mergeSort fun a b => decide (a ≤ b)

/-- Where a path leads: to a directory that it names by its steps alone, or to a name in a directory,
which may be there or not. -/
inductive Target where
  | directory (place : List String)
  | entry (place : List String)
  deriving DecidableEq, Repr

def walk (t : FileTree) (place : List String) : List String → Except IoError Target
  | [] => .ok (.directory place)
  | ".." :: rest => t.walk place.dropLast rest
  | [name] => .ok (.entry (place ++ [name]))
  | name :: next :: rest =>
    match t.get? (place ++ [name]) with
    | none => .error .notFound
    | some (.file _) => .error .notADirectory
    | some .directory => t.walk (place ++ [name]) (next :: rest)

def resolve (t : FileTree) (path : Path) : Except IoError Target :=
  if path.text = "" then .error .notFound
  else t.walk (if path.isAbsolute then [] else t.home) path.steps

def content (t : FileTree) (place : List String) : Except IoError Bytes :=
  match t.get? place with
  | none => .error .notFound
  | some .directory => .error .isADirectory
  | some (.file content) => .ok content

/-- The file that a path names; a file has no path that ends as that of a directory. -/
def locate (t : FileTree) (path : Path) : Except IoError (List String × Bytes) := do
  match ← t.resolve path with
  | .directory _ => .error .isADirectory
  | .entry place =>
    let content ← t.content place
    if path.endsAsDirectory then .error .notADirectory else .ok (place, content)

def read (t : FileTree) (path : Path) : Except IoError Bytes := do
  return (← t.locate path).2

/-- The refusal of a dot as the last piece, by what stands in front of it. -/
def dotFault (t : FileTree) (place : List String) (ofDirectory : IoError) : IoError :=
  match t.get? place with
  | none => .notFound
  | some (.file _) => .notADirectory
  | some .directory => ofDirectory

def write (t : FileTree) (path : Path) (content : Bytes) : Except IoError FileTree := do
  match ← t.resolve path with
  | .directory _ => .error .isADirectory
  | .entry place =>
    if path.endsInDot then .error (t.dotFault place .isADirectory)
    else if path.endsAsDirectory ∨ t.get? place = some .directory then .error .isADirectory
    else .ok (t.put place (.file content))

def remove (t : FileTree) (path : Path) : Except IoError FileTree := do
  return t.erase (← t.locate path).1

def rename (t : FileTree) (source target : Path) : Except IoError FileTree := do
  let (old, content) ← t.locate source
  match ← t.resolve target with
  | .directory _ => .error .resourceBusy
  | .entry place =>
    if target.endsInDot then .error (t.dotFault place .resourceBusy)
    else if target.endsAsDirectory then .error .notADirectory
    else if t.get? place = some .directory then .error .isADirectory
    else .ok ((t.erase old).put place (.file content))

def makeDirectory (t : FileTree) (path : Path) : Except IoError FileTree := do
  match ← t.resolve path with
  | .directory _ => .error .alreadyExists
  | .entry place =>
    match t.get? place with
    | none => .ok (t.put place .directory)
    | some _ => .error .alreadyExists

def update (change : FileTree → Except IoError FileTree) : StateM FileTree (Except IoError Unit) :=
  fun t =>
    match change t with
    | .ok t' => (.ok (), t')
    | .error fault => (.error fault, t)

instance : Files (StateM FileTree) where
  read path := fun t => (t.read path, t)
  write path content := update fun t => t.write path content
  remove path := update fun t => t.remove path
  rename source target := update fun t => t.rename source target

end FileTree

end Bitpack
