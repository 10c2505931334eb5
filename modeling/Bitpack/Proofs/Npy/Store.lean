import Bitpack.Npy.Store
import Bitpack.Proofs.Files.Tree
import Bitpack.Proofs.Npy.Array

/-!
Saved arrays. Where a path and the hidden name beside it can be written, saving leaves the whole file
under the path, nothing under the hidden name, and every other place as it was.
-/
namespace Bitpack.NpyArray

theorem isName_hiddenName {name : String} (hname : Path.IsName name) :
    Path.IsName (hiddenName name) ∧ hiddenName name ≠ ".." := by
  have hchars : (hiddenName name).toList = '.' :: (name.toList ++ ['.', 't', 'm', 'p']) := by
    unfold hiddenName
    rw [String.toList_append, String.toList_append]
    rfl
  have hlong : ∀ other : String, other.toList.length < 5 → hiddenName name ≠ other := by
    intro other hshort heq
    rw [← heq, hchars, List.length_cons, List.length_append] at hshort
    exact absurd hshort (by simp)
  refine ⟨⟨hlong "" (by decide), hlong "." (by decide), ?_⟩, hlong ".." (by decide)⟩
  rw [hchars, List.mem_cons, List.mem_append]
  rintro (hdot | hslash | htail)
  · exact absurd hdot (by decide)
  · exact hname.slash_not_mem hslash
  · exact absurd htail (by decide)

def hiddenPlace (place : List String) : List String :=
  place.dropLast ++ [hiddenName (place.getLast?.getD "")]

theorem hiddenPlace_append (directory : List String) (name : String) :
    hiddenPlace (directory ++ [name]) = directory ++ [hiddenName name] := by
  unfold hiddenPlace
  rw [List.dropLast_concat, List.getLast?_concat, Option.getD_some]

/-- Whether an array can be saved under a path: neither the place that it leads to nor the hidden one
beside it is a directory. -/
def Savable (t : FileTree) (path : Path) : Prop :=
  ∃ place, t.Leads path place ∧ t.get? place ≠ some .directory ∧
    t.get? (hiddenPlace place) ≠ some .directory

theorem Savable.of_sameDirectories {t t' : FileTree} {path : Path} (hpath : Savable t path)
    (hsame : t.SameDirectories t') : Savable t' path := by
  obtain ⟨place, hleads, hfile, hhidden⟩ := hpath
  exact ⟨place, hsame.leads hleads,
    fun hdirectory => hfile ((hsame.directory_iff _).mp hdirectory),
    fun hdirectory => hhidden ((hsame.directory_iff _).mp hdirectory)⟩

theorem orIo_eq_ok_iff {α : Type} {x : Except IoError α} {a : α} :
    orIo x = .ok a ↔ x = .ok a := by
  cases x <;> simp [orIo]

theorem load_run_eq_ok_iff {path : Path} {t t' : FileTree} {a : NpyArray} :
    (load path : ExceptT Error (StateM FileTree) NpyArray).run t = (.ok a, t') ↔
      (∃ bytes, t.read path = .ok bytes ∧ read bytes = .ok a) ∧ t = t' := by
  have hrun : (load path : ExceptT Error (StateM FileTree) NpyArray).run t =
      (orIo (t.read path) >>= read, t) := rfl
  rw [hrun, Prod.mk.injEq, bind_eq_ok_iff]
  simp only [orIo_eq_ok_iff]

/-- The tree after a file was written under the hidden name of a place and moved over the place. -/
def saved (t : FileTree) (place : List String) (content : Bytes) : FileTree :=
  ((t.put (hiddenPlace place) (.file content)).erase (hiddenPlace place)).put place (.file content)

theorem hiddenPlace_ne_nil (place : List String) : hiddenPlace place ≠ [] := by
  unfold hiddenPlace
  simp

theorem get?_saved {t : FileTree} {place : List String} (hplace : place ≠ []) (content : Bytes)
    (other : List String) :
    (saved t place content).get? other =
      if other = place then some (.file content)
      else if other = hiddenPlace place then none
      else t.get? other := by
  unfold saved
  rw [FileTree.get?_put hplace, FileTree.get?_erase (hiddenPlace_ne_nil place),
    FileTree.get?_put (hiddenPlace_ne_nil place)]
  split
  · rfl
  · split
    · rfl
    · rfl

theorem sameDirectories_saved {t : FileTree} {place : List String} (hplace : place ≠ [])
    (hfile : t.get? place ≠ some .directory)
    (hhidden : t.get? (hiddenPlace place) ≠ some .directory) (content : Bytes) :
    t.SameDirectories (saved t place content) := by
  refine ⟨rfl, fun other => ?_⟩
  rw [get?_saved hplace]
  split
  · rename_i heq
    exact iff_of_false (by simp) (heq ▸ hfile)
  · split
    · rename_i heq
      exact iff_of_false (by simp) (heq ▸ hhidden)
    · exact Iff.rfl

theorem update_run {change : FileTree → Except IoError FileTree} {t t' : FileTree}
    (hchange : change t = .ok t') : FileTree.update change t = (.ok (), t') := by
  unfold FileTree.update
  rw [hchange]

theorem update_run_of_error {change : FileTree → Except IoError FileTree} {t : FileTree}
    {fault : IoError} (hchange : change t = .error fault) :
    FileTree.update change t = (.error fault, t) := by
  unfold FileTree.update
  rw [hchange]

theorem stage_run {t t' : FileTree} {hidden : Path} {content : Bytes}
    (hwritten : t.write hidden content = .ok t') :
    (stage hidden (.ok content) : ExceptT Error (StateM FileTree) Unit).run t = (.ok (), t') := by
  have hcreated : (Files.write hidden ((Except.ok content : Except Error Bytes).toOption.getD []) :
      StateM FileTree (Except IoError Unit)) t = (.ok (), t') :=
    update_run hwritten
  unfold stage
  rw [ExceptT.run_mk, stateM_bind, hcreated]
  rfl

theorem save_run_of_staged {d : Dtype} {t t' : FileTree} {path : Path} {name : String}
    (hname : path.fileName? = some name) {shape : List Nat} {values : List (Scalar d)}
    (hstage : (stage (path.sibling (hiddenName name)) (write shape values) :
      ExceptT Error (StateM FileTree) Unit).run t = (.ok (), t')) :
    (save path shape values : ExceptT Error (StateM FileTree) Unit).run t =
      (orIo (FileTree.update (fun t => t.rename (path.sibling (hiddenName name)) path) t').1,
        (FileTree.update (fun t => t.rename (path.sibling (hiddenName name)) path) t').2) := by
  have hmove : (ExceptT.lift (Files.rename (path.sibling (hiddenName name)) path) :
      ExceptT Error (StateM FileTree) (Except IoError Unit)).run t' = _ := run_lift _ t'
  unfold save
  rw [hname]
  dsimp only
  rw [run_bind_of_ok hstage, run_bind_of_ok hmove]
  rfl

theorem save_run {d : Dtype} {t : FileTree} {path : Path} {place : List String} {shape : List Nat}
    {values : List (Scalar d)} {content : Bytes} (hpath : t.Leads path place)
    (hfile : t.get? place ≠ some .directory)
    (hhidden : t.get? (hiddenPlace place) ≠ some .directory)
    (hwrite : write shape values = .ok content) :
    (save path shape values : ExceptT Error (StateM FileTree) Unit).run t =
      (.ok (), saved t place content) := by
  obtain ⟨name, directory, hname, hisName, hplace, hsibling⟩ := hpath.exists_sibling
  obtain ⟨hisHidden, hup⟩ := isName_hiddenName hisName
  have hbeside : hiddenPlace place = directory ++ [hiddenName name] := by
    rw [hplace, hiddenPlace_append]
  have hleads := hsibling _ hisHidden hup
  rw [← hbeside] at hleads
  have hsame := FileTree.sameDirectories_put hleads.ne_nil hhidden content
  have hstaged : t.write (path.sibling (hiddenName name)) content =
      .ok (t.put (hiddenPlace place) (.file content)) :=
    FileTree.write_eq_ok_iff.mpr ⟨_, hleads, hhidden, rfl⟩
  have hmoved := FileTree.rename_eq_ok_iff.mpr ⟨_, _, content, hsame.leads hleads,
    by rw [FileTree.get?_put hleads.ne_nil, if_pos rfl], hsame.leads hpath,
    fun hdirectory => hfile ((hsame.directory_iff place).mp hdirectory), rfl⟩
  have hstage := stage_run hstaged
  rw [← hwrite] at hstage
  rw [save_run_of_staged hname hstage, update_run hmoved]
  rfl

end Bitpack.NpyArray
