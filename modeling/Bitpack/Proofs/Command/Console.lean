import Bitpack.Command.Run
import Bitpack.Proofs.Bytes
import Bitpack.Proofs.Packing.Replay
import Bitpack.Proofs.WordFile

/-!
Steps of commands on a tree of files: what each of them gives where it succeeds.
-/
namespace Bitpack.Console

variable {α : Type} {t t' : FileTree} {printed : String}

theorem outcome_ofExcept {result : Except Error α} {a : α} (hresult : result = .ok a)
    (context : List Context) :
    outcome (ofExcept context result : Console (StateM FileTree) α) printed t =
      (.ok a, printed, t) := by
  rw [hresult]
  rfl

theorem outcome_print (line : String) :
    outcome (print line : Console (StateM FileTree) Unit) printed t =
      (.ok (), printed ++ line ++ "\n", t) :=
  rfl

theorem outcome_files_eq (context : List Context) (access : ExceptT Error (StateM FileTree) α) :
    outcome (files context access) printed t =
      outcome (ofExcept context (access.run t).1) printed (access.run t).2 := by
  unfold files
  rw [outcome_bind_of_ok (outcome_lift access.run printed t)]

theorem outcome_files {access : ExceptT Error (StateM FileTree) α} {a : α}
    (haccess : access.run t = (.ok a, t')) (context : List Context) :
    outcome (files context access) printed t = (.ok a, printed, t') := by
  rw [outcome_files_eq, haccess]
  exact outcome_ofExcept rfl context

theorem outcome_load {path : String} {array : NpyArray}
    (hload : (NpyArray.load ⟨path⟩ : ExceptT Error (StateM FileTree) NpyArray).run t =
      (.ok array, t)) :
    outcome (load path : Console (StateM FileTree) NpyArray) printed t = (.ok array, printed, t) :=
  outcome_files hload _

theorem outcome_readText {path text : String} {bytes : Bytes} (hread : t.read ⟨path⟩ = .ok bytes)
    (htext : Bytes.toText? bytes = some text) (context : Context) :
    outcome (readText context path : Console (StateM FileTree) String) printed t =
      (.ok text, printed, t) := by
  have hgiven : (Files.read ⟨path⟩ : StateM FileTree (Except IoError Bytes)) t = (.ok bytes, t) := by
    rw [← hread]
    rfl
  refine outcome_files ?_ [context]
  rw [ExceptT.run_mk, stateM_bind, hgiven]
  dsimp only
  rw [htext]
  rfl

theorem outcome_writeText {path text : String} (hwrite : t.write ⟨path⟩ (Bytes.ofText text) = .ok t')
    (context : List Context) :
    outcome (writeText context path text : Console (StateM FileTree) Unit) printed t =
      (.ok (), printed, t') := by
  have hwritten : (Files.write ⟨path⟩ (Bytes.ofText text) :
      StateM FileTree (Except IoError Unit)) t = (.ok (), t') :=
    NpyArray.update_run hwrite
  refine outcome_files ?_ context
  rw [ExceptT.run_mk, stateM_bind, hwritten]
  rfl

theorem outcome_runJob_eq {job : Packing.Job Word (StateM FileTree) Unit} {items items' : List Word}
    {result : Except Error Unit} (hjob : job.Ends items t result items' t') (context : Context) :
    outcome (runJob context items job) printed t =
      outcome (ofExcept [context] (result.map fun _ => items')) printed t' := by
  obtain ⟨events, hevents⟩ := hjob []
  have hlift : outcome (ExceptT.lift (StateT.lift (job.run ⟨items, []⟩)) :
      Console (StateM FileTree) (Except Error Unit × Packing.Station Word)) printed t =
        (.ok (result, ⟨items', events⟩), printed, t') := by
    have hrun : (job.run ⟨items, []⟩) t = ((result, ⟨items', events⟩), t') :=
      outcome_eq_iff.mp hevents
    rw [outcome_lift, hrun]
  unfold runJob
  rw [outcome_bind_of_ok hlift]
  cases result <;> rfl

theorem outcome_runJob {job : Packing.Job Word (StateM FileTree) Unit} {items items' : List Word}
    (hjob : job.Completes items t () items' t') (context : Context) :
    outcome (runJob context items job) printed t = (.ok items', printed, t') :=
  outcome_runJob_eq hjob context

/-- Whether a file of the tree holds a configuration. -/
def Configured (t : FileTree) (path : Path) (config : Config) : Prop :=
  ∃ bytes text, t.read path = .ok bytes ∧ Bytes.toText? bytes = some text ∧
    Config.parse? text = some config

theorem Configured.of_read {path : Path} {config : Config} (hconfig : Configured t path config)
    (hkept : ∀ content, t.read path = .ok content → t'.read path = .ok content) :
    Configured t' path config := by
  obtain ⟨content, text, hread, htext, hparse⟩ := hconfig
  exact ⟨content, text, hkept content hread, htext, hparse⟩

theorem outcome_loadConfig {path : String} {config : Config} (h : Configured t ⟨path⟩ config) :
    outcome (loadConfig (some path) : Console (StateM FileTree) Config) printed t =
      (.ok config, printed, t) := by
  obtain ⟨bytes, text, hread, htext, hparse⟩ := h
  unfold loadConfig
  dsimp only
  rw [outcome_bind_of_ok (outcome_readText hread htext _), hparse]
  rfl

theorem outcome_readWords_ok {path text : String} {words : List Word} {width : Nat}
    (hread : t.read ⟨path⟩ = .ok (Bytes.ofText text)) (hwords : WordFile.read text width = .ok words) :
    outcome (readWords path width : Console (StateM FileTree) (List Word)) printed t =
      (.ok words, printed, t) := by
  unfold readWords
  rw [outcome_bind_of_ok (outcome_readText hread (Bytes.toText?_ofText _) _), hwords]
  rfl

theorem outcome_readWords_error {path text : String} {width number : Nat} {e : Error}
    (hread : t.read ⟨path⟩ = .ok (Bytes.ofText text))
    (herror : WordFile.read text width = .error (number, e)) :
    outcome (readWords path width : Console (StateM FileTree) (List Word)) printed t =
      (.error [.context (.badWord path number), .error e], printed, t) := by
  unfold readWords
  rw [outcome_bind_of_ok (outcome_readText hread (Bytes.toText?_ofText _) _), herror]
  rfl

theorem outcome_readWords {path : String} {words : List Word} {width : Nat}
    (hread : t.read ⟨path⟩ = .ok (Bytes.ofText (WordFile.write words)))
    (hwords : ∀ w ∈ words, w.WellFormed ∧ w.width = width) :
    outcome (readWords path width : Console (StateM FileTree) (List Word)) printed t =
      (.ok words, printed, t) :=
  outcome_readWords_ok hread (WordFile.read_write hwords)

end Bitpack.Console
