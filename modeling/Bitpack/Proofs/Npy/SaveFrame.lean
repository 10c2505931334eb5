import Bitpack.Proofs.Npy.Store

/-!
What saving changes. An array goes to its place through a hidden name beside it, and nothing else in the
tree is touched, whether saving succeeds or not. The hidden name is the price: whatever stood under it
is gone once the file was created there.
-/
namespace Bitpack.NpyArray

variable {t : FileTree} {path hidden : Path} {place : List String}

theorem hiddenPlace_ne (hleads : t.Leads path place) : hiddenPlace place ≠ place := by
  obtain ⟨name, directory, -, -, rfl, -⟩ := hleads.exists_sibling
  rw [hiddenPlace_append]
  intro heq
  have hname : hiddenName name = name := by simpa using heq
  have hlength := congrArg (fun text => text.toList.length) hname
  simp only [hiddenName, String.toList_append, List.length_append] at hlength
  have hdot : 0 < ".".toList.length := by decide
  omega

theorem stage_run_of_refused (hhidden : ¬t.Writable hidden) (content : Except Error Bytes) :
    ∃ e, (stage hidden content : ExceptT Error (StateM FileTree) Unit).run t = (.error e, t) := by
  have hwrite : ∃ fault, t.write hidden (content.toOption.getD []) = .error fault := by
    cases hresult : t.write hidden (content.toOption.getD []) with
    | error fault => exact ⟨fault, rfl⟩
    | ok t' =>
        obtain ⟨place, hleads, hfile, -⟩ := FileTree.write_eq_ok_iff.mp hresult
        exact absurd ⟨place, hleads, hfile⟩ hhidden
  have hremove : ∃ fault, t.remove hidden = .error fault := by
    cases hresult : t.remove hidden with
    | error fault => exact ⟨fault, rfl⟩
    | ok t' =>
        obtain ⟨place, held, hleads, hheld, -⟩ := FileTree.remove_eq_ok_iff.mp hresult
        exact absurd ⟨place, hleads, by simp [hheld]⟩ hhidden
  obtain ⟨fault, hfault⟩ := hwrite
  obtain ⟨fault', hfault'⟩ := hremove
  have hcreated : (Files.write hidden (content.toOption.getD []) :
      StateM FileTree (Except IoError Unit)) t = (.error fault, t) :=
    update_run_of_error hfault
  have hremoved : (Files.remove hidden : StateM FileTree (Except IoError Unit)) t =
      (.error fault', t) :=
    update_run_of_error hfault'
  refine ⟨.io fault, ?_⟩
  unfold stage
  rw [ExceptT.run_mk, stateM_bind, hcreated]
  dsimp only [orIo]
  rw [stateM_bind, hremoved]
  rfl

theorem stage_run_of_error (hleads : t.Leads hidden place) (hfile : t.get? place ≠ some .directory)
    (e : Error) :
    (stage hidden (.error e) : ExceptT Error (StateM FileTree) Unit).run t =
      (.error e, (t.put place (.file [])).erase place) := by
  have hsame := FileTree.sameDirectories_put hleads.ne_nil hfile []
  have hcreated : (Files.write hidden ((Except.error e : Except Error Bytes).toOption.getD []) :
      StateM FileTree (Except IoError Unit)) t = (.ok (), t.put place (.file [])) :=
    update_run (FileTree.write_eq_ok_iff.mpr ⟨place, hleads, hfile, rfl⟩)
  have hremoved : (Files.remove hidden : StateM FileTree (Except IoError Unit))
      (t.put place (.file [])) = (.ok (), (t.put place (.file [])).erase place) :=
    update_run (FileTree.remove_eq_ok_iff.mpr ⟨place, [], hsame.leads hleads,
      by rw [FileTree.get?_put hleads.ne_nil, if_pos rfl], rfl⟩)
  unfold stage
  rw [ExceptT.run_mk, stateM_bind, hcreated]
  dsimp only [orIo]
  rw [stateM_bind, hremoved]
  rfl

/-- Every way in which saving can end: with its result and the tree that it leaves. -/
inductive SaveEnds (t : FileTree) (path : Path) :
    Except Error Bytes → Except Error Unit → FileTree → Prop
  | unnamed {content : Except Error Bytes} (hname : path.fileName? = none) :
      SaveEnds t path content (.error (.format (.notAFile path.text))) t
  | refused {content : Except Error Bytes} {name : String} {e : Error}
      (hname : path.fileName? = some name)
      (hhidden : ¬t.Writable (path.sibling (hiddenName name))) :
      SaveEnds t path content (.error e) t
  | discarded {name : String} {place : List String} {e : Error}
      (hname : path.fileName? = some name)
      (hleads : t.Leads (path.sibling (hiddenName name)) place)
      (hfile : t.get? place ≠ some .directory) :
      SaveEnds t path (.error e) (.error e) ((t.put place (.file [])).erase place)
  | stuck {name : String} {place : List String} {content : Bytes} {fault : IoError}
      (hname : path.fileName? = some name)
      (hleads : t.Leads (path.sibling (hiddenName name)) place)
      (hfile : t.get? place ≠ some .directory) :
      SaveEnds t path (.ok content) (.error (.io fault)) (t.put place (.file content))
  | moved {place : List String} {content : Bytes} (hleads : t.Leads path place)
      (hfile : t.get? place ≠ some .directory)
      (hhidden : t.get? (hiddenPlace place) ≠ some .directory) :
      SaveEnds t path (.ok content) (.ok ()) (saved t place content)

variable {d : Dtype} {shape : List Nat} {values : List (Scalar d)}

theorem save_run_of_unnamed (hname : path.fileName? = none) :
    (save path shape values : ExceptT Error (StateM FileTree) Unit).run t =
      (.error (.format (.notAFile path.text)), t) := by
  unfold save
  rw [hname]
  rfl

theorem save_run_of_stage_error {name : String} (hname : path.fileName? = some name) {e : Error}
    {t' : FileTree} (hstage : (stage (path.sibling (hiddenName name)) (write shape values) :
      ExceptT Error (StateM FileTree) Unit).run t = (.error e, t')) :
    (save path shape values : ExceptT Error (StateM FileTree) Unit).run t = (.error e, t') := by
  unfold save
  rw [hname]
  exact run_bind_of_error hstage

theorem moved_of_rename {name : String} (hname : path.fileName? = some name)
    (hhidden : t.Leads (path.sibling (hiddenName name)) place)
    (hfile : t.get? place ≠ some .directory) {content : Bytes} {t' : FileTree}
    (hrename : (t.put place (.file content)).rename (path.sibling (hiddenName name)) path = .ok t') :
    SaveEnds t path (.ok content) (.ok ()) t' := by
  have hsame := FileTree.sameDirectories_put hhidden.ne_nil hfile content
  obtain ⟨old, target, held, hold, hheld, htarget, htargetFile, rfl⟩ :=
    FileTree.rename_eq_ok_iff.mp hrename
  cases hold.unique (hsame.leads hhidden)
  rw [FileTree.get?_put hhidden.ne_nil, if_pos rfl] at hheld
  cases hheld
  -- The hidden file is no directory, so the target leads where it led before; its sibling is beside it.
  have hleads := hsame.symm.leads htarget
  obtain ⟨name', directory, hname', hisName, rfl, hsibling⟩ := hleads.exists_sibling
  cases hname.symm.trans hname'
  obtain ⟨hisHidden, hup⟩ := isName_hiddenName hisName
  have hplace := hhidden.unique (hsibling _ hisHidden hup)
  rw [← hiddenPlace_append] at hplace
  subst hplace
  exact .moved hleads (fun hdirectory => htargetFile ((hsame.directory_iff _).mpr hdirectory)) hfile

theorem save_ends {result : Except Error Unit} {t' : FileTree}
    (hrun : (save path shape values : ExceptT Error (StateM FileTree) Unit).run t = (result, t')) :
    SaveEnds t path (write shape values) result t' := by
  cases hname : path.fileName? with
  | none =>
      cases (save_run_of_unnamed hname).symm.trans hrun
      exact .unnamed hname
  | some name =>
      by_cases hhidden : t.Writable (path.sibling (hiddenName name))
      · obtain ⟨place, hleads, hfile⟩ := hhidden
        cases hwrite : write shape values with
        | error e =>
            have hstage := stage_run_of_error hleads hfile e
            rw [← hwrite] at hstage
            cases (save_run_of_stage_error hname hstage).symm.trans hrun
            exact .discarded hname hleads hfile
        | ok content =>
            have hwritten : t.write (path.sibling (hiddenName name)) content =
                .ok (t.put place (.file content)) :=
              FileTree.write_eq_ok_iff.mpr ⟨place, hleads, hfile, rfl⟩
            have hstage := stage_run hwritten
            rw [← hwrite] at hstage
            rw [save_run_of_staged hname hstage] at hrun
            cases hrename : (t.put place (.file content)).rename
                (path.sibling (hiddenName name)) path with
            | error fault =>
                rw [update_run_of_error hrename] at hrun
                cases hrun
                exact .stuck hname hleads hfile
            | ok moved =>
                rw [update_run hrename] at hrun
                cases hrun
                exact moved_of_rename hname hleads hfile hrename
      · obtain ⟨e, hstage⟩ := stage_run_of_refused hhidden (write shape values)
        cases (save_run_of_stage_error hname hstage).symm.trans hrun
        exact .refused hname hhidden

/-- What saving leaves, in every tree. After a success the path is read as the whole array, nothing is
left under the hidden name, and every other place is as it was. After an error every place but the
hidden one is as it was. The whole tree is, if the path has no file name or if no file can be created
under the hidden name; and where the values do not fill the shape, no file is left under it. -/
theorem save_touches_two_names {result : Except Error Unit} {t' : FileTree}
    (hrun : (save path shape values : ExceptT Error (StateM FileTree) Unit).run t = (result, t')) :
    (result = .ok () → ∃ place content, t.Leads path place ∧ write shape values = .ok content ∧
      t'.read path = .ok content ∧ t'.get? (hiddenPlace place) = none ∧ t'.home = t.home ∧
      ∀ other, other ≠ place → other ≠ hiddenPlace place → t'.get? other = t.get? other) ∧
    ∀ e, result = .error e →
      (path.fileName? = none → t' = t) ∧
      ∀ name, path.fileName? = some name →
        (¬t.Writable (path.sibling (hiddenName name)) → t' = t) ∧
        ∀ place, t.Leads (path.sibling (hiddenName name)) place → t'.home = t.home ∧
          (∀ other, other ≠ place → t'.get? other = t.get? other) ∧
          ∀ fault, write shape values = .error fault → t.get? place ≠ some .directory →
            t'.get? place = none := by
  have hends := save_ends hrun
  generalize write shape values = content at hends ⊢
  refine ⟨?_, ?_⟩
  · rintro rfl
    cases hends with
    | @moved place content hleads hfile hhidden =>
        have hsame := sameDirectories_saved hleads.ne_nil hfile hhidden content
        have hget := get?_saved (t := t) hleads.ne_nil content
        refine ⟨place, content, hleads, rfl, ?_, ?_, rfl, ?_⟩
        · exact FileTree.read_eq_ok_iff.mpr ⟨place, hsame.leads hleads, by rw [hget, if_pos rfl]⟩
        · rw [hget, if_neg (hiddenPlace_ne hleads), if_pos rfl]
        · intro other hplace hbeside
          rw [hget, if_neg hplace, if_neg hbeside]
  · rintro e rfl
    cases hends with
    | unnamed hname =>
        exact ⟨fun _ => rfl, fun name hname' => by simp [hname] at hname'⟩
    | refused hname hhidden =>
        refine ⟨fun _ => rfl, fun name hname' => ⟨fun _ => rfl, fun place hleads =>
          ⟨rfl, fun _ _ => rfl, fun _ _ hfile => ?_⟩⟩⟩
        cases hname.symm.trans hname'
        exact absurd ⟨place, hleads, hfile⟩ hhidden
    | @discarded name hidden e hname hleads hfile =>
        refine ⟨fun hnone => by simp [hname] at hnone, fun name' hname' => ?_⟩
        cases hname.symm.trans hname'
        refine ⟨fun hhidden => absurd ⟨_, hleads, hfile⟩ hhidden, fun place hplace => ?_⟩
        cases hleads.unique hplace
        have hget := FileTree.get?_erase (t := t.put hidden (.file [])) hleads.ne_nil
        refine ⟨rfl, fun other hother => ?_, fun _ _ _ => by rw [hget, if_pos rfl]⟩
        rw [hget, if_neg hother, FileTree.get?_put hleads.ne_nil, if_neg hother]
    | stuck hname hleads hfile =>
        refine ⟨fun hnone => by simp [hname] at hnone, fun name' hname' => ?_⟩
        cases hname.symm.trans hname'
        refine ⟨fun hhidden => absurd ⟨_, hleads, hfile⟩ hhidden, fun place hplace => ?_⟩
        cases hleads.unique hplace
        refine ⟨rfl, fun other hother => ?_, fun _ hwrite => nomatch hwrite⟩
        rw [FileTree.get?_put hleads.ne_nil, if_neg hother]

def crowded : FileTree :=
  ⟨[(["x.npy"], .file [1]), ([".x.npy.tmp"], .file [2]), (["y.npy"], .file [3])], []⟩

def saveByte (shape : List Nat) : Except Error Unit × FileTree :=
  (save ⟨"x.npy"⟩ shape ([5] : List (Scalar (.uint .one))) :
    ExceptT Error (StateM FileTree) Unit).run crowded

theorem save_touches_two_names_crowded :
    ((saveByte [1]).1 = .ok () ∧ (saveByte [1]).2.get? [".x.npy.tmp"] = none ∧
        (saveByte [1]).2.get? ["y.npy"] = some (.file [3])) ∧
      (saveByte [2]).1 = .error (.shape (.count [2] 2 1)) ∧
        (saveByte [2]).2.get? ["x.npy"] = some (.file [1]) ∧
        (saveByte [2]).2.get? ["y.npy"] = some (.file [3]) := by
  have hleads : crowded.Leads ⟨"x.npy"⟩ ["x.npy"] := ⟨rfl, by decide⟩
  have hhidden : crowded.Leads ⟨".x.npy.tmp"⟩ [".x.npy.tmp"] := ⟨rfl, by decide⟩
  have hsaved : (saveByte [1]).1 = .ok () := rfl
  have hrefused : (saveByte [2]).1 = .error (.shape (.count [2] 2 1)) := rfl
  refine ⟨⟨hsaved, ?_⟩, hrefused, ?_⟩
  · have hrun : saveByte [1] = (.ok (), (saveByte [1]).2) := by rw [← hsaved]
    obtain ⟨place, content, hplace, -, -, hgone, -, hothers⟩ :=
      (save_touches_two_names hrun).1 rfl
    cases hplace.unique hleads
    exact ⟨hgone, hothers _ (by decide) (by decide)⟩
  · have hrun : saveByte [2] = (.error (.shape (.count [2] 2 1)), (saveByte [2]).2) := by
      rw [← hrefused]
    obtain ⟨-, hnamed⟩ := (save_touches_two_names hrun).2 _ rfl
    obtain ⟨-, hothers, -⟩ := (hnamed "x.npy" rfl).2 _ hhidden
    exact ⟨hothers _ (by decide), hothers _ (by decide)⟩

/-- A file that stands under the hidden name is lost when the array is saved, and also when it is
refused. -/
theorem save_replaces_hidden_file :
    crowded.get? [".x.npy.tmp"] = some (.file [2]) ∧
      ((saveByte [1]).1 = .ok () ∧ (saveByte [1]).2.get? [".x.npy.tmp"] = none) ∧
      (saveByte [2]).1 = .error (.shape (.count [2] 2 1)) ∧
        (saveByte [2]).2.get? [".x.npy.tmp"] = none :=
  ⟨rfl, ⟨rfl, by decide +kernel⟩, rfl, by decide +kernel⟩

end Bitpack.NpyArray
