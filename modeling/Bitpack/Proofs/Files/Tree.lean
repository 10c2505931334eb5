import Bitpack.Files.Tree
import Bitpack.Proofs.Files.Path
import Bitpack.Proofs.Outcome

/-!
Files in a tree. A path that leads to a place in a directory is read and written there, and writing a
file keeps every directory, so that paths lead where they led before.
-/
namespace Bitpack.FileTree

theorem lookup_filter_ne {entries : List (List String × FileEntry)} {place other : List String}
    (hne : other ≠ place) :
    (entries.filter fun entry => entry.1 ≠ place).lookup other = entries.lookup other := by
  induction entries with
  | nil => rfl
  | cons entry rest ih =>
      obtain ⟨key, value⟩ := entry
      by_cases hkey : key = place
      · rw [List.filter_cons_of_neg (by simpa using hkey), ih, List.lookup_cons,
          beq_eq_false_iff_ne.mpr (hkey ▸ hne)]
      · rw [List.filter_cons_of_pos (by simpa using hkey), List.lookup_cons, List.lookup_cons, ih]

theorem lookup_filter_self (entries : List (List String × FileEntry)) (place : List String) :
    (entries.filter fun entry => entry.1 ≠ place).lookup place = none := by
  rw [List.lookup_eq_none_iff]
  intro entry hentry
  have hkey := (List.mem_filter.mp hentry).2
  exact bne_iff_ne.mpr fun heq => of_decide_eq_true hkey heq.symm

theorem get?_erase {t : FileTree} {place : List String} (hplace : place ≠ [])
    (other : List String) :
    (t.erase place).get? other = if other = place then none else t.get? other := by
  unfold get? erase
  by_cases hroot : other = []
  · rw [if_pos hroot, if_pos hroot, if_neg (hroot ▸ hplace.symm)]
  · rw [if_neg hroot, if_neg hroot]
    by_cases hother : other = place
    · rw [if_pos hother, hother, lookup_filter_self]
    · rw [if_neg hother, lookup_filter_ne hother]

theorem get?_put {t : FileTree} {place : List String} (hplace : place ≠ []) (entry : FileEntry)
    (other : List String) :
    (t.put place entry).get? other = if other = place then some entry else t.get? other := by
  unfold put get?
  by_cases hroot : other = []
  · rw [if_pos hroot, if_pos hroot, if_neg (hroot ▸ hplace.symm)]
  · rw [if_neg hroot, if_neg hroot, List.lookup_cons]
    by_cases hother : other = place
    · rw [if_pos hother, beq_iff_eq.mpr hother]
    · rw [if_neg hother, beq_eq_false_iff_ne.mpr hother]
      exact lookup_filter_ne hother

/-- Both trees have the same directories, and the same one to start from. -/
structure SameDirectories (t t' : FileTree) : Prop where
  home_eq : t'.home = t.home
  directory_iff : ∀ place, t'.get? place = some .directory ↔ t.get? place = some .directory

theorem SameDirectories.refl (t : FileTree) : t.SameDirectories t :=
  ⟨rfl, fun _ => Iff.rfl⟩

theorem SameDirectories.trans {t₁ t₂ t₃ : FileTree} (h : t₁.SameDirectories t₂)
    (h' : t₂.SameDirectories t₃) : t₁.SameDirectories t₃ :=
  ⟨h'.home_eq.trans h.home_eq, fun place => (h'.directory_iff place).trans (h.directory_iff place)⟩

theorem SameDirectories.symm {t t' : FileTree} (h : t.SameDirectories t') : t'.SameDirectories t :=
  ⟨h.home_eq.symm, fun place => (h.directory_iff place).symm⟩

theorem sameDirectories_put {t : FileTree} {place : List String} (hplace : place ≠ [])
    (hfile : t.get? place ≠ some .directory) (content : Bytes) :
    t.SameDirectories (t.put place (.file content)) := by
  refine ⟨rfl, fun other => ?_⟩
  rw [get?_put hplace]
  by_cases hother : other = place
  · rw [if_pos hother, hother]
    exact iff_of_false (by simp) hfile
  · rw [if_neg hother]

theorem SameDirectories.walk_eq {t t' : FileTree} (h : t.SameDirectories t') {steps : List String}
    {place : List String} {target : Target} (hwalk : t.walk place steps = .ok target) :
    t'.walk place steps = .ok target := by
  fun_induction FileTree.walk t place steps with
  | case1 place => exact hwalk
  | case2 place rest ih => exact ih hwalk
  | case3 place name hname => 
      rw [walk]
      · exact hwalk
      · exact hname
  | case4 place name next rest hname hget => cases hwalk
  | case5 place name next rest hname content hget => cases hwalk
  | case6 place name next rest hname hget ih =>
      rw [walk, (h.directory_iff _).mpr hget]
      · exact ih hwalk
      · exact hname

theorem SameDirectories.resolve_eq {t t' : FileTree} (h : t.SameDirectories t') {path : Path}
    {target : Target} (hresolve : t.resolve path = .ok target) : t'.resolve path = .ok target := by
  unfold resolve at hresolve ⊢
  split at hresolve
  · cases hresolve
  · rename_i htext
    rw [if_neg htext, h.home_eq]
    exact h.walk_eq hresolve

/-- A path leads to a place if it names an entry of an existing directory, as only a file is named. -/
structure Leads (t : FileTree) (path : Path) (place : List String) : Prop where
  resolve_eq : t.resolve path = .ok (.entry place)
  asFile : path.endsAsDirectory = false

theorem SameDirectories.leads {t t' : FileTree} (h : t.SameDirectories t') {path : Path}
    {place : List String} (hpath : t.Leads path place) : t'.Leads path place :=
  ⟨h.resolve_eq hpath.resolve_eq, hpath.asFile⟩

theorem exists_of_walk {t : FileTree} {steps : List String} {start place : List String}
    (hwalk : t.walk start steps = .ok (.entry place)) :
    ∃ init name directory, steps = init ++ [name] ∧ name ≠ ".." ∧ place = directory ++ [name] ∧
      ∀ other, other ≠ ".." → t.walk start (init ++ [other]) = .ok (.entry (directory ++ [other])) := by
  fun_induction FileTree.walk t start steps with
  | case1 start => cases hwalk
  | case2 start rest ih =>
      obtain ⟨init, name, directory, rfl, hname, rfl, hother⟩ := ih hwalk
      exact ⟨".." :: init, name, directory, rfl, hname, rfl, hother⟩
  | case3 start name hname =>
      cases hwalk
      refine ⟨[], name, start, rfl, hname, rfl, fun other hother => ?_⟩
      rw [List.nil_append, walk]
      exact hother
  | case4 start name next rest hname hget => cases hwalk
  | case5 start name next rest hname content hget => cases hwalk
  | case6 start name next rest hname hget ih =>
      obtain ⟨init, last, directory, hsteps, hlast, rfl, hother⟩ := ih hwalk
      refine ⟨name :: init, last, directory, by rw [hsteps]; rfl, hlast, rfl, fun other hne => ?_⟩
      obtain ⟨head, tail, htail⟩ := List.exists_cons_of_ne_nil (show init ++ [other] ≠ [] by simp)
      have hrest := hother other hne
      rw [htail] at hrest
      rw [List.cons_append, htail, walk, hget]
      · exact hrest
      · exact hname

theorem Leads.ne_nil {t : FileTree} {path : Path} {place : List String} (h : t.Leads path place) :
    place ≠ [] := by
  have hresolve := h.resolve_eq
  unfold resolve at hresolve
  split at hresolve
  · cases hresolve
  · obtain ⟨init, name, directory, _, _, rfl, _⟩ := exists_of_walk hresolve
    simp

theorem Leads.unique {t : FileTree} {path : Path} {place place' : List String}
    (h : t.Leads path place) (h' : t.Leads path place') : place = place' := by
  have heq := h.resolve_eq.symm.trans h'.resolve_eq
  cases heq
  rfl

theorem Leads.exists_sibling {t : FileTree} {path : Path} {place : List String}
    (h : t.Leads path place) :
    ∃ name directory, path.fileName? = some name ∧ Path.IsName name ∧ place = directory ++ [name] ∧
      ∀ other, Path.IsName other → other ≠ ".." →
        t.Leads (path.sibling other) (directory ++ [other]) := by
  have hresolve := h.resolve_eq
  unfold resolve at hresolve
  split at hresolve
  · cases hresolve
  · obtain ⟨init, name, directory, hsteps, hname, rfl, hother⟩ := exists_of_walk hresolve
    have hmem : name ∈ path.steps := by
      rw [hsteps]
      exact List.mem_append_right _ List.mem_cons_self
    refine ⟨name, directory, Path.fileName?_eq_some hsteps hname, Path.isName_of_mem_steps hmem, rfl,
      fun other hisName hne => ⟨?_, Path.endsAsDirectory_sibling hisName⟩⟩
    unfold resolve
    rw [if_neg (Path.text_sibling_ne hisName), Path.isAbsolute_sibling hisName,
      Path.steps_sibling hisName, hsteps, List.dropLast_concat]
    exact hother other hne

theorem content_eq_ok_iff {t : FileTree} {place : List String} {content : Bytes} :
    t.content place = .ok content ↔ t.get? place = some (.file content) := by
  unfold FileTree.content
  cases t.get? place with
  | none => simp
  | some entry => cases entry <;> simp

theorem locate_eq_ok_iff {t : FileTree} {path : Path} {place : List String} {content : Bytes} :
    t.locate path = .ok (place, content) ↔
      t.Leads path place ∧ t.get? place = some (.file content) := by
  unfold locate
  rw [bind_eq_ok_iff]
  constructor
  · rintro ⟨target, hresolve, htarget⟩
    cases target with
    | directory place => cases htarget
    | entry found =>
        obtain ⟨held, hheld, hmade⟩ := bind_eq_ok_iff.mp htarget
        split at hmade
        · cases hmade
        · rename_i hfile
          cases hmade
          exact ⟨⟨hresolve, Bool.eq_false_iff.mpr hfile⟩, content_eq_ok_iff.mp hheld⟩
  · rintro ⟨hpath, hcontent⟩
    refine ⟨_, hpath.resolve_eq, bind_eq_ok_iff.mpr ⟨content, content_eq_ok_iff.mpr hcontent, ?_⟩⟩
    rw [hpath.asFile]
    rfl

theorem read_eq_ok_iff {t : FileTree} {path : Path} {content : Bytes} :
    t.read path = .ok content ↔
      ∃ place, t.Leads path place ∧ t.get? place = some (.file content) := by
  unfold read
  rw [bind_eq_ok_iff]
  constructor
  · rintro ⟨⟨place, held⟩, hlocate, heq⟩
    cases heq
    exact ⟨place, locate_eq_ok_iff.mp hlocate⟩
  · rintro ⟨place, hplace⟩
    exact ⟨(place, content), locate_eq_ok_iff.mpr hplace, rfl⟩

theorem SameDirectories.read_eq {t t' : FileTree} (h : t.SameDirectories t') {path : Path}
    {content : Bytes} (hread : t.read path = .ok content)
    (hkept : ∀ place, t.Leads path place → t'.get? place = t.get? place) :
    t'.read path = .ok content := by
  obtain ⟨place, hpath, hcontent⟩ := read_eq_ok_iff.mp hread
  exact read_eq_ok_iff.mpr ⟨place, h.leads hpath, (hkept place hpath).trans hcontent⟩

theorem write_eq_ok_iff {t t' : FileTree} {path : Path} {content : Bytes} :
    t.write path content = .ok t' ↔
      ∃ place, t.Leads path place ∧ t.get? place ≠ some .directory ∧
        t' = t.put place (.file content) := by
  unfold write
  rw [bind_eq_ok_iff]
  constructor
  · rintro ⟨target, hresolve, htarget⟩
    cases target with
    | directory place => cases htarget
    | entry place =>
        dsimp only at htarget
        split at htarget
        · cases htarget
        · split at htarget
          · cases htarget
          · rename_i hfile
            cases htarget
            rw [not_or] at hfile
            exact ⟨place, ⟨hresolve, Bool.eq_false_iff.mpr hfile.1⟩, hfile.2, rfl⟩
  · rintro ⟨place, hpath, hfile, rfl⟩
    refine ⟨_, hpath.resolve_eq, ?_⟩
    dsimp only
    rw [Path.endsInDot_eq_false hpath.asFile, if_neg (by decide), if_neg]
    rw [hpath.asFile, not_or]
    exact ⟨by decide, hfile⟩

theorem remove_eq_ok_iff {t t' : FileTree} {path : Path} :
    t.remove path = .ok t' ↔
      ∃ place content, t.Leads path place ∧ t.get? place = some (.file content) ∧
        t' = t.erase place := by
  unfold remove
  rw [bind_eq_ok_iff]
  constructor
  · rintro ⟨⟨place, content⟩, hlocate, heq⟩
    cases heq
    obtain ⟨hpath, hcontent⟩ := locate_eq_ok_iff.mp hlocate
    exact ⟨place, content, hpath, hcontent, rfl⟩
  · rintro ⟨place, content, hpath, hcontent, rfl⟩
    exact ⟨(place, content), locate_eq_ok_iff.mpr ⟨hpath, hcontent⟩, rfl⟩

theorem rename_eq_ok_iff {t t' : FileTree} {source target : Path} :
    t.rename source target = .ok t' ↔
      ∃ old place content, t.Leads source old ∧ t.get? old = some (.file content) ∧
        t.Leads target place ∧ t.get? place ≠ some .directory ∧
        t' = (t.erase old).put place (.file content) := by
  unfold rename
  rw [bind_eq_ok_iff]
  constructor
  · rintro ⟨⟨old, content⟩, hlocate, hmoved⟩
    obtain ⟨hsource, hcontent⟩ := locate_eq_ok_iff.mp hlocate
    obtain ⟨found, hresolve, hfound⟩ := bind_eq_ok_iff.mp hmoved
    cases found with
    | directory place => cases hfound
    | entry place =>
        dsimp only at hfound
        split at hfound
        · cases hfound
        · split at hfound
          · cases hfound
          · rename_i hending
            split at hfound
            · cases hfound
            · rename_i hfile
              cases hfound
              exact ⟨old, place, content, hsource, hcontent,
                ⟨hresolve, Bool.eq_false_iff.mpr hending⟩, hfile, rfl⟩
  · rintro ⟨old, place, content, hsource, hcontent, htarget, hfile, rfl⟩
    refine ⟨(old, content), locate_eq_ok_iff.mpr ⟨hsource, hcontent⟩, bind_eq_ok_iff.mpr
      ⟨_, htarget.resolve_eq, ?_⟩⟩
    dsimp only
    rw [Path.endsInDot_eq_false htarget.asFile, htarget.asFile, if_neg (by decide),
      if_neg (by decide), if_neg hfile]

/-- Whether a file can be created or replaced under a path, whatever its content. -/
def Writable (t : FileTree) (path : Path) : Prop :=
  ∃ place, t.Leads path place ∧ t.get? place ≠ some .directory

theorem Writable.write_eq {t : FileTree} {path : Path} (hpath : t.Writable path) (content : Bytes) :
    ∃ place, t.Leads path place ∧
      t.write path content = .ok (t.put place (.file content)) ∧
      t.SameDirectories (t.put place (.file content)) := by
  obtain ⟨place, hleads, hfile⟩ := hpath
  exact ⟨place, hleads, write_eq_ok_iff.mpr ⟨place, hleads, hfile, rfl⟩,
    sameDirectories_put hleads.ne_nil hfile content⟩

theorem Writable.of_sameDirectories {t t' : FileTree} {path : Path} (hpath : t.Writable path)
    (hsame : t.SameDirectories t') : t'.Writable path := by
  obtain ⟨place, hleads, hfile⟩ := hpath
  exact ⟨place, hsame.leads hleads,
    fun hdirectory => hfile ((hsame.directory_iff _).mp hdirectory)⟩

theorem Writable.resolve_ne {t t' : FileTree} {path other : Path} (hpath : t.Writable path)
    (hother : t.Writable other) (hsame : t.SameDirectories t')
    (hdistinct : t.resolve path ≠ t.resolve other) : t'.resolve path ≠ t'.resolve other := by
  obtain ⟨place, hleads, -⟩ := hpath
  obtain ⟨otherPlace, hotherLeads, -⟩ := hother
  rw [hsame.resolve_eq hleads.resolve_eq, hsame.resolve_eq hotherLeads.resolve_eq,
    ← hleads.resolve_eq, ← hotherLeads.resolve_eq]
  exact hdistinct

theorem SameDirectories.read_put {t : FileTree} {path other : Path} {place : List String}
    {content held : Bytes} (hsame : t.SameDirectories (t.put place (.file content)))
    (hread : t.read path = .ok held) (hother : t.Leads other place)
    (hdistinct : t.resolve path ≠ t.resolve other) :
    (t.put place (.file content)).read path = .ok held := by
  refine hsame.read_eq hread fun found hfound => ?_
  have hne : found ≠ place := by
    rintro rfl
    exact hdistinct (hfound.resolve_eq.trans hother.resolve_eq.symm)
  rw [get?_put hother.ne_nil, if_neg hne]

theorem Writable.exists_written {t : FileTree} {path : Path} (hpath : t.Writable path)
    (content : Bytes) :
    ∃ t', t.write path content = .ok t' ∧ t.SameDirectories t' ∧ t'.read path = .ok content ∧
      ∀ other held, t.read other = .ok held → t.resolve other ≠ t.resolve path →
        t'.read other = .ok held := by
  obtain ⟨place, hleads, hwrite, hsame⟩ := hpath.write_eq content
  refine ⟨_, hwrite, hsame, ?_, fun other held hread hdistinct =>
    hsame.read_put hread hleads hdistinct⟩
  exact read_eq_ok_iff.mpr ⟨place, hsame.leads hleads, by rw [get?_put hleads.ne_nil, if_pos rfl]⟩

end Bitpack.FileTree
