import Bitpack.Files.Path

/-!
Paths as lists of steps. A sibling takes all steps of a path but the last.
-/
namespace Bitpack.Path

theorem splitSlash_eq_splitOn (text : List Char) : splitSlash text = text.splitOn '/' := by
  induction text with
  | nil => rfl
  | cons c rest ih =>
      rw [splitSlash, List.splitOn_cons_eq_if_modifyHead, ih]
      by_cases hc : c = '/'
      · rw [if_pos hc, if_pos (beq_iff_eq.mpr hc)]
      · rw [if_neg hc, if_neg (by rw [beq_iff_eq]; exact hc)]
        obtain ⟨piece, more, hsplit⟩ :=
          List.exists_cons_of_ne_nil (List.splitOn_ne_nil '/' rest)
        rw [hsplit]
        rfl

theorem slash_not_mem_of_mem_splitSlash {text piece : List Char} (hpiece : piece ∈ splitSlash text) :
    '/' ∉ piece := by
  induction text generalizing piece with
  | nil =>
      rw [splitSlash, List.mem_singleton] at hpiece
      rw [hpiece]
      exact List.not_mem_nil
  | cons c rest ih =>
      unfold splitSlash at hpiece
      split at hpiece
      · rcases List.mem_cons.mp hpiece with rfl | hpiece
        · exact List.not_mem_nil
        · exact ih hpiece
      · rename_i hc
        split at hpiece
        · rw [List.mem_singleton] at hpiece
          rw [hpiece, List.mem_singleton]
          exact fun heq => hc heq.symm
        · rename_i first more hsplit
          rcases List.mem_cons.mp hpiece with rfl | hmore
          · have hfirst := ih (hsplit ▸ List.mem_cons_self)
            rw [List.mem_cons]
            exact fun hmem => hmem.elim (fun heq => hc heq.symm) hfirst
          · exact ih (hsplit ▸ List.mem_cons_of_mem _ hmore)

/-- A text that can stand between two slashes and name a step. -/
structure IsName (name : String) : Prop where
  ne_empty : name ≠ ""
  ne_dot : name ≠ "."
  slash_not_mem : '/' ∉ name.toList

theorem isName_of_mem_steps {p : Path} {name : String} (hname : name ∈ p.steps) : IsName name := by
  obtain ⟨hpiece, hkept⟩ := List.mem_filter.mp hname
  rw [Bool.and_eq_true, decide_eq_true_eq, decide_eq_true_eq] at hkept
  obtain ⟨piece, hsplit, rfl⟩ := List.mem_map.mp hpiece
  refine ⟨hkept.1, hkept.2, ?_⟩
  rw [String.toList_ofList]
  exact slash_not_mem_of_mem_splitSlash hsplit

theorem filter_names {names : List String} (hnames : ∀ name ∈ names, IsName name) :
    (names.filter fun name => name ≠ "" && name ≠ ".") = names := by
  rw [List.filter_eq_self]
  intro name hname
  rw [Bool.and_eq_true, decide_eq_true_eq, decide_eq_true_eq]
  exact ⟨(hnames name hname).ne_empty, (hnames name hname).ne_dot⟩

theorem splitSlash_intercalate {names : List String} (hne : names ≠ [])
    (hnames : ∀ name ∈ names, IsName name) :
    (splitSlash ("/".intercalate names).toList).map String.ofList = names := by
  have hslash : "/".toList = ['/'] := by decide
  rw [splitSlash_eq_splitOn, String.toList_intercalate, hslash, List.splitOn_intercalate]
  · rw [List.map_map]
    exact List.map_id'' (fun name => String.ofList_toList) names
  · intro piece hpiece
    obtain ⟨name, hname, rfl⟩ := List.mem_map.mp hpiece
    exact (hnames name hname).slash_not_mem
  · simpa using hne

theorem exists_pieces_of_isAbsolute {p : Path} (hp : p.isAbsolute = true) :
    ∃ more, p.pieces = "" :: more := by
  unfold isAbsolute at hp
  rw [decide_eq_true_eq, List.head?_eq_some_iff] at hp
  obtain ⟨rest, htext⟩ := hp
  refine ⟨(splitSlash rest).map String.ofList, ?_⟩
  rw [pieces, htext, splitSlash, if_pos rfl]
  rfl

section Sibling

variable {p : Path} {name : String}

theorem isName_of_mem_siblingSteps (hname : IsName name) :
    ∀ step ∈ p.steps.dropLast ++ [name], IsName step := by
  intro step hstep
  rcases List.mem_append.mp hstep with hstep | hstep
  · exact isName_of_mem_steps (List.dropLast_subset _ hstep)
  · rw [List.mem_singleton.mp hstep]
    exact hname

theorem pieces_sibling (hname : IsName name) :
    (p.sibling name).pieces =
      (if p.isAbsolute then [""] else []) ++ (p.steps.dropLast ++ [name]) := by
  have hsplit := splitSlash_intercalate (show p.steps.dropLast ++ [name] ≠ [] by simp)
    (isName_of_mem_siblingSteps hname)
  unfold pieces sibling
  cases p.isAbsolute with
  | false => simpa using hsplit
  | true =>
      have htext : ("/" ++ "/".intercalate (p.steps.dropLast ++ [name])).toList =
          '/' :: ("/".intercalate (p.steps.dropLast ++ [name])).toList := by
        rw [String.toList_append]
        rfl
      dsimp only
      rw [if_pos rfl, if_pos rfl, htext, splitSlash, if_pos rfl, List.map_cons, hsplit]
      rfl

theorem steps_sibling (hname : IsName name) :
    (p.sibling name).steps = p.steps.dropLast ++ [name] := by
  have hnames := filter_names (isName_of_mem_siblingSteps (p := p) hname)
  unfold steps at hnames ⊢
  rw [pieces_sibling hname, List.filter_append]
  unfold steps
  rw [hnames]
  split <;> rfl

theorem endsAsDirectory_sibling (hname : IsName name) :
    (p.sibling name).endsAsDirectory = false := by
  unfold endsAsDirectory
  rw [pieces_sibling hname, ← List.append_assoc, List.getLast?_concat, Option.any_some,
    Bool.or_eq_false_iff]
  exact ⟨decide_eq_false hname.ne_empty, decide_eq_false hname.ne_dot⟩

theorem text_sibling_ne (hname : IsName name) : (p.sibling name).text ≠ "" := by
  intro htext
  have hlast : (p.sibling name).pieces.getLast? = some name := by
    rw [pieces_sibling hname, ← List.append_assoc, List.getLast?_concat]
  have hempty : (p.sibling name).pieces = [""] := by
    rw [pieces, htext]
    rfl
  rw [hempty] at hlast
  exact hname.ne_empty (Option.some.inj hlast).symm

theorem isAbsolute_sibling (hname : IsName name) : (p.sibling name).isAbsolute = p.isAbsolute := by
  cases hp : p.isAbsolute with
  | true =>
      have htext : (p.sibling name).text = "/" ++ "/".intercalate (p.steps.dropLast ++ [name]) := by
        unfold sibling
        rw [if_pos hp]
      unfold isAbsolute
      rw [htext, String.toList_append]
      rfl
  | false =>
      apply Bool.eq_false_iff.mpr
      intro habsolute
      obtain ⟨more, hpieces⟩ := exists_pieces_of_isAbsolute habsolute
      have hmem : "" ∈ p.steps.dropLast ++ [name] := by
        have hsibling := pieces_sibling (p := p) hname
        rw [hp, hpieces, if_neg (by decide), List.nil_append] at hsibling
        rw [← hsibling]
        exact List.mem_cons_self
      exact (isName_of_mem_siblingSteps hname "" hmem).ne_empty rfl

end Sibling

theorem fileName?_eq_some {p : Path} {init : List String} {name : String}
    (hsteps : p.steps = init ++ [name]) (hname : name ≠ "..") : p.fileName? = some name := by
  unfold fileName?
  rw [hsteps, List.getLast?_concat, Option.filter_some, if_pos (by simpa using hname)]

theorem endsInDot_eq_false {p : Path} (hp : p.endsAsDirectory = false) : p.endsInDot = false := by
  unfold endsAsDirectory at hp
  unfold endsInDot
  rw [← List.head?_reverse] at hp
  cases hreverse : p.pieces.reverse with
  | nil => rfl
  | cons last rest =>
      rw [hreverse, List.head?_cons, Option.any_some, Bool.or_eq_false_iff,
        decide_eq_false_iff_not, decide_eq_false_iff_not] at hp
      rw [List.dropWhile_cons_of_neg (by simpa using hp.1), List.head?_cons]
      simpa using hp.2

end Bitpack.Path
