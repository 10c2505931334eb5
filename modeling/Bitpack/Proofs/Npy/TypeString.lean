import Bitpack.Npy.TypeString
import Bitpack.Proofs.Npy.OrderMarks

/-!
Type strings, and which of them differ only in the order mark.
-/
namespace Bitpack.Npy.TypeString

theorem parse?_eq_some_iff {content : List Char} {t : TypeString} :
    parse? content = some t ↔
      ∃ tail, content = t.order :: t.kind :: tail ∧
        (Text.ofDigits? (tail.takeWhile Char.isDigit)).filter (· < 2 ^ 64) = some t.size ∧
        unit? (tail.dropWhile Char.isDigit) = some t.unit ∧ t.isValid = true := by
  constructor
  · intro hparse
    unfold parse? at hparse
    split at hparse
    · rename_i order kind tail
      simp only [Option.bind_eq_bind, Option.bind_eq_some_iff] at hparse
      obtain ⟨size, hsize, unit, hunit, hmade⟩ := hparse
      split at hmade
      · rename_i hvalid
        cases hmade
        exact ⟨tail, rfl, hsize, hunit, hvalid⟩
      · cases hmade
    · cases hparse
  · rintro ⟨tail, rfl, hsize, hunit, hvalid⟩
    unfold parse?
    simp only [Option.bind_eq_bind, hsize, hunit, Option.bind_some]
    exact if_pos hvalid

theorem order_of_isValid {t : TypeString} (hvalid : t.isValid = true) :
    t.order = '<' ∨ t.order = '>' ∨ t.order = '|' := by
  simp only [isValid, Bool.and_eq_true] at hvalid
  simpa using hvalid.1.1.1.1.1

theorem isUnmarked_kind {t : TypeString} (hvalid : t.isValid = true) : IsUnmarked t.kind := by
  simp only [isValid, Bool.and_eq_true] at hvalid
  exact isUnmarked_of (p := fun c => "biufcmMSaUV".toList.contains c) rfl rfl hvalid.1.1.1.1.2

theorem isUnmarked_of_mem_unit {t : TypeString} (hvalid : t.isValid = true) {unit : List Char}
    (hunit : t.unit = some unit) : ∀ c ∈ unit, IsUnmarked c := by
  have hunits : ∀ unit ∈ units, unit.all (fun c => decide (IsUnmarked c)) = true :=
    List.all_eq_true.mp (by decide)
  simp only [isValid, Bool.and_eq_true] at hvalid
  have hknown := hvalid.2
  rw [hunit] at hknown
  exact unmarked_of_all (hunits unit (List.contains_iff_mem.mp hknown))

theorem eq_of_unit?_eq_some {text : List Char} {unit : Option (List Char)}
    (hunit : unit? text = some unit) :
    text = [] ∨ ∃ name, unit = some name ∧ text = '[' :: (name ++ [']']) := by
  unfold unit? at hunit
  split at hunit
  · exact .inl rfl
  · split at hunit
    · rename_i rest hlast
      obtain ⟨name, rfl⟩ := List.getLast?_eq_some_iff.mp hlast
      rw [List.dropLast_concat] at hunit
      exact .inr ⟨name, (Option.some.inj hunit).symm, rfl⟩
    · cases hunit
  · cases hunit

theorem isUnmarked_of_mem_tail {t : TypeString} {tail : List Char} (hvalid : t.isValid = true)
    (hunit : unit? (tail.dropWhile Char.isDigit) = some t.unit) :
    ∀ c ∈ t.kind :: tail, IsUnmarked c := by
  have hdigits : ∀ c ∈ tail.takeWhile Char.isDigit, IsUnmarked c := fun c hc =>
    isUnmarked_of rfl rfl (List.all_eq_true.mp List.all_takeWhile c hc)
  have hrest : ∀ c ∈ tail.dropWhile Char.isDigit, IsUnmarked c := by
    rcases eq_of_unit?_eq_some hunit with hnil | ⟨name, hname, htext⟩
    · simp [hnil]
    · rw [htext]
      intro c hc
      rcases List.mem_cons.mp hc with rfl | hc
      · decide
      · rcases List.mem_append.mp hc with hc | hc
        · exact isUnmarked_of_mem_unit hvalid hname c hc
        · rw [List.mem_singleton.mp hc]
          decide
  intro c hc
  rcases List.mem_cons.mp hc with rfl | hc
  · exact isUnmarked_kind hvalid
  · rw [← List.takeWhile_append_dropWhile (p := Char.isDigit) (l := tail)] at hc
    exact (List.mem_append.mp hc).elim (hdigits c) (hrest c)

theorem isValid_mark {t : TypeString} (hvalid : t.isValid = true) {order : Char}
    (horder : order = '<' ∨ order = '>') : isValid { t with order := order } = true := by
  have hallowed : ("<>|".toList.contains order && orderAllowed order t.kind t.size) = true := by
    rcases horder with rfl | rfl <;> rfl
  simp only [isValid, Bool.and_eq_true] at hvalid hallowed ⊢
  obtain ⟨⟨⟨⟨⟨-, hkind⟩, hsize⟩, -⟩, htime⟩, hunit⟩ := hvalid
  exact ⟨⟨⟨⟨⟨hallowed.1, hkind⟩, hsize⟩, hallowed.2⟩, htime⟩, hunit⟩

theorem isValid_of_blur_eq {t : TypeString} (hvalid : t.isValid = true) {order : Char}
    (horder : blur order = blur t.order) : isValid { t with order := order } = true := by
  rcases order_of_isValid hvalid with hless | hgreater | hnone
  · exact isValid_mark hvalid (eq_of_blur_eq (horder.trans (congrArg blur hless)))
  · exact isValid_mark hvalid (eq_of_blur_eq (horder.trans (congrArg blur hgreater)))
  · have hsame : order = '|' := (blur_eq_iff (by decide)).mp (horder.trans (congrArg blur hnone))
    rwa [hsame, ← hnone]

theorem parse?_of_map_blur {content content' : List Char} {t : TypeString}
    (hparse : parse? content = some t) (heq : content'.map blur = content.map blur) :
    ∃ order, parse? content' = some { t with order := order } := by
  obtain ⟨tail, rfl, hsize, hunit, hvalid⟩ := parse?_eq_some_iff.mp hparse
  have htail := isUnmarked_of_mem_tail hvalid hunit
  obtain ⟨order, rest, rfl, horder, hrest⟩ := List.map_eq_cons_iff.mp heq
  rw [map_blur_of_unmarked htail] at hrest
  obtain rfl := (map_blur_eq_iff htail).mp hrest
  exact ⟨order,
    parse?_eq_some_iff.mpr ⟨tail, rfl, hsize, hunit, isValid_of_blur_eq hvalid horder⟩⟩

end Bitpack.Npy.TypeString
