import Bitpack.Proofs.Json.Read
import Mathlib.Tactic.IntervalCases

/-!
Printed JSON is read back. Each kind of value is read from its own text in front of any rest that does
not continue a number, and the printed form of a value is put together from such texts.
-/
namespace Bitpack.Json

/-- A text that is read as a value, whatever stands behind it. -/
def Reads (cs : List Char) (j : Json) : Prop :=
  ∀ fuel rest, cs.length < fuel → Ends rest → value? fuel (cs ++ rest) = some (j, rest)

def ReadsItems (cs : List Char) (items : List Json) : Prop :=
  ∀ fuel rest, cs.length + 1 < fuel → items? fuel (cs ++ ']' :: rest) = some (items, rest)

def ReadsMembers (cs : List Char) (members : List (Option (List Char) × Json)) : Prop :=
  ∀ fuel rest, cs.length + 1 < fuel →
    members? fuel (cs ++ '\x7d' :: rest) = some (members, rest)

theorem value?_space {before : List Char} (hbefore : Space before) (fuel : Nat) (cs : List Char) :
    value? fuel (before ++ cs) = value? fuel cs := by
  cases fuel with
  | zero => rfl
  | succ fuel => rw [value?, value?, skipSpace_append hbefore]

theorem Reads.space {before cs : List Char} {j : Json} (hbefore : Space before) (h : Reads cs j) :
    Reads (before ++ cs) j := by
  intro fuel rest hfuel hrest
  rw [List.length_append] at hfuel
  rw [List.append_assoc, value?_space hbefore, h fuel rest (by omega) hrest]

theorem reads_null : Reads "null".toList null := by
  intro fuel rest hfuel _
  obtain ⟨fuel, rfl⟩ := Nat.exists_eq_succ_of_ne_zero (Nat.ne_zero_of_lt hfuel)
  rfl

theorem reads_boolean (value : Bool) : Reads (booleanText value) (boolean value) := by
  intro fuel rest hfuel _
  obtain ⟨fuel, rfl⟩ := Nat.exists_eq_succ_of_ne_zero (Nat.ne_zero_of_lt hfuel)
  cases value <;> rfl

theorem value?_digit {c : Char} (hc : c.isDigit = true) (fuel : Nat) (rest : List Char) :
    value? (fuel + 1) (c :: rest) =
      (number? (c :: rest)).map fun (literal, tail) => (number literal, tail) := by
  obtain ⟨n, hn, rfl⟩ := Text.exists_digitChar hc
  interval_cases n <;> rfl

theorem reads_number (n : Nat) : Reads (Text.digits n) (ofNat n) := by
  intro fuel rest hfuel hrest
  obtain ⟨fuel, rfl⟩ := Nat.exists_eq_succ_of_ne_zero (Nat.ne_zero_of_lt hfuel)
  have hnumber := number?_digits n hrest
  unfold ofNat
  obtain ⟨c, more, hdigits⟩ := List.exists_cons_of_ne_nil (Text.digits_ne_nil n)
  have hc : c.isDigit = true := Text.isDigit_of_mem_digits (hdigits ▸ List.mem_cons_self)
  rw [hdigits, List.cons_append] at hnumber ⊢
  rw [value?_digit hc, hnumber]
  rfl

theorem value?_quote (fuel : Nat) (rest : List Char) :
    value? (fuel + 1) ('\x22' :: rest) =
      (string? rest).map fun (content, tail) => (text content, tail) :=
  rfl

theorem reads_text (content : List Char) : Reads (quoted (some content)) (text (some content)) := by
  intro fuel rest hfuel _
  obtain ⟨fuel, rfl⟩ := Nat.exists_eq_succ_of_ne_zero (Nat.ne_zero_of_lt hfuel)
  rw [quoted, List.append_assoc, List.singleton_append, List.cons_append, Option.getD_some,
    value?_quote, string?_escaped]
  rfl

theorem value?_bracket (fuel : Nat) (rest : List Char) :
    value? (fuel + 1) ('[' :: rest) =
      match skipSpace rest with
      | ']' :: tail => some (list [], tail)
      | _ => (items? fuel rest).map fun (items, tail) => (list items, tail) :=
  rfl

theorem reads_emptyList : Reads "[]".toList (list []) := by
  intro fuel rest hfuel _
  obtain ⟨fuel, rfl⟩ := Nat.exists_eq_succ_of_ne_zero (Nat.ne_zero_of_lt hfuel)
  rfl

theorem items?_of_value {fuel : Nat} {cs rest : List Char} {item : Json}
    (hvalue : value? fuel cs = some (item, rest)) :
    items? (fuel + 1) cs =
      match skipSpace rest with
      | ']' :: tail => some ([item], tail)
      | ',' :: tail => (items? fuel tail).map fun (items, tail) => (item :: items, tail)
      | _ => none := by
  rw [items?, hvalue]
  rfl

theorem items?_eq_none {cs tail : List Char} (hcs : skipSpace cs = ']' :: tail) (fuel : Nat) :
    items? fuel cs = none := by
  cases fuel with
  | zero => rfl
  | succ fuel =>
      have hvalue : value? fuel cs = none := by
        cases fuel with
        | zero => rfl
        | succ fuel =>
            rw [value?, hcs]
            rfl
      rw [items?, hvalue]
      rfl

theorem ReadsItems.reads {cs : List Char} {items : List Json} (h : ReadsItems cs items) :
    Reads ('[' :: cs ++ [']']) (list items) := by
  intro fuel rest hfuel _
  rw [List.length_append, List.length_cons, List.length_singleton] at hfuel
  obtain ⟨fuel, rfl⟩ := Nat.exists_eq_succ_of_ne_zero (Nat.ne_zero_of_lt hfuel)
  have hitems := h fuel rest (by omega)
  rw [List.append_assoc, List.singleton_append, List.cons_append, value?_bracket]
  split
  · rename_i hclose
    rw [items?_eq_none hclose] at hitems
    cases hitems
  · rw [hitems]
    rfl

theorem Reads.lastItem {cs after : List Char} {item : Json} (h : Reads cs item)
    (hafter : Space after) : ReadsItems (cs ++ after) [item] := by
  intro fuel rest hfuel
  rw [List.length_append] at hfuel
  obtain ⟨fuel, rfl⟩ := Nat.exists_eq_succ_of_ne_zero (Nat.ne_zero_of_lt hfuel)
  have hends : Ends (after ++ ']' :: rest) := ends_append hafter (ends_cons (by decide) rest)
  rw [List.append_assoc, items?_of_value (h fuel _ (by omega) hends), skipSpace_append hafter,
    skipSpace_cons (by decide)]
  rfl

theorem Reads.consItem {cs more : List Char} {item : Json} {items : List Json} (h : Reads cs item)
    (hmore : ReadsItems more items) : ReadsItems (cs ++ ',' :: more) (item :: items) := by
  intro fuel rest hfuel
  rw [List.length_append, List.length_cons] at hfuel
  obtain ⟨fuel, rfl⟩ := Nat.exists_eq_succ_of_ne_zero (Nat.ne_zero_of_lt hfuel)
  have hends : Ends (',' :: (more ++ ']' :: rest)) := ends_cons (by decide) _
  rw [List.append_assoc, List.cons_append, items?_of_value (h fuel _ (by omega) hends),
    skipSpace_cons (by decide)]
  simp only [hmore fuel rest (by omega), Option.map_some]

theorem value?_brace (fuel : Nat) (rest : List Char) :
    value? (fuel + 1) ('\x7b' :: rest) =
      match skipSpace rest with
      | '\x7d' :: tail => some (object [], tail)
      | _ => (members? fuel rest).map fun (members, tail) => (object members, tail) :=
  rfl

theorem reads_emptyObject : Reads "\x7b\x7d".toList (object []) := by
  intro fuel rest hfuel _
  obtain ⟨fuel, rfl⟩ := Nat.exists_eq_succ_of_ne_zero (Nat.ne_zero_of_lt hfuel)
  rfl

theorem members?_of_value {fuel : Nat} {before cs rest : List Char} {value : Json}
    (hbefore : Space before) (key : List Char) (hvalue : value? fuel cs = some (value, rest)) :
    members? (fuel + 1) (before ++ quoted (some key) ++ ':' :: cs) =
      match skipSpace rest with
      | '\x7d' :: tail => some ([(some key, value)], tail)
      | ',' :: tail =>
        (members? fuel tail).map fun (members, tail) => ((some key, value) :: members, tail)
      | _ => none := by
  rw [members?, List.append_assoc, skipSpace_append hbefore, quoted, List.append_assoc,
    List.singleton_append, List.cons_append, Option.getD_some, skipSpace_cons (by decide)]
  change (string? (key.flatMap escaped ++ '\x22' :: ':' :: cs)).bind _ = _
  rw [string?_escaped, Option.bind_some]
  dsimp only
  rw [skipSpace_cons (by decide)]
  change (value? fuel cs).bind _ = _
  rw [hvalue]
  rfl

theorem members?_eq_none {cs tail : List Char} (hcs : skipSpace cs = '\x7d' :: tail) (fuel : Nat) :
    members? fuel cs = none := by
  cases fuel with
  | zero => rfl
  | succ fuel =>
      rw [members?, hcs]
      rfl

theorem ReadsMembers.reads {cs : List Char} {members : List (Option (List Char) × Json)}
    (h : ReadsMembers cs members) : Reads ('\x7b' :: cs ++ ['\x7d']) (object members) := by
  intro fuel rest hfuel _
  rw [List.length_append, List.length_cons, List.length_singleton] at hfuel
  obtain ⟨fuel, rfl⟩ := Nat.exists_eq_succ_of_ne_zero (Nat.ne_zero_of_lt hfuel)
  have hmembers := h fuel rest (by omega)
  rw [List.append_assoc, List.singleton_append, List.cons_append, value?_brace]
  split
  · rename_i hclose
    rw [members?_eq_none hclose] at hmembers
    cases hmembers
  · rw [hmembers]
    rfl

theorem Reads.lastMember {before cs after : List Char} {value : Json} (h : Reads cs value)
    (hbefore : Space before) (key : List Char) (hafter : Space after) :
    ReadsMembers (before ++ quoted (some key) ++ ':' :: cs ++ after) [(some key, value)] := by
  intro fuel rest hfuel
  simp only [List.length_append, List.length_cons] at hfuel
  obtain ⟨fuel, rfl⟩ := Nat.exists_eq_succ_of_ne_zero (Nat.ne_zero_of_lt hfuel)
  have hends : Ends (after ++ '\x7d' :: rest) := ends_append hafter (ends_cons (by decide) rest)
  have hvalue := h fuel _ (by omega) hends
  have hmember := members?_of_value hbefore key hvalue
  rw [skipSpace_append hafter, skipSpace_cons (by decide)] at hmember
  simpa using hmember

theorem Reads.consMember {before cs more : List Char} {value : Json}
    {members : List (Option (List Char) × Json)} (h : Reads cs value) (hbefore : Space before)
    (key : List Char) (hmore : ReadsMembers more members) :
    ReadsMembers (before ++ quoted (some key) ++ ':' :: cs ++ ',' :: more)
      ((some key, value) :: members) := by
  intro fuel rest hfuel
  simp only [List.length_append, List.length_cons] at hfuel
  obtain ⟨fuel, rfl⟩ := Nat.exists_eq_succ_of_ne_zero (Nat.ne_zero_of_lt hfuel)
  have hends : Ends (',' :: (more ++ '\x7d' :: rest)) := ends_cons (by decide) _
  have hvalue := h fuel _ (by omega) hends
  have hmember := members?_of_value hbefore key hvalue
  rw [skipSpace_cons (by decide)] at hmember
  simp only [hmore fuel rest (by omega), Option.map_some] at hmember
  simpa using hmember

/-- Values with numbers as `ofNat` writes them and with whole texts. -/
inductive Plain : Json → Prop where
  | null : Plain null
  | boolean (value : Bool) : Plain (boolean value)
  | number (n : Nat) : Plain (ofNat n)
  | text (content : List Char) : Plain (text (some content))
  | list {items : List Json} (hitems : ∀ item ∈ items, Plain item) : Plain (list items)
  | object {members : List (List Char × Json)} (hmembers : ∀ m ∈ members, Plain m.2) :
      Plain (object (members.map fun m => (some m.1, m.2)))

theorem readsItems_intercalate {items : List Json} {print : Json → List Char} (hne : items ≠ [])
    (hitems : ∀ item ∈ items, Reads (print item) item) {after : List Char} (hafter : Space after) :
    ReadsItems ([','].intercalate (items.map print) ++ after) items := by
  induction items with
  | nil => exact absurd rfl hne
  | cons item rest ih =>
      have hitem := hitems item List.mem_cons_self
      cases rest with
      | nil => simpa using hitem.lastItem hafter
      | cons next rest =>
          have hrest := ih (List.cons_ne_nil next rest)
            fun other hother => hitems other (List.mem_cons_of_mem item hother)
          simpa using hitem.consItem hrest

theorem readsMembers_intercalate {members : List (List Char × Json)} {before : List Char}
    {print : List Char × Json → List Char} (hne : members ≠ []) (hbefore : Space before)
    (hmembers : ∀ m ∈ members, Reads (print m) m.2) {after : List Char} (hafter : Space after) :
    ReadsMembers
      ([','].intercalate (members.map fun m => before ++ quoted (some m.1) ++ ':' :: print m) ++
        after)
      (members.map fun m => (some m.1, m.2)) := by
  induction members with
  | nil => exact absurd rfl hne
  | cons m rest ih =>
      have hvalue := hmembers m List.mem_cons_self
      cases rest with
      | nil => simpa using hvalue.lastMember hbefore m.1 hafter
      | cons next rest =>
          have hrest := ih (List.cons_ne_nil next rest)
            fun other hother => hmembers other (List.mem_cons_of_mem m hother)
          simpa using hvalue.consMember hbefore m.1 hrest

theorem compactItems_eq (items : List Json) :
    compactItems items = [','].intercalate (items.map compact) := by
  induction items with
  | nil => rfl
  | cons item rest ih =>
      cases rest with
      | nil => simp [compactItems]
      | cons next rest => simp [compactItems, ih]

theorem prettyItems_eq (level : Nat) (items : List Json) :
    prettyItems level items =
      [','].intercalate (items.map fun item => indent level ++ item.pretty level) := by
  induction items with
  | nil => rfl
  | cons item rest ih =>
      cases rest with
      | nil => simp [prettyItems]
      | cons next rest => simp [prettyItems, ih]

theorem compactMembers_eq (members : List (List Char × Json)) :
    compactMembers (members.map fun m => (some m.1, m.2)) =
      [','].intercalate (members.map fun m => [] ++ quoted (some m.1) ++ ':' :: m.2.compact) := by
  induction members with
  | nil => rfl
  | cons m rest ih =>
      cases rest with
      | nil => simp [compactMembers]
      | cons next rest => simpa [compactMembers] using ih

theorem prettyMembers_eq (level : Nat) (members : List (List Char × Json)) :
    prettyMembers level (members.map fun m => (some m.1, m.2)) =
      [','].intercalate (members.map fun m =>
        indent level ++ quoted (some m.1) ++ ':' :: ([' '] ++ m.2.pretty level)) := by
  induction members with
  | nil => rfl
  | cons m rest ih =>
      cases rest with
      | nil => simp [prettyMembers]
      | cons next rest => simpa [prettyMembers] using ih

theorem Plain.reads_pretty {j : Json} (h : Plain j) (level : Nat) : Reads (j.pretty level) j := by
  induction h generalizing level with
  | null => exact reads_null
  | boolean value => exact reads_boolean value
  | number n => exact reads_number n
  | text content => exact reads_text content
  | @list items hitems ih =>
      cases items with
      | nil => exact reads_emptyList
      | cons item rest =>
          have hbody := readsItems_intercalate (List.cons_ne_nil item rest)
            (fun other hother => (ih other hother (level + 1)).space (space_indent (level + 1)))
            (space_indent level)
          rw [← prettyItems_eq] at hbody
          exact hbody.reads
  | @object members hmembers ih =>
      cases members with
      | nil => exact reads_emptyObject
      | cons m rest =>
          have hbody := readsMembers_intercalate (List.cons_ne_nil m rest)
            (space_indent (level + 1))
            (fun other hother => (ih other hother (level + 1)).space (by decide : Space [' ']))
            (space_indent level)
          rw [← prettyMembers_eq] at hbody
          exact hbody.reads

theorem Plain.reads_compact {j : Json} (h : Plain j) : Reads j.compact j := by
  induction h with
  | null => exact reads_null
  | boolean value => exact reads_boolean value
  | number n => exact reads_number n
  | text content => exact reads_text content
  | @list items hitems ih =>
      cases items with
      | nil => exact reads_emptyList
      | cons item rest =>
          have hbody := readsItems_intercalate (List.cons_ne_nil item rest) ih space_nil
          rw [← compactItems_eq, List.append_nil] at hbody
          exact hbody.reads
  | @object members hmembers ih =>
      cases members with
      | nil => exact reads_emptyObject
      | cons m rest =>
          have hbody := readsMembers_intercalate (List.cons_ne_nil m rest) space_nil ih space_nil
          rw [← compactMembers_eq, List.append_nil] at hbody
          exact hbody.reads

theorem Reads.parse?_eq {cs : List Char} {j : Json} (h : Reads cs j) : parse? cs = some j := by
  have hvalue := h (cs.length + 1) [] (Nat.lt_succ_self _) ends_nil
  rw [List.append_nil] at hvalue
  unfold parse?
  rw [hvalue]
  rfl

end Bitpack.Json
