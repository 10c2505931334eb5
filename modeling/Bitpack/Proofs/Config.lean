import Bitpack.Config
import Bitpack.Proofs.Element.Name
import Bitpack.Proofs.Json.Printed
import Bitpack.Proofs.Json.Range
import Bitpack.Proofs.Outcome

/-!
Configurations are read back from both of their printed forms, also those that were read from a text that
nobody printed: what can be read has numbers that fit the machine.
-/
namespace Bitpack

namespace Config

/-- The numbers of a configuration are those of the machine. -/
structure InRange (c : Config) : Prop where
  shape_lt : ∀ n ∈ c.shape, n < 2 ^ 64
  repetitions_lt : c.options.repetitions < 2 ^ 64
  blocks_lt : c.options.blocks < 2 ^ 64

def fields (c : Config) : List (List Char × Json) :=
  [("npy_dtype".toList, .ofString c.dtype.name), ("elem_type".toList, .ofString c.element.name),
    ("shape".toList, .list (c.shape.map .ofNat)),
    ("reverse_inner".toList, .boolean c.options.reverseInner),
    ("num_reps".toList, .ofNat c.options.repetitions),
    ("multi_pixel_out".toList, .ofNat c.options.blocks)]

theorem toJson_eq (c : Config) : c.toJson = .object (c.fields.map fun m => (some m.1, m.2)) :=
  rfl

theorem plain_toJson (c : Config) : Json.Plain c.toJson := by
  have hshape : Json.Plain (.list (c.shape.map .ofNat)) := by
    apply Json.Plain.list
    intro item hitem
    obtain ⟨n, -, rfl⟩ := List.mem_map.mp hitem
    exact .number n
  rw [toJson_eq]
  apply Json.Plain.object
  simp only [fields, List.forall_mem_cons]
  exact ⟨.text _, .text _, hshape, .boolean _, .number _, .number _, fun m hm => nomatch hm⟩

theorem dtype?_name (d : Dtype) : dtype? (.ofString d.name) = some d := by
  rcases d with size | size | format <;> [cases size; cases size; cases format] <;> rfl

theorem element?_name (e : ElementType) : element? (.ofString e.name) = some e := by
  have htext : (Json.ofString e.name).text? = some e.name.toList := rfl
  rw [element?, htext, Option.bind_some, String.ofList_toList, ElementType.parse_name]
  rfl

theorem shape?_ofNat {shape : List Nat} (hshape : ∀ n ∈ shape, n < 2 ^ 64) :
    shape? (.list (shape.map .ofNat)) = some shape := by
  change (shape.map Json.ofNat).mapM Json.natural? = some shape
  induction shape with
  | nil => rfl
  | cons n rest ih =>
      rw [List.map_cons, List.mapM_cons, Json.natural?_ofNat (hshape n List.mem_cons_self),
        ih fun other hother => hshape other (List.mem_cons_of_mem n hother)]
      rfl

theorem keyed?_fields (c : Config) :
    Json.keyed? (c.fields.map fun m => (some m.1, m.2)) = some c.fields :=
  rfl

theorem filter_fields (c : Config) :
    (c.fields.filter fun m => !ownKeys.contains m.1) =
      [("reverse_inner".toList, .boolean c.options.reverseInner),
        ("num_reps".toList, .ofNat c.options.repetitions),
        ("multi_pixel_out".toList, .ofNat c.options.blocks)] :=
  rfl

theorem ofMembers?_fields {c : Config} (h : c.InRange) :
    Packing.Options.ofMembers? c.fields = some c.options := by
  have hreverse : Json.optional? c.fields "reverse_inner" Json.boolean?
      Packing.Options.default.reverseInner = some c.options.reverseInner := rfl
  have hrepetitions : Json.optional? c.fields "num_reps" Json.natural?
      Packing.Options.default.repetitions = Json.natural? (.ofNat c.options.repetitions) := rfl
  have hblocks : Json.optional? c.fields "multi_pixel_out" Json.natural?
      Packing.Options.default.blocks = Json.natural? (.ofNat c.options.blocks) := rfl
  unfold Packing.Options.ofMembers?
  rw [hreverse, hrepetitions, hblocks, Json.natural?_ofNat h.repetitions_lt,
    Json.natural?_ofNat h.blocks_lt]
  rfl

theorem all_isKept_fields {c : Config} (h : c.InRange) :
    ((c.fields.filter fun m => !ownKeys.contains m.1).all fun m => m.2.isKept maxDepth) = true := by
  rw [filter_fields]
  simp [Json.isKept, Json.ofNat, Json.isFinite_digits h.repetitions_lt,
    Json.isFinite_digits h.blocks_lt]

theorem ofJson?_toJson {c : Config} (h : c.InRange) : ofJson? c.toJson = some c := by
  have hdtype : Json.required? c.fields "npy_dtype" = some (.ofString c.dtype.name) := rfl
  have helement : Json.required? c.fields "elem_type" = some (.ofString c.element.name) := rfl
  have hshape : Json.required? c.fields "shape" = some (.list (c.shape.map .ofNat)) := rfl
  rw [toJson_eq, ofJson?, keyed?_fields]
  dsimp only [Option.bind_eq_bind, Option.bind_some]
  rw [if_pos (all_isKept_fields h), hdtype, helement, hshape]
  dsimp only [Option.bind_some]
  rw [dtype?_name, element?_name, shape?_ofNat h.shape_lt, ofMembers?_fields h]
  rfl

theorem parse?_of_reads {c : Config} {text : List Char} (hreads : Json.Reads text c.toJson)
    (h : c.InRange) : parse? (String.ofList text) = some c := by
  unfold parse?
  rw [String.toList_ofList, hreads.parse?_eq]
  exact ofJson?_toJson h

theorem parse?_compactText {c : Config} (h : c.InRange) : parse? c.compactText = some c :=
  parse?_of_reads (plain_toJson c).reads_compact h

theorem parse?_prettyText {c : Config} (h : c.InRange) : parse? c.prettyText = some c :=
  parse?_of_reads ((plain_toJson c).reads_pretty 0) h

theorem shape_lt_of_shape? {j : Json} {shape : List Nat} (h : shape? j = some shape) :
    ∀ n ∈ shape, n < 2 ^ 64 := by
  unfold shape? at h
  split at h
  · intro n hn
    obtain ⟨item, -, hitem⟩ := exists_of_mem_mapM h n hn
    exact Json.natural?_lt hitem
  · cases h

theorem lt_of_optional? {members : List (List Char × Json)} {key : String} {default n : Nat}
    (hdefault : default < 2 ^ 64)
    (h : Json.optional? members key Json.natural? default = some n) : n < 2 ^ 64 := by
  rcases Json.eq_default_or_read_of_optional? h with rfl | ⟨value, hvalue⟩
  · exact hdefault
  · exact Json.natural?_lt hvalue

theorem lt_of_ofMembers? {members : List (List Char × Json)} {options : Packing.Options}
    (h : Packing.Options.ofMembers? members = some options) :
    options.repetitions < 2 ^ 64 ∧ options.blocks < 2 ^ 64 := by
  simp only [Packing.Options.ofMembers?, Option.bind_eq_bind, Option.bind_eq_some_iff] at h
  obtain ⟨_, _, repetitions, hrepetitions, blocks, hblocks, heq⟩ := h
  cases heq
  exact ⟨lt_of_optional? (by decide) hrepetitions, lt_of_optional? (by decide) hblocks⟩

theorem inRange_of_parse? {text : String} {c : Config} (h : parse? text = some c) : c.InRange := by
  obtain ⟨j, _, h⟩ := Option.bind_eq_some_iff.mp h
  unfold ofJson? at h
  split at h
  · obtain ⟨members, _, h⟩ := Option.bind_eq_some_iff.mp h
    dsimp only at h
    split at h
    · simp only [Option.bind_eq_bind, Option.bind_eq_some_iff] at h
      obtain ⟨_, _, dtype, _, _, _, element, _, _, _, shape, hshape, options, hoptions, heq⟩ := h
      cases heq
      obtain ⟨hrepetitions, hblocks⟩ := lt_of_ofMembers? hoptions
      exact ⟨shape_lt_of_shape? hshape, hrepetitions, hblocks⟩
    · cases h
  · cases h

/-- Every configuration with numbers of the machine is read back as it is from both of its printed forms,
and so is every configuration that was read from any text, whatever that text leaves out or adds. -/
theorem json_round_trip :
    (∀ c : Config, c.InRange → parse? c.compactText = some c ∧ parse? c.prettyText = some c) ∧
      ∀ text c, parse? text = some c →
        c.InRange ∧ parse? c.compactText = some c ∧ parse? c.prettyText = some c := by
  have hprinted (c : Config) (h : c.InRange) :
      parse? c.compactText = some c ∧ parse? c.prettyText = some c :=
    ⟨parse?_compactText h, parse?_prettyText h⟩
  refine ⟨hprinted, ?_⟩
  intro text c hc
  have h := inRange_of_parse? hc
  exact ⟨h, hprinted c h⟩

/-- No options, a key that is not known, and the element type in small letters. -/
def terseText : String :=
  "\x7b\"shape\": [], \"note\": [1e9], \"elem_type\": \" bipolar\", \"npy_dtype\": \"int16\"\x7d"

def terse : Config :=
  ⟨.int .two, .bipolar, [], Packing.Options.default⟩

def extreme : Config :=
  ⟨.float .double, .fixed ⟨64, by decide, by decide⟩ 0 (by decide), [0, 2 ^ 64 - 1],
    ⟨false, 2 ^ 64 - 1, 0⟩⟩

theorem json_round_trip_extreme :
    parse? terseText = some terse ∧ parse? terse.compactText = some terse ∧
      extreme.InRange ∧ parse? extreme.compactText = some extreme ∧
      parse? extreme.prettyText = some extreme := by
  obtain ⟨hprinted, hread⟩ := json_round_trip
  have hterse : parse? terseText = some terse := by decide +kernel
  have hextreme : extreme.InRange := ⟨by decide, by decide, by decide⟩
  obtain ⟨hcompact, hpretty⟩ := hprinted extreme hextreme
  exact ⟨hterse, (hread terseText terse hterse).2.1, hextreme, hcompact, hpretty⟩

end Config

end Bitpack
