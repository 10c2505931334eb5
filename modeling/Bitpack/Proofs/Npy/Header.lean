import Bitpack.Npy.Header
import Bitpack.Proofs.Bytes
import Bitpack.Proofs.Npy.Literal
import Bitpack.Proofs.Outcome

/-!
Headers, written and read back.
-/
namespace Bitpack.Npy.Header

inductive Version : Bytes → Nat → Prop where
  | short : Version [1, 0] 2
  | long : Version [2, 0] 4
  | longText : Version [3, 0] 4

theorem Version.length_eq {version : Bytes} {size : Nat} (hversion : Version version size) :
    version.length = 2 := by
  cases hversion <;> rfl

theorem Version.size_eq {version : Bytes} {size : Nat} (hversion : Version version size) :
    (if version = [1, 0] then 2 else 4) = size := by
  cases hversion <;> rfl

theorem Version.of_known {version : Bytes}
    (hknown : ¬(version ≠ [1, 0] ∧ version ≠ [2, 0] ∧ version ≠ [3, 0])) :
    ∃ size, Version version size := by
  by_cases hshort : version = [1, 0]
  · exact ⟨2, hshort ▸ .short⟩
  · by_cases hlong : version = [2, 0]
    · exact ⟨4, hlong ▸ .long⟩
    · by_cases htext : version = [3, 0]
      · exact ⟨4, htext ▸ .longText⟩
      · exact absurd ⟨hshort, hlong, htext⟩ hknown

theorem fields_at {version count : Bytes} {size : Nat} (hversion : Version version size)
    (hcount : count.length = size) (tail : Bytes) :
    let bytes := magic ++ (version ++ (count ++ tail))
    8 ≤ bytes.length ∧ bytes.take 6 = magic ∧ (bytes.drop 6).take 2 = version ∧
      (bytes.drop 8).take size = count ∧ bytes.drop (8 + size) = tail := by
  have hmagic : magic.length = 6 := rfl
  have hversionLength := hversion.length_eq
  intro bytes
  have hversionAt : bytes.drop 6 = version ++ (count ++ tail) := List.drop_left' hmagic
  have hcountAt : bytes.drop 8 = count ++ tail := by
    rw [show 8 = 6 + 2 from rfl, ← List.drop_drop, hversionAt, List.drop_left' hversionLength]
  refine ⟨?_, List.take_left' hmagic, ?_, ?_, ?_⟩
  · rw [List.length_append, List.length_append, hmagic, hversionLength]
    omega
  · rw [hversionAt, List.take_left' hversionLength]
  · rw [hcountAt, List.take_left' hcount]
  · rw [← List.drop_drop, hcountAt, List.drop_left' hcount]

theorem exists_parts_of_split {bytes literal rest : Bytes} (hsplit : split bytes = .ok (literal, rest)) :
    ∃ version size, ∃ count : Bytes, Version version size ∧ count.length = size ∧
      count.toNat = literal.length ∧ bytes = magic ++ (version ++ (count ++ (literal ++ rest))) := by
  unfold split at hsplit
  split at hsplit
  · cases hsplit
  · rename_i hmarked
    dsimp only at hsplit
    rw [not_or, Nat.not_lt, Decidable.not_not] at hmarked
    by_cases hknown : (bytes.drop 6).take 2 ≠ [1, 0] ∧ (bytes.drop 6).take 2 ≠ [2, 0] ∧
        (bytes.drop 6).take 2 ≠ [3, 0]
    · rw [if_pos hknown] at hsplit
      cases hsplit
    · rw [if_neg hknown] at hsplit
      obtain ⟨size, hversion⟩ := Version.of_known hknown
      rw [hversion.size_eq] at hsplit
      split at hsplit
      · cases hsplit
      · rename_i hcomplete
        have hcount : ((bytes.drop 8).take size).length = size := by
          rw [List.length_take] at hcomplete ⊢
          omega
        cases hsplit
        refine ⟨_, size, (bytes.drop 8).take size, hversion, hcount, ?_, ?_⟩
        · rw [List.length_take]
          omega
        · rw [List.take_append_drop, ← List.drop_drop, List.take_append_drop,
            ← List.drop_drop (i := 2) (j := 6), List.take_append_drop, ← hmarked.2,
            List.take_append_drop]

theorem split_of_parts {version count literal : Bytes} {size : Nat} (hversion : Version version size)
    (hcount : count.length = size) (hnumber : count.toNat = literal.length) (rest : Bytes) :
    split (magic ++ (version ++ (count ++ (literal ++ rest)))) = .ok (literal, rest) := by
  obtain ⟨hlong, hmagic, hversionAt, hcountAt, hbodyAt⟩ := fields_at hversion hcount (literal ++ rest)
  have hmarked : ¬((magic ++ (version ++ (count ++ (literal ++ rest)))).length < 8 ∨
      (magic ++ (version ++ (count ++ (literal ++ rest)))).take 6 ≠ magic) := by
    rw [hmagic]
    simp only [ne_eq, not_true_eq_false, or_false]
    omega
  have hknown : ¬(version ≠ [1, 0] ∧ version ≠ [2, 0] ∧ version ≠ [3, 0]) := by
    cases hversion <;> simp
  have hcomplete : ¬(count.length < size ∨ (literal ++ rest).length < literal.length) := by
    rw [hcount, List.length_append]
    omega
  unfold split
  rw [if_neg hmarked]
  dsimp only
  rw [hversionAt, hversion.size_eq, if_neg hknown, hcountAt, hbodyAt, hnumber, if_neg hcomplete,
    List.take_left' rfl, List.drop_left' rfl]

theorem split_eq_ok_iff {bytes literal rest : Bytes} :
    split bytes = .ok (literal, rest) ↔
      ∃ version size, ∃ count : Bytes, Version version size ∧ count.length = size ∧
        count.toNat = literal.length ∧ bytes = magic ++ (version ++ (count ++ (literal ++ rest))) := by
  constructor
  · exact exists_parts_of_split
  · rintro ⟨version, size, count, hversion, hcount, hnumber, rfl⟩
    exact split_of_parts hversion hcount hnumber rest

theorem split_append {version : Bytes} {size : Nat} (hversion : Version version size)
    {literal : Bytes} (hlength : literal.length < 256 ^ size) (rest : Bytes) :
    split (magic ++ version ++ Bytes.ofNat size literal.length ++ literal ++ rest) =
      .ok (literal, rest) := by
  refine split_eq_ok_iff.mpr ⟨version, size, _, hversion, Bytes.length_ofNat size literal.length,
    Bytes.toNat_ofNat_of_lt hlength, ?_⟩
  simp only [List.append_assoc]

theorem scans_comma {text : List Char} {tokens : List Token} (h : Token.Scans text tokens) :
    Token.Scans (',' :: ' ' :: text) (Token.symbol ',' :: tokens) :=
  (h.space rfl).symbol rfl (by decide)

def dimChars (shape : List Nat) : List Char :=
  shape.flatMap fun dim => Text.digits dim ++ ", ".toList

theorem scans_dimChars {text : List Char} {tokens : List Token} (h : Token.Scans text tokens)
    (shape : List Nat) :
    Token.Scans (dimChars shape ++ text) (Literal.dimTokens shape ++ tokens) := by
  induction shape with
  | nil => exact h
  | cons n rest ih =>
      have hcomma : Token.Scans (',' :: ' ' :: (dimChars rest ++ text))
          (Token.symbol ',' :: (Literal.dimTokens rest ++ tokens)) :=
        scans_comma ih
      have hnumber := hcomma.number (n := n)
      simpa [dimChars, Literal.dimTokens] using hnumber

theorem scans_close (count : Nat) :
    Token.Scans (')' :: ',' :: ' ' :: '\x7d' :: List.replicate count ' ')
      [Token.symbol ')', Token.symbol ',', Token.symbol '\x7d'] := by
  have hspaces : Token.Scans (List.replicate count ' ') [] := by
    have h := Token.Scans.spaces count Token.scans_nil
    rwa [List.append_nil] at h
  have hbrace : Token.Scans ('\x7d' :: List.replicate count ' ') [Token.symbol '\x7d'] :=
    hspaces.symbol rfl (by decide)
  exact (scans_comma hbrace).symbol rfl (by decide)

theorem scans_key {key text : List Char} {tokens : List Token} (h : Token.Scans text tokens)
    (hne : key ≠ []) (hplain : ∀ c ∈ key, Token.isPlain c = true) :
    Token.Scans ('\x27' :: (key ++ '\x27' :: ':' :: ' ' :: text))
      (Token.text key :: Token.symbol ':' :: tokens) := by
  have hcolon : Token.Scans (':' :: ' ' :: text) (Token.symbol ':' :: tokens) :=
    (h.space rfl).symbol rfl (by decide)
  exact hcolon.quoted hne hplain

theorem literalChars_eq (descr : List Char) (shape : List Nat) :
    literalChars descr shape = '\x7b' :: '\x27' :: ("descr".toList ++ '\x27' :: ':' :: ' ' ::
      '\x27' :: (descr ++ '\x27' :: ',' :: ' ' :: '\x27' :: ("fortran_order".toList ++
      '\x27' :: ':' :: ' ' :: 'F' :: 'a' :: 'l' :: 's' :: 'e' :: ',' :: ' ' :: '\x27' ::
      ("shape".toList ++ '\x27' :: ':' :: ' ' :: '(' ::
      (dimChars shape ++ [')', ',', ' ', '\x7d']))))) := by
  have hstart : "\x7b'descr': '".toList =
      '\x7b' :: '\x27' :: ("descr".toList ++ ['\x27', ':', ' ', '\x27']) := by decide
  have hmiddle : "', 'fortran_order': False, 'shape': (".toList =
      '\x27' :: ',' :: ' ' :: '\x27' :: ("fortran_order".toList ++ '\x27' :: ':' :: ' ' :: 'F' ::
        'a' :: 'l' :: 's' :: 'e' :: ',' :: ' ' :: '\x27' ::
        ("shape".toList ++ ['\x27', ':', ' ', '('])) := by decide
  have hend : "), \x7d".toList = [')', ',', ' ', '\x7d'] := by decide
  unfold literalChars
  rw [hstart, hmiddle, hend]
  simp only [List.append_assoc, List.cons_append, List.nil_append]
  rfl

theorem scans_literalChars {descr : List Char} (hne : descr ≠ [])
    (hplain : ∀ c ∈ descr, Token.isPlain c = true) (shape : List Nat) (count : Nat) :
    Token.Scans (literalChars descr shape ++ List.replicate count ' ')
      (Literal.headerTokens descr shape) := by
  have hsizes := (scans_dimChars (scans_close count) shape).symbol (c := '(') rfl (by decide)
  have hshape := scans_comma (scans_key hsizes (show "shape".toList ≠ [] by decide)
    (List.all_eq_true.mp (by decide)))
  have horder := scans_comma (scans_key hshape.false_word
    (show "fortran_order".toList ≠ [] by decide) (List.all_eq_true.mp (by decide)))
  have hdescr := scans_key (horder.quoted hne hplain) (show "descr".toList ≠ [] by decide)
    (List.all_eq_true.mp (by decide))
  have hopen := hdescr.symbol (c := '\x7b') rfl (by decide)
  rw [literalChars_eq]
  simp only [List.append_assoc, List.cons_append, List.nil_append]
  exact hopen

theorem ascii_of_all {text : List Char} (h : text.all (fun c => decide (c.toNat < 128)) = true) :
    ∀ c ∈ text, c.toNat < 128 :=
  fun c hc => of_decide_eq_true (List.all_eq_true.mp h c hc)

theorem chomp_padded (start : Nat) (literal : List Char) :
    chomp (padded start literal) =
      literal ++ List.replicate (63 - (literal.length + start) % 64) ' ' := by
  unfold chomp padded
  rw [if_pos List.getLast?_concat, List.dropLast_concat]

theorem toNat_lt_of_mem_padded {descr : List Char} (hdescr : ∀ c ∈ descr, c.toNat < 128)
    {shape : List Nat} {start : Nat} {c : Char} (hc : c ∈ padded start (literalChars descr shape)) :
    c.toNat < 128 := by
  have hdims : ∀ other ∈ dimChars shape, other.toNat < 128 := by
    intro other hother
    obtain ⟨n, _, hn⟩ := List.mem_flatMap.mp hother
    rcases List.mem_append.mp hn with hdigit | hcomma
    · obtain ⟨m, hm, rfl⟩ := Text.exists_digitChar (Text.isDigit_of_mem_digits hdigit)
      rw [Nat.toNat_digitChar_of_lt_ten hm]
      omega
    · exact ascii_of_all (by decide) other hcomma
  unfold padded literalChars at hc
  simp only [List.mem_append, List.mem_replicate, List.mem_singleton] at hc
  rcases hc with ((((((h | h) | h) | h) | h) | h) | h)
  · exact ascii_of_all (by decide) c h
  · exact hdescr c h
  · exact ascii_of_all (by decide) c h
  · exact hdims c h
  · exact ascii_of_all (by decide) c h
  · rw [h.2]
    decide
  · rw [h]
    decide

theorem dimension?_eq_some_iff {item : Literal} {n : Nat} :
    dimension? item = some n ↔ item = .integer (n : Nat) ∧ n < Size.limit := by
  constructor
  · intro heq
    unfold dimension? at heq
    split at heq
    · rename_i m
      split at heq
      · rename_i hrange
        cases heq
        exact ⟨congrArg Literal.integer (Int.toNat_of_nonneg hrange.1).symm, hrange.2⟩
      · cases heq
    · cases heq
  · rintro ⟨rfl, hlt⟩
    exact if_pos ⟨Int.natCast_nonneg n, hlt⟩

theorem mapM_dimension? {shape : List Nat} (hdims : ∀ n ∈ shape, n < Size.limit) :
    (shape.map fun n => Literal.integer (n : Nat)).mapM dimension? = some shape := by
  induction shape with
  | nil => rfl
  | cons n rest ih =>
      rw [List.map_cons, List.mapM_cons,
        dimension?_eq_some_iff.mpr ⟨rfl, hdims n List.mem_cons_self⟩,
        ih fun m hm => hdims m (List.mem_cons_of_mem _ hm)]
      rfl

theorem fields?_dict {entries : List (Literal × Literal)} {descr dims : Literal}
    {type : Option TypeString} {shape : List Nat} {fortranOrder : Bool}
    (hkeys : entries.all (fun entry => isText entry.1) = true)
    (hdescr : lookup? entries "descr" = some descr) (htype : typeString? descr = some type)
    (hdims : lookup? entries "shape" = some dims) (hshape : shape? dims = some shape)
    (horder : lookup? entries "fortran_order" = some (.boolean fortranOrder)) :
    fields? (.dict entries) = some ⟨type, fortranOrder, shape⟩ := by
  unfold fields?
  dsimp only
  rw [if_pos hkeys, hdescr, hdims, horder]
  simp only [Option.bind_eq_bind, Option.bind_some, htype, hshape]

theorem fields?_eq_some_iff {l : Literal} {fields : Fields} :
    fields? l = some fields ↔
      ∃ entries descr dims, l = .dict entries ∧ (entries.all fun entry => isText entry.1) = true ∧
        lookup? entries "descr" = some descr ∧ typeString? descr = some fields.type ∧
        lookup? entries "shape" = some dims ∧ shape? dims = some fields.shape ∧
        lookup? entries "fortran_order" = some (.boolean fields.fortranOrder) := by
  constructor
  · intro hfields
    unfold fields? at hfields
    split at hfields
    · rename_i entries
      split at hfields
      · rename_i hkeys
        simp only [Option.bind_eq_bind, Option.bind_eq_some_iff] at hfields
        obtain ⟨descr, hdescr, type, htype, dims, hdims, shape, hshape, order, horder, hmade⟩ :=
          hfields
        split at hmade
        · cases hmade
          exact ⟨entries, descr, dims, rfl, hkeys, hdescr, htype, hdims, hshape, horder⟩
        · cases hmade
      · cases hfields
    · cases hfields
  · rintro ⟨entries, descr, dims, rfl, hkeys, hdescr, htype, hdims, hshape, horder⟩
    exact fields?_dict hkeys hdescr htype hdims hshape horder

theorem fields?_header {descr : List Char} {type : TypeString} {shape : List Nat}
    (htype : TypeString.parse? descr = some type) (hdims : ∀ n ∈ shape, n < Size.limit) :
    fields? (Literal.header descr shape) = some ⟨some type, false, shape⟩ := by
  have hdescr : typeString? (.text descr) = some (some type) := by
    rw [typeString?, htype]
    rfl
  exact fields?_dict rfl rfl hdescr rfl (mapM_dimension? hdims) rfl

theorem parse_ofDtype (d : Dtype) :
    ∃ type, TypeString.parse? (Descr.ofDtype d).chars = some type ∧
      Descr.parseChars type.chars = .ok (Descr.ofDtype d) := by
  rcases d with size | size | format
  · cases size <;> exact ⟨_, rfl, rfl⟩
  · cases size <;> exact ⟨_, rfl, rfl⟩
  · cases format <;> exact ⟨_, rfl, rfl⟩

theorem chars_ofDtype (d : Dtype) :
    (Descr.ofDtype d).chars ≠ [] ∧ (∀ c ∈ (Descr.ofDtype d).chars, Token.isPlain c = true) ∧
      ∀ c ∈ (Descr.ofDtype d).chars, c.toNat < 128 := by
  have hchars : (Descr.ofDtype d).chars ≠ [] ∧ (Descr.ofDtype d).chars.all Token.isPlain = true ∧
      (Descr.ofDtype d).chars.all (fun c => decide (c.toNat < 128)) = true := by
    rcases d with size | size | format
    · cases size <;> decide
    · cases size <;> decide
    · cases format <;> decide
  exact ⟨hchars.1, List.all_eq_true.mp hchars.2.1, ascii_of_all hchars.2.2⟩

theorem length_chars_ofDtype (d : Dtype) : (Descr.ofDtype d).chars.length = 3 := by
  rcases d with size | size | format
  · cases size <;> rfl
  · cases size <;> rfl
  · cases format <;> rfl

theorem lt_of_mem_mapM_dimension? {items : List Literal} {shape : List Nat}
    (hitems : items.mapM dimension? = some shape) : ∀ n ∈ shape, n < Size.limit := by
  intro n hn
  obtain ⟨item, -, hitem⟩ := exists_of_mem_mapM hitems n hn
  exact (dimension?_eq_some_iff.mp hitem).2

theorem shape_lt_of_fields? {literal : Literal} {fields : Fields}
    (hfields : fields? literal = some fields) : ∀ n ∈ fields.shape, n < Size.limit := by
  obtain ⟨_, _, _, -, -, -, -, -, hshape, -⟩ := fields?_eq_some_iff.mp hfields
  obtain ⟨items, -, hitems⟩ := Option.bind_eq_some_iff.mp hshape
  exact lt_of_mem_mapM_dimension? hitems

theorem ofFields_eq_ok_iff {fields : Fields} {h : Header} :
    ofFields fields = .ok h ↔
      ∃ type, fields = ⟨some type, h.fortranOrder, h.shape⟩ ∧
        Descr.parseChars type.chars = .ok h.descr := by
  constructor
  · intro hmade
    unfold ofFields at hmade
    split at hmade
    · cases hmade
    · rename_i type htype
      obtain ⟨descr, hdescr, heq⟩ := bind_eq_ok_iff.mp hmade
      cases heq
      exact ⟨type, by rw [← htype], hdescr⟩
  · rintro ⟨type, rfl, hdescr⟩
    exact bind_eq_ok_iff.mpr ⟨h.descr, hdescr, rfl⟩

theorem shape_eq_of_ofFields {fields : Fields} {h : Header} (hmade : ofFields fields = .ok h) :
    h.shape = fields.shape := by
  obtain ⟨_, rfl, -⟩ := ofFields_eq_ok_iff.mp hmade
  rfl

theorem read_eq_ok_iff {bytes rest : Bytes} {h : Header} :
    read bytes = .ok (h, rest) ↔
      ∃ literal fields, split bytes = .ok (literal, rest) ∧ ofBytes? literal = some fields ∧
        ofFields fields = .ok h := by
  unfold read
  constructor
  · intro hread
    split at hread
    · cases hread
    · rename_i literal tail hsplit
      split at hread
      · cases hread
      · rename_i fields hfields
        obtain ⟨made, hmade, heq⟩ := bind_eq_ok_iff.mp hread
        cases heq
        exact ⟨literal, fields, hsplit, hfields, hmade⟩
  · rintro ⟨literal, fields, hsplit, hfields, hmade⟩
    rw [hsplit]
    dsimp only
    rw [hfields]
    dsimp only
    rw [hmade]
    rfl

theorem shape_lt_of_read {bytes rest : Bytes} {h : Header} (hread : read bytes = .ok (h, rest)) :
    ∀ n ∈ h.shape, n < Size.limit := by
  obtain ⟨literal, fields, -, hfields, hmade⟩ := read_eq_ok_iff.mp hread
  obtain ⟨_, _, hfields⟩ := Option.bind_eq_some_iff.mp hfields
  obtain ⟨_, _, hfields⟩ := Option.bind_eq_some_iff.mp hfields
  rw [shape_eq_of_ofFields hmade]
  exact shape_lt_of_fields? hfields

/-- Whether the four bytes that the format has for the length of a literal hold the one of an array. -/
def Storable (d : Dtype) (shape : List Nat) : Prop :=
  (padded 12 (literalChars (Descr.ofDtype d).chars shape)).length < 2 ^ 32

theorem length_dimChars_le {shape : List Nat} (hdims : ∀ n ∈ shape, n < Size.limit) :
    (dimChars shape).length ≤ 22 * shape.length := by
  induction shape with
  | nil => decide
  | cons n rest ih =>
      have hn : (Text.digits n).length ≤ 20 := by
        have hlt : n < 2 ^ 64 := hdims n List.mem_cons_self
        exact (Nat.length_toDigits_le_iff (by decide) (by decide)).mpr (Nat.lt_trans hlt (by decide))
      have hrest := ih fun m hm => hdims m (List.mem_cons_of_mem _ hm)
      have hcomma : ", ".toList.length = 2 := by decide
      unfold dimChars at hrest ⊢
      rw [List.flatMap_cons, List.length_append, List.length_append, List.length_cons]
      omega

theorem length_padded (start : Nat) (literal : List Char) :
    (padded start literal).length = literal.length + (63 - (literal.length + start) % 64) + 1 := by
  unfold padded
  rw [List.length_append, List.length_append, List.length_replicate, List.length_singleton]

theorem storable_of_short {d : Dtype} {shape : List Nat}
    (hshort : (padded 10 (literalChars (Descr.ofDtype d).chars shape)).length < 2 ^ 16) :
    Storable d shape := by
  simp only [Storable, length_padded] at hshort ⊢
  omega

/-- The four bytes are enough for more than a hundred million axes. -/
theorem storable_of_length (d : Dtype) {shape : List Nat} (hdims : ∀ n ∈ shape, n < Size.limit)
    (haxes : shape.length < 2 ^ 27) : Storable d shape := by
  have hdescr := length_chars_ofDtype d
  have hsizes := length_dimChars_le hdims
  unfold dimChars at hsizes
  have hstart : "\x7b'descr': '".toList.length = 11 := by decide
  have hmiddle : "', 'fortran_order': False, 'shape': (".toList.length = 37 := by decide
  have hend : "), \x7d".toList.length = 4 := by decide
  unfold Storable
  rw [length_padded]
  unfold literalChars
  simp only [List.length_append]
  omega

theorem ofBytes?_ofText (text : List Char) :
    ofBytes? (Bytes.ofText (String.ofList text)) = (Literal.parse? (chomp text)).bind fields? := by
  unfold ofBytes?
  rw [Bytes.toText?_ofText]
  change (Literal.parse? (chomp (String.ofList text).toList)).bind fields? = _
  rw [String.toList_ofList]

theorem ofBytes?_padded_of_parse? {descr : Descr} {type : TypeString}
    (htype : TypeString.parse? descr.chars = some type)
    (hdescr : Descr.parseChars type.chars = .ok descr) (hne : descr.chars ≠ [])
    (hplain : ∀ c ∈ descr.chars, Token.isPlain c = true) {shape : List Nat}
    (hdims : ∀ n ∈ shape, n < Size.limit) (start : Nat) :
    ∃ fields,
      ofBytes? (Bytes.ofText (String.ofList (padded start (literalChars descr.chars shape)))) =
        some fields ∧
      ofFields fields = .ok ⟨descr, false, shape⟩ := by
  refine ⟨⟨some type, false, shape⟩, ?_, ?_⟩
  · have hscans := scans_literalChars hne hplain shape
      (63 - ((literalChars descr.chars shape).length + start) % 64)
    rw [← chomp_padded] at hscans
    rw [ofBytes?_ofText, Literal.parse?_of_scans hscans]
    exact fields?_header htype hdims
  · unfold ofFields
    dsimp only
    rw [hdescr]
    rfl

theorem ofBytes?_padded (d : Dtype) {shape : List Nat} (hdims : ∀ n ∈ shape, n < Size.limit)
    (start : Nat) :
    ∃ fields,
      ofBytes? (Bytes.ofText
        (String.ofList (padded start (literalChars (Descr.ofDtype d).chars shape)))) = some fields ∧
      ofFields fields = .ok ⟨Descr.ofDtype d, false, shape⟩ := by
  obtain ⟨type, htype, hdescr⟩ := parse_ofDtype d
  obtain ⟨hne, hplain, -⟩ := chars_ofDtype d
  exact ofBytes?_padded_of_parse? htype hdescr hne hplain hdims start

theorem write_eq {d : Dtype} {shape : List Nat} (hstorable : Storable d shape) :
    ∃ version size start, ∃ literal : Bytes, Version version size ∧
      literal = Bytes.ofText
        (String.ofList (padded start (literalChars (Descr.ofDtype d).chars shape))) ∧
      literal.length < 256 ^ size ∧
      write d shape = magic ++ version ++ Bytes.ofNat size literal.length ++ literal := by
  have hlength (start : Nat) : (Bytes.ofText
      (String.ofList (padded start (literalChars (Descr.ofDtype d).chars shape)))).length =
        (padded start (literalChars (Descr.ofDtype d).chars shape)).length :=
    Bytes.length_ofText_ofList fun c hc => toNat_lt_of_mem_padded (chars_ofDtype d).2.2 hc
  unfold write
  dsimp only
  split
  · rename_i hshort
    exact ⟨_, _, 10, _, .short, rfl, (hlength 10).symm ▸ hshort, by rw [hlength]⟩
  · exact ⟨_, _, 12, _, .long, rfl, (hlength 12).symm ▸ hstorable, by rw [hlength]⟩

theorem read_write {d : Dtype} {shape : List Nat} (hdims : ∀ n ∈ shape, n < Size.limit)
    (hstorable : Storable d shape) (rest : Bytes) :
    read (write d shape ++ rest) = .ok (⟨Descr.ofDtype d, false, shape⟩, rest) := by
  obtain ⟨version, size, start, literal, hversion, hliteral, hfits, hwrite⟩ := write_eq hstorable
  obtain ⟨fields, hfields, hheader⟩ := ofBytes?_padded d hdims start
  refine read_eq_ok_iff.mpr ⟨literal, fields, ?_, hliteral ▸ hfields, hheader⟩
  rw [hwrite]
  exact split_append hversion hfits rest

end Bitpack.Npy.Header
