import Bitpack.Proofs.Npy.Descr
import Bitpack.Proofs.Npy.Header
import Bitpack.Proofs.Npy.TypeString

/-!
Headers with the other order mark. However a header is spelled, with another mark in it the header is
read as the same one but for the order.
-/
namespace Bitpack.Npy.Header

theorem isText_mapText (f : List Char → List Char) (l : Literal) :
    isText (l.mapText f) = isText l := by
  cases l <;> rfl

theorem dimension?_mapText (f : List Char → List Char) (l : Literal) :
    dimension? (l.mapText f) = dimension? l := by
  cases l <;> rfl

theorem shape?_mapText (f : List Char → List Char) (l : Literal) :
    shape? (l.mapText f) = shape? l := by
  have hitems : ∀ items : List Literal,
      (Literal.mapItems f items).mapM dimension? = items.mapM dimension? := by
    intro items
    rw [Literal.mapItems_eq_map, List.mapM_map]
    exact congrArg (fun p => items.mapM p) (funext (dimension?_mapText f))
  cases l with
  | tuple items => exact hitems items
  | list items => exact hitems items
  | text content => rfl
  | integer value => rfl
  | boolean value => rfl
  | dict entries => rfl
  | other => rfl

theorem lookup?_mapEntries {key : String} (hkey : ∀ c ∈ key.toList, IsUnmarked c)
    (entries : List (Literal × Literal)) :
    lookup? (Literal.mapEntries (List.map blur) entries) key =
      (lookup? entries key).map (Literal.mapText (List.map blur)) := by
  unfold lookup?
  rw [Literal.mapEntries_eq_map, ← List.map_reverse, List.find?_map, Option.map_map, Option.map_map]
  congr 1
  congr 1
  funext entry
  obtain ⟨literal, value⟩ := entry
  cases literal with
  | text content =>
      change (content.map blur == key.toList) = (content == key.toList)
      rw [Bool.eq_iff_iff, beq_iff_eq, beq_iff_eq, map_blur_eq_iff hkey]
  | _ => rfl

theorem lookup?_of_mapEntries_eq {key : String} (hkey : ∀ c ∈ key.toList, IsUnmarked c)
    {entries entries' : List (Literal × Literal)} {found : Literal}
    (heq : Literal.mapEntries (List.map blur) entries' = Literal.mapEntries (List.map blur) entries)
    (hfound : lookup? entries key = some found) :
    ∃ found', lookup? entries' key = some found' ∧
      found'.mapText (List.map blur) = found.mapText (List.map blur) := by
  have hsame := lookup?_mapEntries hkey entries'
  rw [heq, lookup?_mapEntries hkey, hfound] at hsame
  exact Option.map_eq_some_iff.mp hsame.symm

theorem all_isText_mapEntries (f : List Char → List Char) (entries : List (Literal × Literal)) :
    ((Literal.mapEntries f entries).all fun entry => isText entry.1) =
      entries.all fun entry => isText entry.1 := by
  rw [Literal.mapEntries_eq_map, List.all_map]
  exact congrArg (fun p => entries.all p) (funext fun entry => isText_mapText f entry.1)

theorem typeString?_eq_some_iff {descr : Literal} {type : TypeString} :
    typeString? descr = some (some type) ↔
      ∃ content, descr = .text content ∧ TypeString.parse? content = some type := by
  cases descr with
  | text content => simp [typeString?]
  | _ =>
      simp only [typeString?]
      split <;> simp

theorem fields?_of_mapText_eq {l l' : Literal} {type : TypeString} {fortranOrder : Bool}
    {shape : List Nat} (hfields : fields? l = some ⟨some type, fortranOrder, shape⟩)
    (heq : l'.mapText (List.map blur) = l.mapText (List.map blur)) :
    ∃ order,
      fields? l' = some ⟨some { type with order := order }, fortranOrder, shape⟩ := by
  obtain ⟨entries, descr, dims, rfl, hkeys, hdescr, htype, hdims, hshape, hfortran⟩ :=
    fields?_eq_some_iff.mp hfields
  obtain ⟨content, rfl, hparse⟩ := typeString?_eq_some_iff.mp htype
  cases l' with
  | dict entries' =>
      have hentries := Literal.dict.inj heq
      have hkeys' : (entries'.all fun entry => isText entry.1) = true := by
        rw [← all_isText_mapEntries (List.map blur), hentries, all_isText_mapEntries, hkeys]
      obtain ⟨descr', hdescr', hcontent⟩ :=
        lookup?_of_mapEntries_eq (unmarked_of_all (by decide)) hentries hdescr
      obtain ⟨dims', hdims', hsame⟩ :=
        lookup?_of_mapEntries_eq (unmarked_of_all (by decide)) hentries hdims
      obtain ⟨fortran', hfortran', hboolean⟩ :=
        lookup?_of_mapEntries_eq (unmarked_of_all (by decide)) hentries hfortran
      have hshape' : shape? dims' = some shape := by
        rw [← shape?_mapText (List.map blur), hsame, shape?_mapText, hshape]
      cases fortran' with
      | boolean fortran' =>
          cases hboolean
          cases descr' with
          | text content' =>
              obtain ⟨order, hparse'⟩ :=
                TypeString.parse?_of_map_blur hparse (Literal.text.inj hcontent)
              exact ⟨order, fields?_dict hkeys' hdescr'
                (typeString?_eq_some_iff.mpr ⟨content', rfl, hparse'⟩) hdims' hshape' hfortran'⟩
          | _ => cases hcontent
      | _ => cases hboolean
  | _ => cases heq

theorem chomp_map_blur (text : List Char) : chomp (text.map blur) = (chomp text).map blur := by
  have hlast : (text.map blur).getLast? = some '\n' ↔ text.getLast? = some '\n' := by
    rw [List.getLast?_eq_head?_reverse, List.getLast?_eq_head?_reverse, ← List.map_reverse]
    exact Token.head?_map_blur_eq_some_iff (by decide) text.reverse
  unfold chomp
  by_cases hbreak : text.getLast? = some '\n'
  · rw [if_pos hbreak, if_pos (hlast.mpr hbreak), List.map_dropLast]
  · rw [if_neg hbreak, if_neg (mt hlast.mp hbreak)]

theorem ofBytes?_of_map_blur {text text' : List Char} (heq : text'.map blur = text.map blur)
    {type : TypeString} {fortranOrder : Bool} {shape : List Nat}
    (hfields : ofBytes? (Bytes.ofText (String.ofList text)) =
      some ⟨some type, fortranOrder, shape⟩) :
    ∃ order,
      ofBytes? (Bytes.ofText (String.ofList text')) =
        some ⟨some { type with order := order }, fortranOrder, shape⟩ := by
  rw [ofBytes?_ofText] at hfields ⊢
  obtain ⟨literal, hliteral, hfields⟩ := Option.bind_eq_some_iff.mp hfields
  have hchomp : (chomp text').map blur = (chomp text).map blur := by
    rw [← chomp_map_blur, heq, chomp_map_blur]
  have hsame := congr_of_map_blur Literal.parse?_map_blur hchomp
  rw [hliteral] at hsame
  obtain ⟨literal', hliteral', hmap⟩ := Option.map_eq_some_iff.mp hsame
  obtain ⟨order, hfields'⟩ := fields?_of_mapText_eq hfields hmap
  exact ⟨order, Option.bind_eq_some_iff.mpr ⟨literal', hliteral', hfields'⟩⟩

theorem isValid_of_ofBytes? {bytes : Bytes} {type : TypeString} {fortranOrder : Bool}
    {shape : List Nat} (hfields : ofBytes? bytes = some ⟨some type, fortranOrder, shape⟩) :
    type.isValid = true := by
  obtain ⟨_, _, hfields⟩ := Option.bind_eq_some_iff.mp hfields
  obtain ⟨literal, _, hfields⟩ := Option.bind_eq_some_iff.mp hfields
  obtain ⟨_, _, _, _, _, _, htype, _⟩ := fields?_eq_some_iff.mp hfields
  obtain ⟨_, _, hparse⟩ := typeString?_eq_some_iff.mp htype
  obtain ⟨_, _, _, _, hvalid⟩ := TypeString.parse?_eq_some_iff.mp hparse
  exact hvalid

theorem length_ofText_map_blur (text : List Char) :
    (Bytes.ofText (String.ofList (text.map blur))).length =
      (Bytes.ofText (String.ofList text)).length := by
  change (String.ofList (text.map blur)).utf8ByteSize = (String.ofList text).utf8ByteSize
  induction text with
  | nil => rfl
  | cons c rest ih =>
      have hsize : (blur c).utf8Size = c.utf8Size := apply_blur (p := Char.utf8Size) rfl c
      rw [List.map_cons, String.ofList_cons, String.ofList_cons, String.utf8ByteSize_append,
        String.utf8ByteSize_append, String.utf8ByteSize_singleton, String.utf8ByteSize_singleton,
        hsize, ih]

theorem order_cons_of_isValid {t : TypeString} (hvalid : t.isValid = true) (tail : List Char) :
    Descr.order (t.order :: tail) = (t.order == '>', tail) := by
  rcases TypeString.order_of_isValid hvalid with hmark | hmark | hmark <;>
  · rw [hmark]
    rfl

theorem parseChars_of_order {t : TypeString} {order : Char} {descr : Descr}
    (hvalid : t.isValid = true) (hvalid' : TypeString.isValid { t with order := order } = true)
    (hdescr : Descr.parseChars t.chars = .ok descr) :
    Descr.parseChars (TypeString.chars { t with order := order }) =
      .ok { descr with bigEndian := order == '>' } := by
  obtain ⟨size, horder, hsize⟩ := Descr.parseChars_eq_ok_iff.mp hdescr
  refine Descr.parseChars_eq_ok_iff.mpr ⟨size, ?_, hsize⟩
  have htail := (Prod.mk.inj ((order_cons_of_isValid hvalid _).symm.trans horder)).2
  exact (order_cons_of_isValid hvalid' _).trans (congrArg (Prod.mk (order == '>')) htail)

/-- The start of a file in front of the text of its header: a version, and the length of the text in as
many bytes as the version has for it. -/
structure Frame where
  version : Bytes
  count : Bytes
  size : Nat
  known : Version version size
  length_count : count.length = size

def Frame.file (frame : Frame) (text : List Char) (rest : Bytes) : Bytes :=
  magic ++ (frame.version ++ (frame.count ++ (Bytes.ofText (String.ofList text) ++ rest)))

theorem Frame.read_file_iff {frame : Frame} {text : List Char} {h : Header} {rest : Bytes} :
    read (frame.file text rest) = .ok (h, rest) ↔
      Bytes.toNat frame.count = (Bytes.ofText (String.ofList text)).length ∧
        ∃ type, ofBytes? (Bytes.ofText (String.ofList text)) =
            some ⟨some type, h.fortranOrder, h.shape⟩ ∧
          Descr.parseChars type.chars = .ok h.descr := by
  rw [read_eq_ok_iff]
  constructor
  · rintro ⟨literal, fields, hsplit, hfields, hmade⟩
    obtain ⟨type, rfl, hdescr⟩ := ofFields_eq_ok_iff.mp hmade
    obtain ⟨version, size, count, hversion, hcount, hnumber, hbytes⟩ := split_eq_ok_iff.mp hsplit
    -- The parts of a file are determined by their lengths.
    obtain ⟨rfl, hparts⟩ := List.append_inj (List.append_cancel_left hbytes)
      (frame.known.length_eq.trans hversion.length_eq.symm)
    have hsize : frame.size = size := frame.known.size_eq.symm.trans hversion.size_eq
    obtain ⟨rfl, hliteral⟩ := List.append_inj hparts
      (frame.length_count.trans (hsize.trans hcount.symm))
    obtain rfl := List.append_cancel_right hliteral
    exact ⟨hnumber, type, hfields, hdescr⟩
  · rintro ⟨hnumber, type, hfields, hdescr⟩
    exact ⟨_, _, split_of_parts frame.known frame.length_count hnumber rest, hfields,
      ofFields_eq_ok_iff.mpr ⟨type, rfl, hdescr⟩⟩

theorem Frame.read_file {frame : Frame} {text : List Char} {h : Header}
    (hread : read (frame.file text []) = .ok (h, [])) (rest : Bytes) :
    read (frame.file text rest) = .ok (h, rest) :=
  read_file_iff.mpr (read_file_iff.mp hread)

theorem Frame.read_file_of_map_blur {frame : Frame} {text text' : List Char} {h : Header}
    (hread : read (frame.file text []) = .ok (h, [])) (heq : text'.map blur = text.map blur) :
    ∃ bigEndian, read (frame.file text' []) =
      .ok ({ h with descr := { h.descr with bigEndian := bigEndian } }, []) := by
  obtain ⟨hnumber, type, hfields, hdescr⟩ := read_file_iff.mp hread
  obtain ⟨order, hfields'⟩ := ofBytes?_of_map_blur heq hfields
  refine ⟨order == '>', read_file_iff.mpr ⟨?_, _, hfields', ?_⟩⟩
  · rw [hnumber, ← length_ofText_map_blur text', heq, length_ofText_map_blur]
  · exact parseChars_of_order (isValid_of_ofBytes? hfields) (isValid_of_ofBytes? hfields') hdescr

theorem exists_literalChars_eq (tail : List Char) (shape : List Nat) :
    ∃ front back, ∀ mark, literalChars (mark :: tail) shape = front ++ mark :: back := by
  unfold literalChars
  generalize "\x7b'descr': '".toList = front
  generalize "', 'fortran_order': False, 'shape': (".toList = middle
  generalize "), \x7d".toList = last
  refine ⟨front, tail ++ (middle ++ (dimChars shape ++ last)), fun mark => ?_⟩
  simp only [dimChars, List.append_assoc, List.cons_append]

theorem exists_padded_eq (start : Nat) (tail : List Char) (shape : List Nat) :
    ∃ front back, ∀ mark,
      padded start (literalChars (mark :: tail) shape) = front ++ mark :: back := by
  obtain ⟨front, back, hliteral⟩ := exists_literalChars_eq tail shape
  have hlength : ∀ mark, (front ++ mark :: back).length = front.length + (back.length + 1) := by
    simp
  refine ⟨front, back ++ (List.replicate (63 - (front.length + (back.length + 1) + start) % 64) ' ' ++
    ['\n']), fun mark => ?_⟩
  rw [padded, hliteral, hlength, List.append_assoc, List.append_assoc, List.cons_append]

theorem parse_bigEndian {d : Dtype} (hwide : 1 < d.bytes) :
    ∃ type, TypeString.parse? (Descr.chars ⟨d.kind, d.bytes, true⟩) = some type ∧
      Descr.parseChars type.chars = .ok ⟨d.kind, d.bytes, true⟩ ∧
      ∀ c ∈ Descr.chars ⟨d.kind, d.bytes, true⟩, Token.isPlain c = true := by
  rcases d with (_ | _ | _ | _) | (_ | _ | _ | _) | (_ | _ | _)
  all_goals first
    | exact absurd hwide (by decide)
    | exact ⟨_, rfl, rfl, List.all_eq_true.mp (by decide)⟩

end Bitpack.Npy.Header
