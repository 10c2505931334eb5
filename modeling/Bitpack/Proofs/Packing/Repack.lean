import Bitpack.Proofs.Element.Integer
import Bitpack.Proofs.Packing.BitLayout

/-!
Unpacking and packing again. Integer elements bring every word back, down to its last bit, as far as
the elements reach; what stands above them is cut off.
-/
namespace Bitpack

namespace Word

def cut (w : Word) (width : Nat) : Word :=
  ⟨width, (List.range (limbCount width)).map fun i => w.limb i &&& Slot.mask (width - 64 * i)⟩

theorem testBit_cut (w : Word) (width i : Nat) :
    (w.cut width).testBit i = (decide (i < width) && w.testBit i) := by
  unfold testBit limb cut
  rw [List.getD_eq_getElem?_getD, List.getElem?_map]
  by_cases hi : i / 64 < limbCount width
  · rw [List.getElem?_range hi, Option.map_some, Option.getD_some, BitVec.getLsbD_and,
      Slot.getLsbD_mask, Bool.and_comm]
    congr 1
    exact decide_eq_decide.mpr (by omega)
  · have hwidth : ¬i < width := by
      unfold limbCount at hi
      omega
    rw [List.getElem?_eq_none (by rw [List.length_range]; omega)]
    simp [hwidth]

theorem wellFormed_cut (w : Word) (width : Nat) : (w.cut width).WellFormed where
  length_limbs := by simp [cut]
  value_lt := (value_lt_iff_testBit _).mpr fun i hi => by
    have hwidth : ¬i < width := Nat.not_lt.mpr hi
    simp [testBit_cut, hwidth]

theorem value_cut (w : Word) (width : Nat) : (w.cut width).value = w.value % 2 ^ width := by
  apply Nat.eq_of_testBit_eq
  intro i
  rw [testBit_value, testBit_cut, Nat.testBit_mod_two_pow, testBit_value]

theorem WellFormed.cut_eq {w : Word} (hw : w.WellFormed) : w.cut w.width = w :=
  (wellFormed_cut w w.width).eq_of_value hw rfl
    ((value_cut w w.width).trans (Nat.mod_eq_of_lt hw.value_lt))

theorem slotValue_cut (w : Word) {width s b : Nat} (hs : (s + 1) * b ≤ width) :
    (w.cut width).slotValue s b = w.slotValue s b := by
  apply Nat.eq_of_testBit_eq
  intro t
  rw [testBit_slotValue, testBit_slotValue, testBit_cut]
  by_cases ht : t < b
  · have hbit : s * b + t < width := Nat.lt_of_lt_of_le (by omega) (slot_range_le hs)
    simp [hbit]
  · simp [ht]

end Word

namespace Packing

theorem rows_flatMap {α β : Type} {n : Nat} {f : α → List β} (hlength : ∀ a, (f a).length = n)
    (items : List α) : Tensor.rows n items.length (items.flatMap f) = items.map f := by
  induction items with
  | nil => rfl
  | cons a rest ih =>
      rw [List.length_cons, Tensor.rows, List.flatMap_cons, List.take_left' (hlength a),
        List.drop_left' (hlength a), ih, List.map_cons]

section

variable [Platform] {d : Dtype}

theorem Holds.eq {e : ElementType} {l : Layout} {reverse : Bool} {row : List (Scalar d)}
    {v w : Word} (hv : Holds e l reverse row v) (hw : Holds e l reverse row w) : v = w := by
  -- The slots cover the word, so that its value is a sum over the row.
  apply hv.wellFormed.eq_of_value hw.wellFormed (hv.width_eq.trans hw.width_eq.symm)
  rw [hv.value_eq, hw.value_eq]

theorem holds_wordRow_cut {e : ElementType} (he : e.kind = .integer) (hd : d.isFloat = false)
    (hwidth : e.bits ≤ d.width) (l : Layout) (options : Options) (w : Word) :
    Holds e l options.reverseInner (wordRow d e l options w) (w.cut (l.slotBits e.bits)) where
  wellFormed := Word.wellFormed_cut w _
  width_eq := rfl
  slots := by
    rw [wordRow, List.map_map]
    apply List.map_congr_left
    intro slot hslot
    rw [Word.slotValue_cut w (slot_end_le hslot e.bits)]
    exact (ElementType.toNat_encode_decode he hd hwidth (w.slotValue_lt slot e.bits)).symm

theorem tensorWords_of_flatMap {e : ElementType} (he : e.kind = .integer) (hd : d.isFloat = false)
    (hwidth : e.bits ≤ d.width) {l : Layout} (options : Options) {t : Tensor d} {words : List Word}
    (hlength : words.length = l.outer)
    (hvalues : t.values = words.flatMap (wordRow d e l options)) :
    tensorWords t e l options = words.map (·.cut (l.slotBits e.bits)) := by
  rw [tensorWords, hvalues, ← hlength, rows_flatMap (length_wordRow d e l options), List.map_map]
  apply List.map_congr_left
  intro w _
  exact (rowWord_holds e options (length_wordRow d e l options w)).2.eq
    (holds_wordRow_cut he hd hwidth l options w)

/-- Words that are wide enough, wherever they come from, are unpacked to a tensor of integers that is
packed into the same words, cut to the bits of the elements. Words of just that width come back as
they were. -/
theorem pack_unpack {e : ElementType} (he : e.kind = .integer) (hd : d.isFloat = false)
    (hwidth : e.bits ≤ d.width) {shape : List Nat} (hsized : Sized d shape e) {options : Options}
    {l : Layout} {last : Nat} (hlayout : Layout.ofShape shape options.blocks = .ok l)
    (hlast : shape.getLast? = some last) {words : List Word}
    (hlength : words.length = shape.dropLast.prod) (hwidths : ∀ w ∈ words, last * e.bits ≤ w.width) :
    ∃ t : Tensor d,
      (∀ rest, (unpack d shape e options).settle (words ++ rest) = (.ok t, rest)) ∧
      (∀ queue, (pack t e options).settle queue =
        (.ok (), queue ++ words.map (·.cut (last * e.bits)))) ∧
      (∀ w ∈ words, (w.cut (last * e.bits)).WellFormed ∧
        (w.cut (last * e.bits)).width = last * e.bits ∧
        (w.cut (last * e.bits)).value = w.value % 2 ^ (last * e.bits)) ∧
      ((∀ w ∈ words, w.WellFormed ∧ w.width = last * e.bits) →
        words.map (·.cut (last * e.bits)) = words) := by
  obtain ⟨houter, hfull, hcount⟩ := Layout.sizes_of_ofShape hlayout hlast hsized.fits.dropLast
  have hbits : l.slotBits e.bits = last * e.bits := by rw [Layout.slotBits, hfull]
  have houter' : words.length = l.outer := hlength.trans houter.symm
  rw [← hbits] at hwidths ⊢
  obtain ⟨t, hshape, hvalues, hunpack⟩ := settle_unpack d hlayout hsized houter' hwidths
  have hpacked := tensorWords_of_flatMap he hd hwidth options houter' hvalues
  refine ⟨t, hunpack, fun queue => ?_, fun w _ => ?_, fun hexact => ?_⟩
  · rw [← hpacked]
    refine settle_pack e (hshape ▸ hlayout) ?_ (hbits ▸ hsized.bits_lt hlast) queue
    rw [t.length_values, hshape, hcount]
  · exact ⟨Word.wellFormed_cut w _, rfl, Word.value_cut w _⟩
  · refine (List.map_congr_left fun w hw => ?_).trans (List.map_id words)
    obtain ⟨hwf, heq⟩ := hexact w hw
    rw [← heq]
    exact hwf.cut_eq

end

open scoped Platform.Release

theorem pack_unpack_padded :
    (ElementType.int ⟨33, by decide, by decide⟩).kind = .integer ∧
      (Dtype.uint .eight).isFloat = false ∧ 33 ≤ (Dtype.uint .eight).width ∧
      Sized (.uint .eight) [2, 2] (.int ⟨33, by decide, by decide⟩) ∧
      Layout.ofShape [2, 2] 1 = .ok ⟨2, 2, 1⟩ ∧ ([2, 2] : List Nat).getLast? = some 2 ∧
      ∃ t : Tensor (.uint .eight),
        (unpack (.uint .eight) [2, 2] (.int ⟨33, by decide, by decide⟩) ⟨true, 1, 1⟩).settle
          [⟨70, [0xFEDCBA9876543210, 0x2F]⟩, ⟨66, [0x123456789, 0x2]⟩] = (.ok t, []) ∧
        (pack t (.int ⟨33, by decide, by decide⟩) ⟨true, 1, 1⟩).settle [] =
          (.ok (), [⟨66, [0xFEDCBA9876543210, 0x3]⟩, ⟨66, [0x123456789, 0x2]⟩]) := by
  have hwidths : ∀ w ∈ ([⟨70, [0xFEDCBA9876543210, 0x2F]⟩, ⟨66, [0x123456789, 0x2]⟩] : List Word),
      66 ≤ w.width := by decide
  have hsized : Sized (.uint .eight) [2, 2] (.int ⟨33, by decide, by decide⟩) :=
    sized_of_getLast? (show List.getLast? [_, 2] = some 2 from rfl) (by decide) (by decide) (by decide)
  obtain ⟨t, hunpack, hpack, -, -⟩ := pack_unpack (d := .uint .eight)
    (e := .int ⟨33, by decide, by decide⟩) rfl rfl (by decide) hsized
    (show Layout.ofShape [2, 2] (Options.blocks ⟨true, 1, 1⟩) = .ok ⟨2, 2, 1⟩ from rfl) rfl rfl
    hwidths
  exact ⟨rfl, rfl, by decide, hsized, rfl, rfl, t, hunpack [], (hpack []).trans (by decide)⟩

/-- Words of `2^66` bits stop both ways where sizes are checked, even if there are none, and elsewhere
a tensor of `2^63` bytes does not come back from a wide word. Nor are words left in a channel that
nobody reads. -/
theorem pack_unpack_stopped :
    Layout.ofShape [1, 1152921504606846976] 1 = .ok ⟨1, 1152921504606846976, 1⟩ ∧
    (unpack (.int .eight) [1, 1152921504606846976] (.int ⟨1, by decide, by decide⟩)
      ⟨false, 1, 1⟩).settle [Word.zero 1152921504606846976] =
        (.error (.size .capacity), [Word.zero 1152921504606846976]) ∧
    (Streaming.Pipe.mk 0 [] (pack threeRows (.uint ⟨8, by decide, by decide⟩) ⟨false, 1, 1⟩)
      (unpack (.uint .one) [0, 2] (.uint ⟨8, by decide, by decide⟩) ⟨false, 1, 1⟩)).results =
        (.error (.stream .readerGone), .ok ⟨[0, 2], [], by decide, by decide, by decide, by decide⟩) ∧
    letI := Platform.throughSingle true
    Layout.ofShape longRows.shape 1 = .ok ⟨0, 1152921504606846976, 1⟩ ∧
      (unpack (.int .eight) longRows.shape (.int ⟨64, by decide, by decide⟩)
        ⟨false, 1, 1⟩).settle [] = (.error (.size .overflow), []) ∧
      (pack longRows (.int ⟨64, by decide, by decide⟩) ⟨false, 1, 1⟩).settle [] =
        (.error (.size .overflow), []) :=
  ⟨rfl, rfl, by decide +kernel, rfl, rfl, rfl⟩

end Packing

end Bitpack
