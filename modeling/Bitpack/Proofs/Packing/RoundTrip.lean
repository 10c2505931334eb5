import Bitpack.Proofs.Packing.Words

/-!
Packing and unpacking again. The words of a tensor come back as the tensor of the same shape whose
values have each been encoded and decoded, whatever the order of the slots and the number of blocks.
-/
namespace Bitpack.Packing

open Streaming (Transfer)

section

variable [Platform] {d : Dtype}

theorem layout_of_dvd {t : Tensor d} {last blocks : Nat} (hlast : t.shape.getLast? = some last)
    (hpos : 0 < blocks) (hdvd : blocks ∣ last) :
    ∃ l : Layout, Layout.ofShape t.shape blocks = .ok l ∧ l.outer = t.shape.dropLast.prod ∧
      l.inner = last / blocks ∧ l.blocks = blocks ∧ l.innerFull = last ∧
      t.values.length = l.outer * l.innerFull := by
  refine ⟨_, Layout.ofShape_of_dvd hlast hpos hdvd t.fits.dropLast, rfl, rfl, rfl,
    Nat.div_mul_cancel hdvd, ?_⟩
  rw [t.length_values, Layout.prod_eq_dropLast_mul hlast]
  exact congrArg (t.shape.dropLast.prod * ·) (Nat.div_mul_cancel hdvd).symm

theorem length_values_of_ofShape {t : Tensor d} {blocks : Nat} {l : Layout}
    (hlayout : Layout.ofShape t.shape blocks = .ok l) :
    t.values.length = l.outer * l.innerFull := by
  obtain ⟨last, -, hlast, -⟩ := Layout.ofShape_eq_ok_iff.mp hlayout
  rw [t.length_values, (Layout.sizes_of_ofShape hlayout hlast t.fits.dropLast).2.2]

theorem reserve_of_ofShape {t : Tensor d} {blocks : Nat} {l : Layout}
    (hlayout : Layout.ofShape t.shape blocks = .ok l) : l.reserve d.bytes = .ok () := by
  have hcount := length_values_of_ofShape hlayout
  refine Layout.reserve_of_lt ?_ (hcount ▸ t.bytes_lt)
  rw [← hcount, t.length_values]
  exact t.fits.prod_lt

theorem sized_of_tensor {target : Dtype} {t : Tensor d} {e : ElementType} {blocks : Nat} {l : Layout}
    (hlayout : Layout.ofShape t.shape blocks = .ok l) (hbits : l.innerFull * e.bits < Size.limit)
    (hroom : t.shape.prod * target.bytes < Size.memoryLimit) : Sized target t.shape e := by
  obtain ⟨last, -, hlast, -⟩ := Layout.ofShape_eq_ok_iff.mp hlayout
  obtain ⟨-, hfull, -⟩ := Layout.sizes_of_ofShape hlayout hlast t.fits.dropLast
  exact sized_of_getLast? hlast t.fits hroom (hfull ▸ hbits)

theorem length_tensorWords (t : Tensor d) (e : ElementType) (l : Layout) (options : Options) :
    (tensorWords t e l options).length = l.outer := by
  rw [tensorWords, List.length_map, length_rows]

theorem holds_of_mem_tensorWords {t : Tensor d} {e : ElementType} {l : Layout} {options : Options}
    (hcount : t.values.length = l.outer * l.innerFull) {w : Word}
    (hw : w ∈ tensorWords t e l options) :
    ∃ row ∈ Tensor.rows l.innerFull l.outer t.values, Holds e l options.reverseInner row w := by
  obtain ⟨row, hrow, rfl⟩ := List.mem_map.mp hw
  exact ⟨row, hrow, (rowWord_holds e options (length_of_mem_rows hcount hrow)).2⟩

theorem flatMap_wordRow_tensorWords (target : Dtype) {t : Tensor d} (e : ElementType) {l : Layout}
    (options : Options) (hcount : t.values.length = l.outer * l.innerFull) :
    (tensorWords t e l options).flatMap (wordRow target e l options) =
      t.values.map fun x => e.decode target (e.encode x) := by
  have hrows : ∀ row ∈ Tensor.rows l.innerFull l.outer t.values,
      wordRow target e l options (rowWord e l options row) =
        row.map fun x => e.decode target (e.encode x) := by
    intro row hrow
    exact (rowWord_holds e options (length_of_mem_rows hcount hrow)).2.wordRow_eq target
  calc
    (tensorWords t e l options).flatMap (wordRow target e l options) =
        (Tensor.rows l.innerFull l.outer t.values).flatMap fun row =>
          row.map fun x => e.decode target (e.encode x) := by
      rw [tensorWords, List.flatMap_map]
      exact List.flatMap_congr hrows
    _ = (Tensor.rows l.innerFull l.outer t.values).flatten.map fun x =>
          e.decode target (e.encode x) := by
      rw [List.map_flatten, List.flatMap_def]
    _ = t.values.map fun x => e.decode target (e.encode x) := by
      rw [flatten_rows hcount]

/-- A tensor with every value encoded and decoded. -/
def recoded (target : Dtype) (t : Tensor d) (e : ElementType)
    (hroom : t.shape.prod * target.bytes < Size.memoryLimit) : Tensor target where
  shape := t.shape
  values := t.values.map fun x => e.decode target (e.encode x)
  shape_ne_nil := t.shape_ne_nil
  length_values := by rw [List.length_map, t.length_values]
  fits := t.fits
  bytes_lt := by rwa [List.length_map, t.length_values]

theorem settle_unpack_tensorWords (target : Dtype) {t : Tensor d} (e : ElementType)
    {options : Options} {l : Layout} (hlayout : Layout.ofShape t.shape options.blocks = .ok l)
    (hsized : Sized target t.shape e) (rest : List Word) :
    (unpack target t.shape e options).settle (tensorWords t e l options ++ rest) =
      (.ok (recoded target t e hsized.bytes_lt), rest) := by
  have hcount := length_values_of_ofShape hlayout
  have hwidths : ∀ w ∈ tensorWords t e l options, l.slotBits e.bits ≤ w.width := by
    intro w hw
    obtain ⟨row, _, hholds⟩ := holds_of_mem_tensorWords hcount hw
    exact Nat.le_of_eq hholds.width_eq.symm
  obtain ⟨recovered, hshape, hvalues, hsettle⟩ := settle_unpack target hlayout hsized
    (length_tensorWords t e l options) hwidths
  rw [flatMap_wordRow_tensorWords target e options hcount] at hvalues
  rw [hsettle, Tensor.ext (u := recoded target t e hsized.bytes_lt) hshape hvalues]

/-- A tensor packed behind any queue and unpacked in front of any other comes back with its shape and
with every value encoded and decoded, and the queues are untouched. The tensor that comes back is one
and the same for all options. -/
theorem unpack_pack (target : Dtype) (t : Tensor d) (e : ElementType) {last : Nat}
    (hlast : t.shape.getLast? = some last) (hbits : last * e.bits < Size.limit)
    (hroom : t.shape.prod * target.bytes < Size.memoryLimit) :
    ∃ recovered : Tensor target, recovered.shape = t.shape ∧
      (∀ p : Nat, recovered.values[p]? = t.values[p]?.map fun x => e.decode target (e.encode x)) ∧
      ∀ options : Options, 0 < options.blocks → options.blocks ∣ last →
        ∃ words : List Word, words.length = t.shape.dropLast.prod ∧
          (∀ queue, (pack t e options).settle queue = (.ok (), queue ++ words)) ∧
          ∀ rest, (unpack target t.shape e options).settle (words ++ rest) =
            (.ok recovered, rest) := by
  refine ⟨recoded target t e hroom, rfl, fun p => List.getElem?_map .., ?_⟩
  intro options hpos hdvd
  obtain ⟨l, hlayout, houter, _, _, hfull, hcount⟩ := layout_of_dvd hlast hpos hdvd
  have hwidth : l.slotBits e.bits < Size.limit := by rwa [Layout.slotBits, hfull]
  refine ⟨tensorWords t e l options, ?_, settle_pack e hlayout hcount hwidth,
    settle_unpack_tensorWords target e hlayout (sized_of_getLast? hlast t.fits hroom hbits)⟩
  rw [length_tensorWords, houter]

end

open scoped Platform.Release

theorem unpack_pack_four_bits :
    ([2, 2] : List Nat).getLast? = some 2 ∧ 2 * 4 < Size.limit ∧ 4 * 4 < Size.memoryLimit ∧ 0 < 2 ∧
      2 ∣ 2 ∧ ∃ (recovered : Tensor (.int .four)) (words : List Word),
        (pack (⟨[2, 2], [7, -8, 9, -1], by decide, by decide, by decide, by decide⟩ :
          Tensor (.int .two)) (.int ⟨4, by decide, by decide⟩) ⟨true, 1, 2⟩).settle [] =
            (.ok (), words) ∧
        (unpack (.int .four) [2, 2] (.int ⟨4, by decide, by decide⟩) ⟨true, 1, 2⟩).settle
          (words ++ [Word.zero 9]) = (.ok recovered, [Word.zero 9]) ∧
        recovered.values[1]? = some (-8 : Scalar (.int .four)) ∧
        recovered.values[2]? = some (-7 : Scalar (.int .four)) := by
  have hbits : 2 * 4 < Size.limit := by decide
  have hroom : 4 * 4 < Size.memoryLimit := by decide
  obtain ⟨recovered, _, hvalues, hoptions⟩ := unpack_pack (.int .four)
    (⟨[2, 2], [7, -8, 9, -1], by decide, by decide, by decide, by decide⟩ : Tensor (.int .two))
    (.int ⟨4, by decide, by decide⟩) (show [2, 2].getLast? = some 2 from rfl) hbits hroom
  obtain ⟨words, _, hpack, hunpack⟩ := hoptions ⟨true, 1, 2⟩ (by decide) (by decide)
  exact ⟨rfl, hbits, hroom, by decide, by decide, recovered, words, hpack [],
    hunpack [Word.zero 9], (hvalues 1).trans (by decide), (hvalues 2).trans (by decide)⟩

end Bitpack.Packing
