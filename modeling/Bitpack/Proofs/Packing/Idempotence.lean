import Bitpack.Proofs.Element.Recode.Drift
import Bitpack.Proofs.Packing.RoundTrip

/-!
Packing and unpacking twice. The second time changes what the first one left only where a value
drifts, whatever the options are.
-/
namespace Bitpack.Packing

open Streaming (Transfer)

section

variable [Platform] {d : Dtype}

theorem getElem?_recoded (t : Tensor d) (e : ElementType)
    (hroom : t.shape.prod * d.bytes < Size.memoryLimit) {p : Nat} {x : Scalar d}
    (hx : t.values[p]? = some x) : (recoded d t e hroom).values[p]? = some (e.recode x) :=
  List.getElem?_map.trans (congrArg (Option.map _) hx)

variable [LawfulPlatform]

theorem recoded_recoded_iff {t : Tensor d} (e : ElementType)
    (hroom : t.shape.prod * d.bytes < Size.memoryLimit)
    (hnan : ∀ x ∈ t.values, x.toDouble ≠ .nan) :
    recoded d (recoded d t e hroom) e hroom = recoded d t e hroom ↔ ∀ x ∈ t.values, ¬e.Drifts x := by
  have honce : (recoded d t e hroom).values = t.values.map e.recode := rfl
  have htwice : (recoded d (recoded d t e hroom) e hroom).values =
      t.values.map fun x => e.recode (e.recode x) :=
    List.map_map
  have hshape : (recoded d (recoded d t e hroom) e hroom).shape = (recoded d t e hroom).shape := rfl
  rw [Tensor.ext_iff, and_iff_right hshape, htwice, honce, List.map_inj_left]
  exact forall₂_congr fun x hx => ElementType.recode_recode_iff (hnan x hx)

/-- A tensor without NaN is packed and unpacked, and what comes back is packed and unpacked with the
same options. The second time changes nothing but the values that drift. These are zero in the end,
and before it they are the power of two beyond the slot or a zero with a sign. -/
theorem unpack_pack_idempotent_iff (t : Tensor d) (e : ElementType) {options : Options} {l : Layout}
    (hlayout : Layout.ofShape t.shape options.blocks = .ok l)
    (hbits : l.innerFull * e.bits < Size.limit) (hnan : ∀ x ∈ t.values, x.toDouble ≠ .nan) :
    ∃ (once twice : Tensor d) (words words' : List Word),
      once.shape = t.shape ∧ twice.shape = t.shape ∧
      (∀ queue, (pack t e options).settle queue = (.ok (), queue ++ words)) ∧
      (∀ rest, (unpack d t.shape e options).settle (words ++ rest) = (.ok once, rest)) ∧
      (∀ queue, (pack once e options).settle queue = (.ok (), queue ++ words')) ∧
      (∀ rest, (unpack d once.shape e options).settle (words' ++ rest) = (.ok twice, rest)) ∧
      (twice = once ↔ ∀ x ∈ t.values, ¬e.Drifts x) ∧
      ∀ (p : Nat) (x : Scalar d), t.values[p]? = some x → ∃ y z : Scalar d,
        once.values[p]? = some y ∧ y = e.decode d (e.encode x) ∧
        twice.values[p]? = some z ∧ z = e.decode d (e.encode y) ∧
        (z = y ↔ ¬e.Drifts x) ∧
        (e.Drifts x → z = 0 ∧ (y.toDouble.Same (.ofInt (2 ^ e.bits : Nat)) ∨
          y.toDouble.Same (.finite true 0 0))) := by
  -- The shape does not change, so that both tensors have one layout.
  have hcount := length_values_of_ofShape hlayout
  have hsized : Sized d t.shape e :=
    sized_of_tensor hlayout hbits (t.length_values ▸ t.bytes_lt)
  let once := recoded d t e hsized.bytes_lt
  have hcount' := length_values_of_ofShape (t := once) hlayout
  refine ⟨once, recoded d once e hsized.bytes_lt, tensorWords t e l options,
    tensorWords once e l options, rfl, rfl, settle_pack e hlayout hcount hbits,
    settle_unpack_tensorWords d e hlayout hsized, settle_pack (t := once) e hlayout hcount' hbits,
    settle_unpack_tensorWords d (t := once) e hlayout hsized,
    recoded_recoded_iff e hsized.bytes_lt hnan, fun p x hx => ?_⟩
  have honce := getElem?_recoded t e hsized.bytes_lt hx
  refine ⟨e.recode x, e.recode (e.recode x), honce, rfl,
    getElem?_recoded once e hsized.bytes_lt honce, rfl,
    ElementType.recode_recode_iff (hnan x (List.mem_of_getElem? hx)), fun hdrift => ?_⟩
  obtain ⟨hbefore, hzero⟩ := ElementType.recode_of_drifts hdrift
  exact ⟨hzero, hbefore⟩

end

open scoped Platform.Release

def minusOneAndThree : Tensor (.float .single) :=
  ⟨[1, 2], [0xBF800000, 0x40400000], nofun, by decide, by decide, by decide⟩

theorem unpack_pack_idempotent_iff_minus_one :
    Layout.ofShape minusOneAndThree.shape 1 = .ok ⟨1, 2, 1⟩ ∧ 2 * 32 < Size.limit ∧
      (∀ x ∈ minusOneAndThree.values, x.toDouble ≠ .nan) ∧
      ∃ (once twice : Tensor (.float .single)) (words words' : List Word),
        (pack minusOneAndThree (.uint ⟨32, by decide, by decide⟩) ⟨false, 1, 1⟩).settle [] =
          (.ok (), words) ∧
        (unpack (.float .single) minusOneAndThree.shape (.uint ⟨32, by decide, by decide⟩)
          ⟨false, 1, 1⟩).settle (words ++ []) = (.ok once, []) ∧
        (pack once (.uint ⟨32, by decide, by decide⟩) ⟨false, 1, 1⟩).settle [] = (.ok (), words') ∧
        (unpack (.float .single) once.shape (.uint ⟨32, by decide, by decide⟩) ⟨false, 1, 1⟩).settle
          (words' ++ []) = (.ok twice, []) ∧
        once.values[0]? = some (0x4F800000 : Scalar (.float .single)) ∧
        twice.values[0]? = some (0 : Scalar (.float .single)) ∧
        twice.values[1]? = once.values[1]? := by
  have hlayout : Layout.ofShape minusOneAndThree.shape 1 = .ok ⟨1, 2, 1⟩ := rfl
  have hsize : 2 * 32 < Size.limit := by decide
  have hnan : ∀ x ∈ minusOneAndThree.values, x.toDouble ≠ .nan := by
    intro x hx
    rcases List.mem_pair.mp hx with rfl | rfl <;> decide +kernel
  obtain ⟨once, twice, words, words', -, -, hpack, hunpack, hpack', hunpack', -, hvalues⟩ :=
    unpack_pack_idempotent_iff minusOneAndThree (.uint ⟨32, by decide, by decide⟩)
      (show Layout.ofShape minusOneAndThree.shape (Options.blocks ⟨false, 1, 1⟩) = .ok ⟨1, 2, 1⟩
        from rfl) hsize hnan
  obtain ⟨y, z, honce, rfl, htwice, -, -, hdrift⟩ := hvalues 0 0xBF800000 rfl
  obtain ⟨y', z', honce', -, htwice', -, hsettled, -⟩ := hvalues 1 0x40400000 rfl
  have hpast : (ElementType.uint ⟨32, by decide, by decide⟩).Drifts (d := .float .single)
      0xBF800000 := by
    decide +kernel
  have hthree : ¬(ElementType.uint ⟨32, by decide, by decide⟩).Drifts (d := .float .single)
      0x40400000 := by
    decide +kernel
  refine ⟨hlayout, hsize, hnan, once, twice, words, words', hpack [], hunpack [], hpack' [], hunpack' [],
    honce.trans (by decide +kernel), ?_, ?_⟩
  · rw [htwice, (hdrift hpast).1]
  · rw [htwice', honce', hsettled.mpr hthree]

/-- In an unsigned slot of 32 bits minus one is `2^32 - 1`, which no single is; it becomes `2^32`, and
zero after that. -/
theorem unpack_pack_not_idempotent :
    ∃ once twice : Tensor (.float .single), ∃ words words' : List Word,
      (pack minusOneAndThree (.uint ⟨32, by decide, by decide⟩) ⟨false, 1, 1⟩).settle [] =
        (.ok (), words) ∧
      (unpack (.float .single) minusOneAndThree.shape (.uint ⟨32, by decide, by decide⟩)
        ⟨false, 1, 1⟩).settle words = (.ok once, []) ∧
      (pack once (.uint ⟨32, by decide, by decide⟩) ⟨false, 1, 1⟩).settle [] = (.ok (), words') ∧
      (unpack (.float .single) once.shape (.uint ⟨32, by decide, by decide⟩) ⟨false, 1, 1⟩).settle
        words' = (.ok twice, []) ∧
      once.values = [0x4F800000, 0x40400000] ∧ twice.values = [0, 0x40400000] := by
  refine ⟨⟨[1, 2], [0x4F800000, 0x40400000], by decide, by decide, by decide, by decide⟩,
    ⟨[1, 2], [0, 0x40400000], by decide, by decide, by decide, by decide⟩,
    [⟨64, [0x3FFFFFFFF]⟩], [⟨64, [0x300000000]⟩],
    ?_, ?_, ?_, ?_, rfl, rfl⟩
  · decide +kernel
  · decide +kernel
  · decide +kernel
  · decide +kernel

end Bitpack.Packing
