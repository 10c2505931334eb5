import Bitpack.Packing.Vectors
import Bitpack.Proofs.Element.Cast
import Bitpack.Proofs.Packing.BitLayout

/-!
Words and vectors. A tensor is packed into as many vectors as words, and where a word has a slot a
vector has a lane with the same value.
-/
namespace Bitpack.Packing

open Streaming (Transfer)

section

variable [Platform] {d lane : Dtype} {lanes : Nat}

theorem Holds.slot_eq {e : ElementType} {l : Layout} {reverse : Bool} {row : List (Scalar d)}
    {w : Word} (h : Holds e l reverse row w) {c j : Nat} (hc : c < l.blocks) (hj : j < l.inner)
    {x : Scalar d} (hrow : row[c * l.inner + j]? = some x) :
    w.slot (Layout.blockSlotIndex c j l.inner reverse) e.bits = .ok (e.encode x) := by
  have hmem := List.mem_of_getElem? (Layout.getElem?_slotOrder reverse hc hj)
  have hrange := slot_end_le hmem e.bits
  rw [← h.width_eq] at hrange
  rw [Word.slot_of_range w e.bits_le hrange, h.slotValue_eq hc hj, List.getD_eq_getElem?_getD, hrow]
  simp

theorem settle_packVectorRows (lane : Dtype) (lanes outer : Nat) (rows : List (List (Scalar d)))
    (queue : List (Vector (Scalar lane) lanes)) :
    (packVectorRows lane lanes outer rows).settle queue =
      (.ok (), queue ++ rows.map (fillLanes lane lanes)) := by
  induction rows generalizing outer queue with
  | nil => simp [packVectorRows]
  | cons row rest ih => simp [packVectorRows, Transfer.settle_bind, ih]

theorem settle_packVectors {t : Tensor d} {l : Layout} (options : Options)
    (hlayout : Layout.ofShape t.shape 1 = .ok l) (hlanes : l.inner ≤ lanes)
    (queue : List (Vector (Scalar lane) lanes)) :
    (packVectors t lane lanes options).settle queue =
      (.ok (), queue ++ (Tensor.rows l.inner l.outer t.values).map (fillLanes lane lanes)) := by
  unfold packVectors
  rw [hlayout]
  cases hreverse : options.reverseInner <;>
    simp [Transfer.settle_bind, Nat.not_lt_of_le hlanes, settle_packVectorRows]

theorem getElem?_fillLanes {row : List (Scalar d)} {i : Nat} {x : Scalar d} (hrow : row[i]? = some x)
    (hi : i < lanes) : (fillLanes lane lanes row)[i]? = some (Scalar.cast lane x) := by
  simp [fillLanes, hi, hrow]

/-- A tensor is packed into one word and one vector for each outer position. The slots of the word
hold the bits of the lanes of the vector, where a single is not rounded twice on its way to the slot. -/
theorem slot_eq_lane_iff (t : Tensor d) (hlane : lane ≠ .float .double) {options : Options}
    (hreverse : options.reverseInner = false) (hblocks : options.blocks = 1) {n : Nat}
    (hlast : t.shape.getLast? = some n) (hn : n ≤ lanes)
    (hbits : n * (Config.defaultElement lane).bits < Size.limit)
    (hcastable : ∀ x ∈ t.values, Scalar.Castable lane x) :
    ∃ (words : List Word) (vectors : List (Vector (Scalar lane) lanes)),
      words.length = t.shape.dropLast.prod ∧ vectors.length = words.length ∧
      (∀ queue, (pack t (Config.defaultElement lane) options).settle queue =
        (.ok (), queue ++ words)) ∧
      (∀ queue, (packVectors t lane lanes options).settle queue = (.ok (), queue ++ vectors)) ∧
      ∀ o i, o < words.length → i < n → ∃ word vector x y,
        words[o]? = some word ∧ vectors[o]? = some vector ∧ t.values[o * n + i]? = some x ∧
        vector[i]? = some y ∧
        (word.slot i (Config.defaultElement lane).bits = .ok (y.setWidth 64) ↔
          ¬Scalar.DoubleRounded lane x) := by
  obtain ⟨l, hlayout, houter, hinner, hone, hfull, hcount⟩ :=
    layout_of_dvd hlast (hblocks ▸ Nat.one_pos) (hblocks ▸ Nat.one_dvd n)
  have hinner' : l.inner = n := by rw [hinner, hblocks, Nat.div_one]
  have hlength : (Tensor.rows l.inner l.outer t.values).length = l.outer := length_rows _ _ _
  refine ⟨tensorWords t (Config.defaultElement lane) l options,
    (Tensor.rows l.inner l.outer t.values).map (fillLanes lane lanes), ?_, ?_,
    settle_pack _ hlayout hcount (by rwa [Layout.slotBits, hfull]),
    settle_packVectors options (hblocks ▸ hlayout) (hinner' ▸ hn), ?_⟩
  · rw [length_tensorWords, houter]
  · rw [List.length_map, hlength, length_tensorWords]
  · intro o i ho hi
    have hholds := holds_getElem_tensorWords hcount ho
    have hword := List.getElem?_eq_getElem ho
    rw [length_tensorWords] at ho
    have hvector : ((Tensor.rows l.inner l.outer t.values).map (fillLanes lane lanes))[o]? =
        some (fillLanes lane lanes ((t.values.drop (o * n)).take n)) := by
      rw [List.getElem?_map, getElem?_rows _ ho, hinner', Option.map_some]
    have hposition : o * n + i < t.values.length := by
      rw [hcount, hfull]
      calc
        o * n + i < (o + 1) * n := by rw [Nat.add_one_mul]; omega
        _ ≤ l.outer * n := Nat.mul_le_mul_right n ho
    obtain ⟨x, hx⟩ : ∃ x, t.values[o * n + i]? = some x := ⟨_, List.getElem?_eq_getElem hposition⟩
    have hrow : ((t.values.drop (o * n)).take n)[i]? = some x := by
      rw [List.getElem?_take_of_lt hi, List.getElem?_drop, hx]
    rw [hfull] at hholds
    -- One block in its own order: the element `i` stands in the slot `i`.
    have hslot := hholds.slot_eq (c := 0) (j := i) (by omega) (by omega)
      (by rw [Nat.zero_mul, Nat.zero_add]; exact hrow)
    rw [hreverse] at hslot
    simp only [Layout.blockSlotIndex, Layout.slotIndex, Nat.zero_mul, Nat.zero_add,
      Bool.false_eq_true, ↓reduceIte] at hslot
    refine ⟨_, _, x, _, hword, hvector, hx, getElem?_fillLanes hrow (by omega), ?_⟩
    rw [hslot, Except.ok.injEq]
    exact ElementType.encode_eq_cast_iff hlane (hcastable x (List.mem_of_getElem? hx))

end

open scoped Platform.Release

def halves : Tensor (.float .half) :=
  ⟨[2], [0xBE00, 0x4200], by decide, by decide, by decide, by decide⟩

theorem slot_eq_lane_iff_halves :
    Dtype.int .one ≠ .float .double ∧ halves.shape.getLast? = some 2 ∧ 2 ≤ 3 ∧
      2 * (Config.defaultElement (.int .one)).bits < Size.limit ∧
      (∀ x ∈ halves.values, Scalar.Castable (.int .one) x) ∧
      ∃ words : List Word,
        (pack halves (Config.defaultElement (.int .one)) ⟨false, 1, 1⟩).settle [] =
          (.ok (), words) ∧
        (packVectors halves (.int .one) 3 ⟨false, 1, 1⟩).settle [] = (.ok (), [#v[-1, 3, 0]]) ∧
        ∃ word, words[0]? = some word ∧ word.slot 0 8 = .ok 0xFF := by
  have hcastable : ∀ x ∈ halves.values, Scalar.Castable (.int .one) x := by
    intro x hx _
    rcases List.mem_pair.mp hx with rfl | rfl
    · exact ⟨-1, by decide, by decide⟩
    · exact ⟨3, by decide, by decide⟩
  have hrun : (packVectors halves (.int .one) 3 ⟨false, 1, 1⟩).settle [] =
      (.ok (), [#v[-1, 3, 0]]) := by
    decide +kernel
  obtain ⟨words, vectors, hlength, -, hpack, hvectors, hslots⟩ := slot_eq_lane_iff halves
    (show Dtype.int .one ≠ .float .double by decide)
    (show Options.reverseInner ⟨false, 1, 1⟩ = false from rfl) rfl
    (show halves.shape.getLast? = some 2 from rfl) (show 2 ≤ 3 by decide) (by decide)
    hcastable
  obtain ⟨word, vector, x, y, hword, hvector, -, hlane, hiff⟩ :=
    hslots 0 0 (by rw [hlength]; decide) (by decide)
  have hlanes : vectors = [#v[-1, 3, 0]] := congrArg Prod.snd ((hvectors []).symm.trans hrun)
  subst hlanes
  cases hvector
  cases hlane
  exact ⟨by decide, rfl, by decide, by decide, hcastable, words, hpack [], hrun, word, hword, hiff.mpr id⟩

def betweenSingles : Tensor (.int .eight) :=
  ⟨[1], [0x1000001000000001], by decide, by decide, by decide, by decide⟩

/-- The slot holds the single below the integer, and the lane the one above, which is nearer. -/
theorem slot_ne_lane_of_roundsTwice :
    ∃ word vector,
      (pack betweenSingles (Config.defaultElement (.float .single)) ⟨false, 1, 1⟩).settle [] =
        (.ok (), [word]) ∧
      (packVectors betweenSingles (.float .single) 1 ⟨false, 1, 1⟩).settle [] =
        (.ok (), [vector]) ∧
      word.slot 0 32 = .ok 0x5D800000 ∧ vector[0]? = some 0x5D800001 := by
  refine ⟨⟨32, [0x5D800000]⟩, #v[0x5D800001], ?_, ?_, by decide, by decide⟩
  · decide +kernel
  · decide +kernel

end Bitpack.Packing
