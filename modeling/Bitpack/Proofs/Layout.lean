import Bitpack.Proofs.Size
import Bitpack.Layout
import Mathlib.Data.List.Perm.Basic

/-!
Layouts of shapes. A shape has a layout exactly where its last axis falls into the blocks asked for,
and the slots of a layout are visited in an order that is a permutation of all of them.
-/
namespace Bitpack.Layout

theorem prod_eq_dropLast_mul {shape : List Nat} {last : Nat} (hlast : shape.getLast? = some last) :
    shape.prod = shape.dropLast.prod * last := by
  obtain ⟨init, rfl⟩ := List.getLast?_eq_some_iff.mp hlast
  rw [List.dropLast_concat, List.prod_append_nat, List.prod_singleton]

section

variable [Platform] {shape : List Nat} {last blocks : Nat} {l : Layout}

theorem ofShape_eq_ok_iff :
    ofShape shape blocks = .ok l ↔
      ∃ last outer, shape.getLast? = some last ∧ 0 < blocks ∧ blocks ∣ last ∧
        Size.product shape.dropLast = .ok outer ∧ l = ⟨outer, last / blocks, blocks⟩ := by
  unfold ofShape
  constructor
  · intro hlayout
    split at hlayout
    · cases hlayout
    · rename_i last hlast
      split_ifs at hlayout with hzero hrest
      obtain ⟨outer, houter, heq⟩ := bind_eq_ok_iff.mp hlayout
      cases heq
      exact ⟨last, outer, hlast, Nat.pos_of_ne_zero hzero,
        Nat.dvd_of_mod_eq_zero (not_not.mp hrest), houter, rfl⟩
  · rintro ⟨last, outer, hlast, hpos, hdvd, houter, rfl⟩
    rw [hlast]
    dsimp only
    rw [if_neg (Nat.ne_of_gt hpos), if_neg (not_not.mpr (Nat.mod_eq_zero_of_dvd hdvd)), houter]
    rfl

theorem ofShape_of_dvd (hlast : shape.getLast? = some last) (hpos : 0 < blocks)
    (hdvd : blocks ∣ last) (hfits : Size.Fits shape.dropLast) :
    ofShape shape blocks = .ok ⟨shape.dropLast.prod, last / blocks, blocks⟩ :=
  ofShape_eq_ok_iff.mpr ⟨last, _, hlast, hpos, hdvd, Size.product_of_fits hfits, rfl⟩

theorem ofShape_eq_ok_iff_of_fits (hfits : Size.Fits shape.dropLast) :
    ofShape shape blocks = .ok l ↔
      ∃ last, shape.getLast? = some last ∧ 0 < blocks ∧ blocks ∣ last ∧
        l = ⟨shape.dropLast.prod, last / blocks, blocks⟩ := by
  rw [ofShape_eq_ok_iff]
  simp [Size.product_of_fits hfits]

theorem ofShape_ne_range (shape : List Nat) (blocks : Nat) (fault : RangeFault) :
    ofShape shape blocks ≠ .error (.range fault) := by
  unfold ofShape
  split
  · simp
  · split_ifs
    · simp
    · simp
    · cases hproduct : Size.product shape.dropLast with
      | ok outer => nofun
      | error cause =>
          obtain ⟨size, rfl⟩ := Size.product_error hproduct
          nofun

theorem sizes_of_ofShape (hlayout : ofShape shape blocks = .ok l) (hlast : shape.getLast? = some last)
    (hfits : Size.Fits shape.dropLast) :
    l.outer = shape.dropLast.prod ∧ l.innerFull = last ∧ shape.prod = l.outer * l.innerFull := by
  obtain ⟨_, hlast', -, hdvd, rfl⟩ := (ofShape_eq_ok_iff_of_fits hfits).mp hlayout
  cases hlast.symm.trans hlast'
  have hfull : innerFull ⟨shape.dropLast.prod, last / blocks, blocks⟩ = last :=
    Nat.div_mul_cancel hdvd
  exact ⟨rfl, hfull, by rw [hfull]; exact prod_eq_dropLast_mul hlast⟩

end

/-- The bits of one outer position. -/
def slotBits (l : Layout) (bits : Nat) : Nat :=
  l.innerFull * bits

section

variable [Platform] {l : Layout}

theorem wordBits_of_lt {bits : Nat} (h : l.slotBits bits < Size.limit) :
    l.wordBits bits = .ok (l.slotBits bits) :=
  Size.mul_of_lt h

theorem le_of_wordBits {bits width : Nat} (h : l.wordBits bits = .ok width) :
    width ≤ l.slotBits bits :=
  Size.le_of_mul h

theorem reserve_error {bytes : Nat} {fault : Error} (h : l.reserve bytes = .error fault) :
    ∃ size, fault = .size size := by
  unfold reserve elementCount at h
  cases hcount : Size.mul l.outer l.innerFull with
  | error cause =>
      rw [hcount] at h
      cases h
      exact Size.mul_error hcount
  | ok count =>
      rw [hcount] at h
      exact Size.reserve_error h

theorem reserve_of_lt {bytes : Nat} (hcount : l.outer * l.innerFull < Size.limit)
    (h : l.outer * l.innerFull * bytes < Size.memoryLimit) : l.reserve bytes = .ok () := by
  unfold reserve elementCount
  rw [Size.mul_of_lt hcount]
  exact Size.reserve_of_lt h

end

theorem map_slotIndex (inner : Nat) (reverse : Bool) :
    (List.range inner).map (slotIndex · inner reverse) =
      if reverse then (List.range inner).reverse else List.range inner := by
  cases reverse with
  | false => simp [slotIndex]
  | true =>
      rw [if_pos rfl]
      conv_rhs => rw [List.range_eq_range', List.reverse_range']
      apply List.map_congr_left
      intro position _
      simp only [slotIndex, ↓reduceIte]
      omega

theorem flatMap_range_mul (blocks inner : Nat) :
    ((List.range blocks).flatMap fun block => (List.range inner).map (block * inner + ·)) =
      List.range (blocks * inner) := by
  induction blocks with
  | zero => simp
  | succ blocks ih =>
      rw [List.range_succ, List.flatMap_append, ih, Nat.succ_mul, List.range_add]
      simp

theorem slotOrder_perm (l : Layout) (reverse : Bool) :
    (l.slotOrder reverse).Perm (List.range l.innerFull) := by
  unfold slotOrder innerFull
  rw [Nat.mul_comm, ← flatMap_range_mul]
  apply List.Perm.flatMap_left
  intro block _
  have hblock : ((List.range l.inner).map fun position =>
        blockSlotIndex block position l.inner reverse) =
      ((List.range l.inner).map (slotIndex · l.inner reverse)).map (block * l.inner + ·) := by
    rw [List.map_map]
    rfl
  rw [hblock, map_slotIndex]
  apply List.Perm.map
  cases reverse with
  | false => exact List.Perm.refl _
  | true => exact List.reverse_perm _

theorem slotOrder_nodup (l : Layout) (reverse : Bool) : (l.slotOrder reverse).Nodup :=
  (slotOrder_perm l reverse).nodup_iff.mpr List.nodup_range

theorem length_slotOrder (l : Layout) (reverse : Bool) :
    (l.slotOrder reverse).length = l.innerFull := by
  rw [(slotOrder_perm l reverse).length_eq, List.length_range]

theorem lt_innerFull_of_mem {l : Layout} {reverse : Bool} {slot : Nat}
    (h : slot ∈ l.slotOrder reverse) : slot < l.innerFull :=
  List.mem_range.mp ((slotOrder_perm l reverse).mem_iff.mp h)

theorem getElem?_flatMap_range_of_length {α : Type} {count size i p : Nat} {f : Nat → List α}
    (hlength : ∀ i, (f i).length = size) (hi : i < count) (hp : p < size) :
    ((List.range count).flatMap f)[i * size + p]? = (f i)[p]? := by
  induction count with
  | zero => exact absurd hi (Nat.not_lt_zero i)
  | succ count ih =>
      have hlengths : ((List.range count).flatMap f).length = count * size := by
        simp [List.length_flatMap, hlength]
      rw [List.range_succ, List.flatMap_append]
      by_cases hlast : i = count
      · subst hlast
        rw [List.getElem?_append_right (by omega), hlengths, Nat.add_sub_cancel_left]
        simp
      · have hbound : i * size + p < count * size :=
          calc
            i * size + p < i * size + size := Nat.add_lt_add_left hp _
            _ = (i + 1) * size := (Nat.succ_mul i size).symm
            _ ≤ count * size := Nat.mul_le_mul_right size (by omega)
        rw [List.getElem?_append_left (by omega)]
        exact ih (by omega)

theorem getElem?_flatMap_range {α : Type} {blocks inner block position : Nat} (f : Nat → Nat → α)
    (hblock : block < blocks) (hposition : position < inner) :
    ((List.range blocks).flatMap fun c => (List.range inner).map (f c))[block * inner + position]? =
      some (f block position) := by
  rw [getElem?_flatMap_range_of_length (fun _ => by simp) hblock hposition]
  simp [hposition]

theorem getElem?_slotOrder {l : Layout} {block position : Nat} (reverse : Bool)
    (hblock : block < l.blocks) (hposition : position < l.inner) :
    (l.slotOrder reverse)[block * l.inner + position]? =
      some (blockSlotIndex block position l.inner reverse) :=
  getElem?_flatMap_range (fun c j => blockSlotIndex c j l.inner reverse) hblock hposition

end Bitpack.Layout
