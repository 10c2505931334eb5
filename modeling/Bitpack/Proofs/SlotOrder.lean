import Bitpack.Proofs.Layout

/-!
The order of the slots as a rearrangement of positions. A block is turned around or left as it is, and
nothing moves from one block to another, so that the order undoes itself.
-/
namespace Bitpack.Layout

theorem slotIndex_lt {position inner : Nat} (reverse : Bool) (h : position < inner) :
    slotIndex position inner reverse < inner := by
  cases reverse with
  | false => simpa [slotIndex]
  | true =>
      simp only [slotIndex, ↓reduceIte]
      omega

theorem slotIndex_slotIndex {position inner : Nat} (reverse : Bool) (h : position < inner) :
    slotIndex (slotIndex position inner reverse) inner reverse = position := by
  cases reverse with
  | false => simp [slotIndex]
  | true =>
      simp only [slotIndex, ↓reduceIte]
      omega

theorem blockSlotIndex_div {position inner : Nat} (block : Nat) (reverse : Bool)
    (h : position < inner) : blockSlotIndex block position inner reverse / inner = block := by
  unfold blockSlotIndex
  rw [Nat.mul_comm, Nat.mul_add_div (by omega), Nat.div_eq_of_lt (slotIndex_lt reverse h),
    Nat.add_zero]

theorem blockSlotIndex_mod {position inner : Nat} (block : Nat) (reverse : Bool)
    (h : position < inner) :
    blockSlotIndex block position inner reverse % inner = slotIndex position inner reverse := by
  unfold blockSlotIndex
  rw [Nat.mul_comm, Nat.mul_add_mod, Nat.mod_eq_of_lt (slotIndex_lt reverse h)]

/-- The slot that a position is visited in: that of its offset, in its own block. -/
def slotAt (l : Layout) (reverse : Bool) (p : Nat) : Nat :=
  blockSlotIndex (p / l.inner) (p % l.inner) l.inner reverse

section

variable {l : Layout} {p : Nat}

theorem inner_pos_of_lt (hp : p < l.innerFull) : 0 < l.inner :=
  Nat.pos_of_mul_pos_right (Nat.zero_lt_of_lt hp)

theorem getElem?_slotOrder_of_lt (reverse : Bool) (hp : p < l.innerFull) :
    (l.slotOrder reverse)[p]? = some (l.slotAt reverse p) := by
  have hinner := inner_pos_of_lt hp
  have hblock : p / l.inner < l.blocks := Nat.div_lt_of_lt_mul hp
  have hget := getElem?_slotOrder reverse hblock (Nat.mod_lt p hinner)
  rwa [Nat.div_add_mod' p l.inner] at hget

theorem slotAt_lt (reverse : Bool) (hp : p < l.innerFull) : l.slotAt reverse p < l.innerFull := by
  apply lt_innerFull_of_mem
  exact List.mem_of_getElem? (getElem?_slotOrder_of_lt reverse hp)

theorem slotAt_div (reverse : Bool) (hp : p < l.innerFull) :
    l.slotAt reverse p / l.inner = p / l.inner :=
  blockSlotIndex_div _ reverse (Nat.mod_lt p (inner_pos_of_lt hp))

theorem slotAt_mod (reverse : Bool) (hp : p < l.innerFull) :
    l.slotAt reverse p % l.inner = slotIndex (p % l.inner) l.inner reverse :=
  blockSlotIndex_mod _ reverse (Nat.mod_lt p (inner_pos_of_lt hp))

theorem slotAt_false (l : Layout) (p : Nat) : l.slotAt false p = p := by
  simp [slotAt, blockSlotIndex, slotIndex, Nat.div_add_mod']

theorem slotAt_true (l : Layout) (p : Nat) :
    l.slotAt true p = p / l.inner * l.inner + (l.inner - 1 - p % l.inner) := by
  simp [slotAt, blockSlotIndex, slotIndex, Nat.sub_right_comm]

theorem slotAt_slotAt (reverse : Bool) (hp : p < l.innerFull) :
    l.slotAt reverse (l.slotAt reverse p) = p := by
  have hoffset := slotIndex_slotIndex reverse (Nat.mod_lt p (inner_pos_of_lt hp))
  calc
    l.slotAt reverse (l.slotAt reverse p)
      = blockSlotIndex (p / l.inner) (slotIndex (p % l.inner) l.inner reverse) l.inner reverse := by
        rw [slotAt, slotAt_div reverse hp, slotAt_mod reverse hp]
    _ = p := by rw [blockSlotIndex, hoffset, Nat.div_add_mod']

end

/-- The slots of an accepted shape are all the numbers below the length of the last axis, each visited
once. A position is visited in its own block, at the same place or at the opposite one, and the order
read at the slot of a position gives the position back. -/
theorem slotOrder_involutive [Platform] {shape : List Nat} {blocks : Nat} {l : Layout}
    (hlayout : ofShape shape blocks = .ok l) (reverse : Bool) :
    l.innerFull = blocks * l.inner ∧ shape.getLast? = some l.innerFull ∧
      (l.slotOrder reverse).length = l.innerFull ∧
      (l.slotOrder reverse).Perm (List.range l.innerFull) ∧
      ∀ p, p < l.innerFull → ∃ slot, (l.slotOrder reverse)[p]? = some slot ∧
        slot / l.inner = p / l.inner ∧
        (slot = if reverse then p / l.inner * l.inner + (l.inner - 1 - p % l.inner) else p) ∧
        (l.slotOrder reverse)[slot]? = some p := by
  obtain ⟨last, outer, hlast, -, hdvd, -, rfl⟩ := ofShape_eq_ok_iff.mp hlayout
  refine ⟨Nat.mul_comm _ _, ?_, length_slotOrder _ reverse, slotOrder_perm _ reverse, ?_⟩
  · rw [innerFull, Nat.div_mul_cancel hdvd, hlast]
  · intro p hp
    refine ⟨_, getElem?_slotOrder_of_lt reverse hp, slotAt_div reverse hp, ?_, ?_⟩
    · cases reverse with
      | false => exact slotAt_false _ p
      | true => exact slotAt_true _ p
    · rw [getElem?_slotOrder_of_lt reverse (slotAt_lt reverse hp), slotAt_slotAt reverse hp]

open scoped Platform.Release

theorem slotOrder_involutive_two_blocks :
    ofShape [4, 6] 2 = .ok ⟨4, 3, 2⟩ ∧ (slotOrder ⟨4, 3, 2⟩ true)[3]? = some 5 ∧
      (slotOrder ⟨4, 3, 2⟩ true)[5]? = some 3 := by
  have hlayout : ofShape [4, 6] 2 = .ok ⟨4, 3, 2⟩ := by rfl
  obtain ⟨-, -, -, -, hpositions⟩ := slotOrder_involutive hlayout true
  obtain ⟨slot, hslot, -, rfl, hback⟩ := hpositions 3 (by decide)
  exact ⟨hlayout, hslot, hback⟩

end Bitpack.Layout
