import Bitpack.Proofs.Word.Slots

/-!
Slots side by side. Slots of one width cover the low bits of a word without a gap and without an
overlap, so that writes into different slots can be made in any order.
-/
namespace Bitpack.Word

variable {b : Nat}

/-- A bit from the first to the last one of a slot. -/
def InSlot (b i bit : Nat) : Prop :=
  (slotRange i b).1 ≤ bit ∧ bit ≤ (slotRange i b).2

theorem inSlot_iff (hb : 0 < b) {i bit : Nat} : InSlot b i bit ↔ bit / b = i := by
  rw [← mem_slot_iff hb, InSlot, slotRange, Nat.succ_mul]
  omega

theorem InSlot.unique (hb : 0 < b) {i j bit : Nat} (hi : InSlot b i bit) (hj : InSlot b j bit) :
    i = j := by
  rw [inSlot_iff hb] at hi hj
  exact hi.symm.trans hj

end Bitpack.Word
