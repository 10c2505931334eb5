import Bitpack.Proofs.Word.Access

/-!
Slots of equal width. Writes into different slots leave each other's bits as they are, and the value
of a word is the sum of the numbers in its slots, each shifted to its place.
-/
namespace Bitpack.Word

/-- Raw bits written into slots, one after the other. -/
def writeSlots (w : Word) (elementBits : Nat) (entries : List (BitVec 64 × Nat)) :
    Except RangeFault Word :=
  entries.foldlM (fun word entry => word.setSlot entry.2 elementBits entry.1) w

theorem writeSlots_cons (w : Word) (b : Nat) (entry : BitVec 64 × Nat)
    (rest : List (BitVec 64 × Nat)) :
    w.writeSlots b (entry :: rest) =
      (w.setSlot entry.2 b entry.1).bind fun u => u.writeSlots b rest :=
  rfl

theorem mem_slot_iff {b : Nat} (hb : 0 < b) (s i : Nat) :
    (s * b ≤ i ∧ i < s * b + b) ↔ i / b = s := by
  rw [← Nat.succ_mul, Nat.div_eq_iff hb, Nat.succ_mul]
  omega

theorem slot_range_le {b s width : Nat} (hs : (s + 1) * b ≤ width) : s * b + b ≤ width := by
  rw [Nat.succ_mul] at hs
  exact hs

theorem setSlot_of_range {w : Word} (hw : w.WellFormed) {s b : Nat} (raw : BitVec 64)
    (hb : 0 < b) (hb' : b ≤ 64) (hs : (s + 1) * b ≤ w.width) :
    ∃ v, w.setSlot s b raw = .ok v ∧ v.WellFormed ∧ v.width = w.width ∧
      ∀ i, v.testBit i = if i / b = s then raw.getLsbD (i % b) else w.testBit i := by
  obtain ⟨v, hv, hwf, hwidth, hbits⟩ := setBits_of_range hw raw hb' (slot_range_le hs)
  refine ⟨v, hv, hwf, hwidth, fun i => ?_⟩
  rw [hbits]
  simp only [mem_slot_iff hb]
  split
  · rename_i hi
    rw [← hi, Nat.mul_comm, ← Nat.mod_eq_sub_mul_div]
  · rfl

def slotValue (w : Word) (s b : Nat) : Nat :=
  w.value / 2 ^ (s * b) % 2 ^ b

theorem testBit_slotValue (w : Word) (s b t : Nat) :
    (w.slotValue s b).testBit t = (decide (t < b) && w.testBit (s * b + t)) := by
  unfold slotValue
  rw [Nat.testBit_mod_two_pow, Nat.testBit_div_two_pow, testBit_value, Nat.add_comm]

theorem slotValue_lt (w : Word) (s b : Nat) : w.slotValue s b < 2 ^ b :=
  Nat.mod_lt _ (Nat.two_pow_pos b)

theorem slot_of_range (w : Word) {s b : Nat} (hb : b ≤ 64) (hs : (s + 1) * b ≤ w.width) :
    w.slot s b = .ok (BitVec.ofNat 64 (w.slotValue s b)) := by
  obtain ⟨raw, hraw, hbits⟩ := bits_of_range w hb (slot_range_le hs)
  refine hraw.trans (congrArg Except.ok ?_)
  apply BitVec.eq_of_getLsbD_eq
  intro t ht
  rw [hbits, BitVec.getLsbD_ofNat, testBit_slotValue]
  simp only [ht, decide_true, Bool.true_and]

theorem value_mod_eq_sum (w : Word) (b n : Nat) :
    w.value % 2 ^ (n * b) =
      ((List.range n).map fun s => w.slotValue s b * 2 ^ (s * b)).sum := by
  induction n with
  | zero => simp [Nat.mod_one]
  | succ n ih =>
      rw [List.range_succ, List.map_append, List.sum_append, ← ih, Nat.succ_mul, Nat.pow_add,
        Nat.mod_mul]
      simp [slotValue, Nat.mul_comm]

theorem writeSlots_of_nodup {w : Word} (hw : w.WellFormed) {b : Nat} (hb : 0 < b) (hb' : b ≤ 64)
    (entries : List (BitVec 64 × Nat)) (hslots : ∀ entry ∈ entries, (entry.2 + 1) * b ≤ w.width)
    (hnodup : (entries.map Prod.snd).Nodup) :
    ∃ v, w.writeSlots b entries = .ok v ∧ v.WellFormed ∧ v.width = w.width ∧
      (∀ entry ∈ entries, ∀ t, t < b → v.testBit (entry.2 * b + t) = entry.1.getLsbD t) ∧
      ∀ i, i / b ∉ entries.map Prod.snd → v.testBit i = w.testBit i := by
  induction entries generalizing w with
  | nil => exact ⟨w, rfl, hw, rfl, fun _ h => absurd h List.not_mem_nil, fun _ _ => rfl⟩
  | cons entry rest ih =>
      obtain ⟨hfresh, hrest⟩ := List.nodup_cons.mp hnodup
      obtain ⟨u, hu, huwf, huwidth, hubits⟩ :=
        setSlot_of_range hw entry.1 hb hb' (hslots entry List.mem_cons_self)
      obtain ⟨v, hv, hvwf, hvwidth, hvslots, hvbits⟩ := ih huwf (fun other hother => by
        rw [huwidth]
        exact hslots other (List.mem_cons_of_mem _ hother)) hrest
      refine ⟨v, ?_, hvwf, hvwidth.trans huwidth, ?_, ?_⟩
      · rw [writeSlots_cons, hu]
        exact hv
      · intro other hother t ht
        rcases List.mem_cons.mp hother with rfl | hother
        · have hdiv : (other.2 * b + t) / b = other.2 := by
            rw [Nat.mul_comm, Nat.mul_add_div hb, Nat.div_eq_of_lt ht, Nat.add_zero]
          rw [hvbits _ (by rw [hdiv]; exact hfresh), hubits, if_pos hdiv, Nat.mul_comm,
            Nat.mul_add_mod, Nat.mod_eq_of_lt ht]
        · exact hvslots other hother t ht
      · intro i hi
        rw [List.map_cons, List.mem_cons, not_or] at hi
        rw [hvbits i hi.2, hubits, if_neg hi.1]

theorem writeSlots_of_not_range {w : Word} (hw : w.WellFormed) {b : Nat} (hb : 0 < b) (hb' : b ≤ 64)
    {entries : List (BitVec 64 × Nat)} {entry : BitVec 64 × Nat} (hentry : entry ∈ entries)
    (hrange : w.width < (entry.2 + 1) * b) : ∃ fault, w.writeSlots b entries = .error fault := by
  induction entries generalizing w with
  | nil => exact absurd hentry List.not_mem_nil
  | cons first rest ih =>
      by_cases hfirst : (first.2 + 1) * b ≤ w.width
      · obtain ⟨u, hu, huwf, huwidth, -⟩ := setSlot_of_range hw first.1 hb hb' hfirst
        rcases List.mem_cons.mp hentry with rfl | hrest
        · exact absurd hfirst (Nat.not_le_of_lt hrange)
        · obtain ⟨fault, hfault⟩ := ih huwf hrest (huwidth ▸ hrange)
          exact ⟨fault, by rw [writeSlots_cons, hu]; exact hfault⟩
      · obtain ⟨fault, hfault⟩ : ∃ fault, w.setSlot first.2 b first.1 = .error fault :=
          setBits_of_not_range first.1 fun h => hfirst (by rw [Nat.succ_mul]; exact h.2)
        exact ⟨fault, by rw [writeSlots_cons, hfault]; rfl⟩

theorem slotValue_of_testBit {w : Word} {s b : Nat} {raw : BitVec 64}
    (hbits : ∀ t, t < b → w.testBit (s * b + t) = raw.getLsbD t) :
    w.slotValue s b = raw.toNat % 2 ^ b := by
  apply Nat.eq_of_testBit_eq
  intro t
  rw [testBit_slotValue, Nat.testBit_mod_two_pow, BitVec.testBit_toNat]
  by_cases ht : t < b
  · rw [hbits t ht]
  · simp only [ht, decide_false, Bool.false_and]

end Bitpack.Word
