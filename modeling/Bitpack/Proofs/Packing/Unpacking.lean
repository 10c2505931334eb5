import Bitpack.Proofs.Packing.FirstFault
import Bitpack.Proofs.Packing.Repack

/-!
Unpacking whatever is queued. The words may have any widths: a tensor is read from the low bits of as
many words as the shape has outer positions, or unpacking stops at the first word that is missing or
too narrow. A slot that no word has is never read.
-/
namespace Bitpack.Packing

open Streaming (Transfer)

theorem slotValue_congr {v w : Word} {need s b : Nat}
    (hlow : v.value % 2 ^ need = w.value % 2 ^ need) (hs : (s + 1) * b ≤ need) :
    v.slotValue s b = w.slotValue s b := by
  apply Nat.eq_of_testBit_eq
  intro t
  rw [Word.testBit_slotValue, Word.testBit_slotValue]
  by_cases ht : t < b
  · have hbit : s * b + t < need := Nat.lt_of_lt_of_le (by omega) (Word.slot_range_le hs)
    have hsame := congrArg (Nat.testBit · (s * b + t)) hlow
    simpa [Nat.testBit_mod_two_pow, hbit, ht] using hsame
  · simp [ht]

theorem wideAt_or_fault (need : Nat) (queue : List Word) (i : Nat) :
    WideAt need queue i ∨ queue[i]? = none ∨ ∃ w, queue[i]? = some w ∧ w.width < need := by
  cases hget : queue[i]? with
  | none => exact .inr (.inl rfl)
  | some w =>
      rcases Nat.lt_or_ge w.width need with hnarrow | hwide
      · exact .inr (.inr ⟨w, rfl, hnarrow⟩)
      · exact .inl ⟨w, hget, hwide⟩

theorem wide_or_first_fault (need : Nat) (queue : List Word) (count : Nat) :
    (∀ i, i < count → WideAt need queue i) ∨
      ∃ i, i < count ∧ (∀ j, j < i → WideAt need queue j) ∧
        (queue[i]? = none ∨ ∃ w, queue[i]? = some w ∧ w.width < need) := by
  induction count with
  | zero => exact .inl fun i hi => absurd hi (Nat.not_lt_zero i)
  | succ count ih =>
      rcases ih with hwide | ⟨i, hi, hfirst⟩
      · rcases wideAt_or_fault need queue count with hnext | hfault
        · left
          intro i hi
          rcases Nat.lt_or_eq_of_le (Nat.le_of_lt_succ hi) with hlt | rfl
          · exact hwide i hlt
          · exact hnext
        · exact .inr ⟨count, Nat.lt_succ_self count, hwide, hfault⟩
      · exact .inr ⟨i, Nat.lt_succ_of_lt hi, hfirst⟩

theorem width_take_of_wideAt {need count : Nat} {queue : List Word}
    (hwide : ∀ i, i < count → WideAt need queue i) :
    (∀ w ∈ queue.take count, need ≤ w.width) ∧ (queue.take count).length = count := by
  rw [← Nat.zero_add count] at hwide
  exact width_of_wideAt hwide

section

variable [Platform] {d : Dtype} {e : ElementType} {options : Options} {l : Layout}
  {queue : List Word}

theorem wordRow_congr {v w : Word}
    (hlow : v.value % 2 ^ l.slotBits e.bits = w.value % 2 ^ l.slotBits e.bits) :
    wordRow d e l options v = wordRow d e l options w := by
  apply List.map_congr_left
  intro slot hslot
  rw [slotValue_congr hlow (slot_end_le hslot e.bits)]

theorem getElem?_wordRow {c j : Nat} (w : Word) (hc : c < l.blocks) (hj : j < l.inner) :
    (wordRow d e l options w)[c * l.inner + j]? =
      some (e.decode d (BitVec.ofNat 64
        (w.slotValue (Layout.blockSlotIndex c j l.inner options.reverseInner) e.bits))) := by
  rw [wordRow, List.getElem?_map, Layout.getElem?_slotOrder _ hc hj, Option.map_some]

theorem getElem?_flatMap_wordRow {words : List Word} {o c j : Nat} {w : Word}
    (hw : words[o]? = some w) (hc : c < l.blocks) (hj : j < l.inner) :
    (words.flatMap (wordRow d e l options))[o * l.innerFull + (c * l.inner + j)]? =
      some (e.decode d (BitVec.ofNat 64
        (w.slotValue (Layout.blockSlotIndex c j l.inner options.reverseInner) e.bits))) := by
  have hvalue : (wordRow d e l options w)[c * l.inner + j]? = some _ := getElem?_wordRow w hc hj
  have hp := (List.getElem?_eq_some_iff.mp hvalue).1
  rw [length_wordRow] at hp
  have ho := (List.getElem?_eq_some_iff.mp hw).1
  have hrow := getElem?_rows (n := l.innerFull) (words.flatMap (wordRow d e l options)) ho
  rw [rows_flatMap (length_wordRow d e l options), List.getElem?_map, hw, Option.map_some,
    Option.some.injEq] at hrow
  rw [hrow, List.getElem?_take_of_lt hp, List.getElem?_drop] at hvalue
  exact hvalue

section

variable {shape : List Nat} (hsized : Sized d shape e)
  (hlayout : Layout.ofShape shape options.blocks = .ok l)

include hsized hlayout

theorem settle_unpack_of_wide
    (hwide : ∀ i, i < l.outer → WideAt (l.slotBits e.bits) queue i) :
    ∃ t : Tensor d, t.shape = shape ∧
      t.values = (queue.take l.outer).flatMap (wordRow d e l options) ∧
      (unpack d shape e options).settle queue = (.ok t, queue.drop l.outer) := by
  obtain ⟨hwidths, hlength⟩ := width_take_of_wideAt hwide
  obtain ⟨t, hshape, hvalues, hunpack⟩ := settle_unpack d hlayout hsized hlength hwidths
  have hsettle := hunpack (queue.drop l.outer)
  rw [List.take_append_drop] at hsettle
  exact ⟨t, hshape, hvalues, hsettle⟩

theorem settle_unpack_of_first_fault {i : Nat} (hi : i < l.outer)
    (hwide : ∀ j, j < i → WideAt (l.slotBits e.bits) queue j) {fault : Error} {rest : List Word}
    (hbroken : Broken (l.slotBits e.bits) (queue.drop i) fault rest) :
    (unpack d shape e options).settle queue = (.error fault, rest) := by
  obtain ⟨hwidths, hlength⟩ := width_take_of_wideAt hwide
  have hsettle := settle_unpack_of_broken (d := d) hsized hlayout hwidths hbroken (by omega)
  rwa [List.take_append_drop] at hsettle

theorem settle_unpack_of_missing {i : Nat} (hi : i < l.outer)
    (hwide : ∀ j, j < i → WideAt (l.slotBits e.bits) queue j) (hget : queue[i]? = none) :
    (unpack d shape e options).settle queue = (.error (.stream .empty), []) := by
  apply settle_unpack_of_first_fault hsized hlayout hi hwide
  rw [List.drop_eq_nil_of_le (List.getElem?_eq_none_iff.mp hget)]
  exact .missing

theorem settle_unpack_of_low_bits {t : Tensor d} {queue' : List Word} (hshape : t.shape = shape)
    (hvalues : t.values = (queue.take l.outer).flatMap (wordRow d e l options))
    (hlow : ∀ o, o < l.outer → ∃ v w, queue[o]? = some v ∧ queue'[o]? = some w ∧
      l.slotBits e.bits ≤ w.width ∧
      v.value % 2 ^ l.slotBits e.bits = w.value % 2 ^ l.slotBits e.bits) :
    (unpack d shape e options).settle queue' = (.ok t, queue'.drop l.outer) := by
  have hwide : ∀ o, o < l.outer → WideAt (l.slotBits e.bits) queue' o := by
    intro o ho
    obtain ⟨v, w, -, hw, hwidth, -⟩ := hlow o ho
    exact ⟨w, hw, hwidth⟩
  obtain ⟨t', hshape', hvalues', hsettle⟩ := settle_unpack_of_wide hsized hlayout hwide
  have hrows : (queue'.take l.outer).map (wordRow d e l options) =
      (queue.take l.outer).map (wordRow d e l options) := by
    apply List.ext_getElem?
    intro o
    by_cases ho : o < l.outer
    · obtain ⟨v, w, hv, hw, -, heq⟩ := hlow o ho
      simp [List.getElem?_take_of_lt ho, hv, hw, wordRow_congr heq]
    · simp [ho]
  have hequal : t' = t := by
    apply Tensor.ext (hshape'.trans hshape.symm)
    rw [hvalues', hvalues, List.flatMap_def, List.flatMap_def, hrows]
  rw [hsettle, hequal]

end

theorem settle_unpack_ne_range {shape : List Nat} (hsized : Sized d shape e) (options : Options)
    (queue : List Word) (fault : RangeFault) :
    ((unpack d shape e options).settle queue).1 ≠ .error (.range fault) := by
  intro hrange
  cases hlayout : Layout.ofShape shape options.blocks with
  | error cause =>
      rw [settle_unpack_of_error hlayout] at hrange
      cases hrange
      exact Layout.ofShape_ne_range shape options.blocks fault hlayout
  | ok l =>
      rcases wide_or_first_fault (l.slotBits e.bits) queue l.outer with
        hwide | ⟨i, hi, hwide, hmissing | ⟨w, hget, hnarrow⟩⟩
      · obtain ⟨t, -, -, hsettle⟩ := settle_unpack_of_wide hsized hlayout hwide
        rw [hsettle] at hrange
        cases hrange
      · rw [settle_unpack_of_missing hsized hlayout hi hwide hmissing] at hrange
        cases hrange
      · rw [settle_unpack_of_first_fault hsized hlayout hi hwide (.of_narrow hget hnarrow)] at hrange
        cases hrange

/-- What unpacking makes of any queue. A shape without a layout is refused before a word is taken.
Otherwise, if the sizes fit, as many words are taken as there are outer positions, if they are all wide
enough; every value is read from its slot, and the bits above the slots do not count. If a word is too
narrow, it is the last one taken, and if the queue ends before, nothing is left of it. No slot is ever
out of range. -/
theorem unpack_any_queue (d : Dtype) (shape : List Nat) (e : ElementType) (options : Options)
    (queue : List Word) :
    (∀ fault, Layout.ofShape shape options.blocks = .error fault →
      (unpack d shape e options).settle queue = (.error fault, queue)) ∧
    (Sized d shape e →
      (∀ l n, Layout.ofShape shape options.blocks = .ok l → shape.getLast? = some n →
        ((∀ o, o < shape.dropLast.prod → WideAt (n * e.bits) queue o) →
          ∃ t : Tensor d,
            (unpack d shape e options).settle queue = (.ok t, queue.drop shape.dropLast.prod) ∧
            t.shape = shape ∧
            (∀ o c j w, o < shape.dropLast.prod → c < options.blocks → j < n / options.blocks →
              queue[o]? = some w →
              t.values[o * n + (c * (n / options.blocks) + j)]? =
                some (e.decode d (BitVec.ofNat 64
                  (w.value / 2 ^ (e.bits * (c * (n / options.blocks) +
                    if options.reverseInner then n / options.blocks - 1 - j else j)) %
                    2 ^ e.bits)))) ∧
            ∀ queue' : List Word, (∀ o, o < shape.dropLast.prod → ∃ v w, queue[o]? = some v ∧
                queue'[o]? = some w ∧ n * e.bits ≤ w.width ∧
                v.value % 2 ^ (n * e.bits) = w.value % 2 ^ (n * e.bits)) →
              (unpack d shape e options).settle queue' =
                (.ok t, queue'.drop shape.dropLast.prod)) ∧
        ∀ i, i < shape.dropLast.prod → (∀ j, j < i → WideAt (n * e.bits) queue j) →
          (∀ w, queue[i]? = some w → w.width < n * e.bits →
            (unpack d shape e options).settle queue =
              (.error (.wordWidth (n * e.bits) w.width), queue.drop (i + 1))) ∧
          (queue[i]? = none →
            (unpack d shape e options).settle queue = (.error (.stream .empty), []))) ∧
      ∀ fault, ((unpack d shape e options).settle queue).1 ≠ .error (.range fault)) := by
  refine ⟨fun fault hlayout => settle_unpack_of_error hlayout queue, fun hsized => ⟨?_, ?_⟩⟩
  · intro l n hlayout hlast
    obtain ⟨houter, hfull, -⟩ := Layout.sizes_of_ofShape hlayout hlast hsized.fits.dropLast
    obtain ⟨n', outer, hlast', -, -, -, hl⟩ := Layout.ofShape_eq_ok_iff.mp hlayout
    cases hlast.symm.trans hlast'
    have hinner : l.inner = n / options.blocks := congrArg Layout.inner hl
    have hblocks : l.blocks = options.blocks := congrArg Layout.blocks hl
    have hneed : l.slotBits e.bits = n * e.bits := by rw [Layout.slotBits, hfull]
    rw [← houter, ← hneed, ← hinner]
    refine ⟨fun hwide => ?_, fun i hi hwide => ⟨fun w hget hnarrow => ?_, ?_⟩⟩
    · obtain ⟨t, hshape, hvalues, hsettle⟩ := settle_unpack_of_wide hsized hlayout hwide
      refine ⟨t, hsettle, hshape, fun o c j w ho hc hj hw => ?_, fun queue' hlow =>
        settle_unpack_of_low_bits hsized hlayout hshape hvalues hlow⟩
      rw [hvalues, ← hfull, getElem?_flatMap_wordRow (List.getElem?_take_of_lt ho ▸ hw)
        (hblocks ▸ hc) hj, Word.slotValue, Layout.blockSlotIndex, Layout.slotIndex,
        Nat.sub_right_comm, Nat.mul_comm e.bits]
    · exact settle_unpack_of_first_fault hsized hlayout hi hwide (.of_narrow hget hnarrow)
    · exact settle_unpack_of_missing hsized hlayout hi hwide
  · exact settle_unpack_ne_range hsized options queue

end

open scoped Platform.Release

theorem unpack_any_queue_mixed :
    Sized (.int .one) [2, 2] (.int ⟨4, by decide, by decide⟩) ∧
      Sized (.int .one) [4, 2] (.int ⟨4, by decide, by decide⟩) ∧
      (unpack (.int .one) [2, 2] (.int ⟨4, by decide, by decide⟩) ⟨false, 1, 1⟩).settle mixedQueue =
        (.ok ⟨[2, 2], [1, 2, -8, -1], by decide, by decide, by decide, by decide⟩,
          mixedQueue.drop 2) ∧
      (unpack (.int .one) [4, 2] (.int ⟨4, by decide, by decide⟩) ⟨false, 1, 1⟩).settle mixedQueue =
        (.error (.wordWidth 8 7), [⟨8, [0]⟩]) ∧
      (unpack (.int .one) [4, 2] (.int ⟨4, by decide, by decide⟩) ⟨false, 1, 1⟩).settle
          (mixedQueue.take 3) = (.error (.stream .empty), []) ∧
      (unpack (.int .one) [4, 2] (.int ⟨4, by decide, by decide⟩) ⟨false, 1, 0⟩).settle mixedQueue =
        (.error (.shape .noBlock), mixedQueue) := by
  have htwo : Sized (.int .one) [2, 2] (.int ⟨4, by decide, by decide⟩) :=
    sized_of_getLast? (show List.getLast? [_, 2] = some 2 from rfl) (by decide) (by decide) (by decide)
  have hfour : Sized (.int .one) [4, 2] (.int ⟨4, by decide, by decide⟩) :=
    sized_of_getLast? (show List.getLast? [_, 2] = some 2 from rfl) (by decide) (by decide) (by decide)
  have hwide : ∀ j, j < 3 → WideAt 8 (mixedQueue.take 3) j ∧ WideAt 8 mixedQueue j := by
    rintro (_ | _ | _ | j) hj
    · exact ⟨⟨_, rfl, by decide⟩, ⟨_, rfl, by decide⟩⟩
    · exact ⟨⟨_, rfl, by decide⟩, ⟨_, rfl, by decide⟩⟩
    · exact ⟨⟨_, rfl, by decide⟩, ⟨_, rfl, by decide⟩⟩
    · omega
  refine ⟨htwo, hfour, ?_, ?_, ?_, ?_⟩
  · obtain ⟨-, hruns⟩ := unpack_any_queue (.int .one) [2, 2] (.int ⟨4, by decide, by decide⟩)
      ⟨false, 1, 1⟩ [⟨8, [0x21]⟩, ⟨8, [0xF8]⟩]
    obtain ⟨hreads, -⟩ := (hruns htwo).1 ⟨2, 2, 1⟩ 2 rfl rfl
    obtain ⟨t, hsettle, -, -, hlow⟩ := hreads (by
      rintro (_ | _ | j) hj
      · exact ⟨_, rfl, by decide⟩
      · exact ⟨_, rfl, by decide⟩
      · exact absurd hj (by simp))
    have ht : t = ⟨[2, 2], [1, 2, -8, -1], by decide, by decide, by decide, by decide⟩ :=
      Except.ok.inj (congrArg Prod.fst hsettle).symm
    subst ht
    apply hlow
    rintro (_ | _ | j) hj
    · exact ⟨_, _, rfl, rfl, by decide, by decide⟩
    · exact ⟨_, _, rfl, rfl, by decide, by decide⟩
    · exact absurd hj (by simp)
  · obtain ⟨-, hruns⟩ := unpack_any_queue (.int .one) [4, 2] (.int ⟨4, by decide, by decide⟩)
      ⟨false, 1, 1⟩ mixedQueue
    obtain ⟨-, hfaults⟩ := (hruns hfour).1 ⟨4, 2, 1⟩ 2 rfl rfl
    exact (hfaults 3 (by decide) fun j hj => (hwide j hj).2).1 _ rfl (by decide)
  · obtain ⟨-, hruns⟩ := unpack_any_queue (.int .one) [4, 2] (.int ⟨4, by decide, by decide⟩)
      ⟨false, 1, 1⟩ (mixedQueue.take 3)
    obtain ⟨-, hfaults⟩ := (hruns hfour).1 ⟨4, 2, 1⟩ 2 rfl rfl
    exact (hfaults 3 (by decide) fun j hj => (hwide j hj).1).2 rfl
  · exact (unpack_any_queue (.int .one) [4, 2] (.int ⟨4, by decide, by decide⟩) ⟨false, 1, 0⟩
      mixedQueue).1 _ rfl

theorem settle_unpackSlots_of_error {d : Dtype} {e : ElementType} {w : Word} {slots : List Nat}
    {slot : Nat} {fault : RangeFault} (hfirst : slots[0]? = some slot)
    (hslot : w.slot slot e.bits = .error fault) (queue : List Word) :
    (unpackSlots d e w slots).settle queue = (.error (.range fault), queue) := by
  cases slots with
  | nil => cases hfirst
  | cons first rest =>
      cases hfirst
      rw [unpackSlots, hslot]
      exact Transfer.settle_bind_of_error (Transfer.settle_lift _ queue)

/-- No room is made for `2^62` integers of eight bytes, so that an empty queue is not missed. Where sizes
wrap around, words of `2^64` bits are words without bits, and a slot is read that no word has. -/
theorem unpack_not_of_wrapped :
    Size.Fits [4611686018427387904, 1] ∧
    Layout.ofShape [4611686018427387904, 1] 1 = .ok ⟨4611686018427387904, 1, 1⟩ ∧
    (unpack (.int .eight) [4611686018427387904, 1] (.int ⟨8, by decide, by decide⟩)
      ⟨true, 1, 1⟩).settle [] = (.error (.size .capacity), []) ∧
    Layout.ofShape [64, 288230376151711744] 1 = .ok ⟨64, 288230376151711744, 1⟩ ∧
    (unpack (.int .eight) [64, 288230376151711744] (.int ⟨64, by decide, by decide⟩)
      ⟨false, 1, 1⟩).settle [Word.zero 0] = (.error (.range (.outside 0 64 0)), []) := by
  have hlayout : Layout.ofShape [64, 288230376151711744] 1 = .ok ⟨64, 288230376151711744, 1⟩ := rfl
  refine ⟨by decide, rfl, rfl, hlayout, ?_⟩
  have hwidth : Layout.wordBits ⟨64, 288230376151711744, 1⟩ 64 = .ok 0 := rfl
  have hreserve : Layout.reserve ⟨64, 288230376151711744, 1⟩ (Dtype.int .eight).bytes = .ok () := rfl
  have hfirst : (Layout.slotOrder ⟨64, 288230376151711744, 1⟩ false)[0]? = some 0 :=
    @Layout.getElem?_slotOrder ⟨64, 288230376151711744, 1⟩ 0 0 false (by decide) (by decide)
  unfold unpack
  rw [hlayout, Transfer.settle_bind_of_ok (Transfer.settle_lift _ _)]
  dsimp only [ElementType.bits]
  rw [hwidth, Transfer.settle_bind_of_ok (Transfer.settle_lift _ _),
    Transfer.settle_bind_of_ok (Transfer.settle_report _ _), hreserve,
    Transfer.settle_bind_of_ok (Transfer.settle_lift _ _)]
  apply Transfer.settle_bind_of_error
  apply Transfer.settle_bind_of_error
  unfold unpackRow
  rw [Transfer.settle_bind_of_ok (Transfer.settle_receive_cons _ _), if_neg (Nat.not_lt_zero _),
    Transfer.settle_bind_of_ok (Transfer.settle_report _ _)]
  exact settle_unpackSlots_of_error hfirst rfl []

end Bitpack.Packing
