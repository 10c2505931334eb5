import Bitpack.Packing.Words
import Bitpack.Proofs.Element.Integer
import Bitpack.Proofs.Layout
import Bitpack.Proofs.Streaming.Run
import Bitpack.Proofs.Word.Slots

/-!
Rows and words. A word holds a row when every value stands encoded in its slot and nothing else is
set; packing makes such words, one for each outer position, and unpacking reads whatever words there
are slot by slot.
-/
namespace Bitpack.Packing

open Streaming (Transfer)

theorem length_rows {α : Type} (n count : Nat) (values : List α) :
    (Tensor.rows n count values).length = count := by
  induction count generalizing values with
  | zero => rfl
  | succ count ih => rw [Tensor.rows, List.length_cons, ih]

theorem length_of_mem_rows {α : Type} {n count : Nat} {values row : List α}
    (hlength : values.length = count * n) (hrow : row ∈ Tensor.rows n count values) :
    row.length = n := by
  induction count generalizing values with
  | zero => exact absurd hrow List.not_mem_nil
  | succ count ih =>
      rw [Nat.succ_mul] at hlength
      rcases List.mem_cons.mp hrow with rfl | hrest
      · rw [List.length_take]
        omega
      · exact ih (by rw [List.length_drop]; omega) hrest

theorem flatten_rows {α : Type} {n count : Nat} {values : List α}
    (hlength : values.length = count * n) : (Tensor.rows n count values).flatten = values := by
  induction count generalizing values with
  | zero =>
      rw [Nat.zero_mul] at hlength
      rw [List.eq_nil_of_length_eq_zero hlength]
      rfl
  | succ count ih =>
      rw [Nat.succ_mul] at hlength
      rw [Tensor.rows, List.flatten_cons, ih (by rw [List.length_drop]; omega),
        List.take_append_drop]

theorem getElem?_rows {α : Type} {n count o : Nat} (values : List α) (ho : o < count) :
    (Tensor.rows n count values)[o]? = some ((values.drop (o * n)).take n) := by
  induction count generalizing values o with
  | zero => exact absurd ho (Nat.not_lt_zero o)
  | succ count ih =>
      cases o with
      | zero =>
          rw [Nat.zero_mul]
          rfl
      | succ o =>
          rw [Tensor.rows, List.getElem?_cons_succ, ih _ (by omega), List.drop_drop, Nat.succ_mul,
            Nat.add_comm n]

theorem slot_end_le {l : Layout} {reverse : Bool} {slot : Nat} (h : slot ∈ l.slotOrder reverse)
    (bits : Nat) : (slot + 1) * bits ≤ l.slotBits bits :=
  Nat.mul_le_mul_right bits (Layout.lt_innerFull_of_mem h)

private theorem map_eq_map_of_zip {α β γ : Type} {f : α → γ} {g : β → γ} {as : List α} {bs : List β}
    (hlength : as.length = bs.length) (h : ∀ p ∈ as.zip bs, g p.2 = f p.1) : bs.map g = as.map f := by
  induction as generalizing bs with
  | nil =>
      rw [List.length_nil] at hlength
      rw [List.eq_nil_of_length_eq_zero hlength.symm]
      rfl
  | cons a as ih =>
      cases bs with
      | nil => cases hlength
      | cons b bs =>
          rw [List.map_cons, List.map_cons, h (a, b) List.mem_cons_self,
            ih (Nat.succ.inj hlength) fun p hp => h p (List.mem_cons_of_mem _ hp)]

/-- The sizes of an array of so many values of a type, and of the words of its rows, fit. -/
structure Sized (d : Dtype) (shape : List Nat) (e : ElementType) : Prop where
  fits : Size.Fits shape
  bytes_lt : shape.prod * d.bytes < Size.memoryLimit
  bits_lt : ∀ {last : Nat}, shape.getLast? = some last → last * e.bits < Size.limit

theorem sized_of_getLast? {d : Dtype} {shape : List Nat} {last : Nat} {e : ElementType}
    (hlast : shape.getLast? = some last) (hfits : Size.Fits shape)
    (hroom : shape.prod * d.bytes < Size.memoryLimit) (hbits : last * e.bits < Size.limit) :
    Sized d shape e :=
  ⟨hfits, hroom, fun h => by rwa [← Option.some.inj (hlast.symm.trans h)]⟩

variable [Platform] {d : Dtype}

/-- The row stands encoded in the slots of the word, in the order in which they are visited. -/
structure Holds (e : ElementType) (l : Layout) (reverse : Bool) (row : List (Scalar d))
    (w : Word) : Prop where
  wellFormed : w.WellFormed
  width_eq : w.width = l.slotBits e.bits
  slots : (l.slotOrder reverse).map (w.slotValue · e.bits) = row.map fun x => (e.encode x).toNat

theorem fillWord_eq (e : ElementType) (width : Nat) (row : List (Scalar d × Nat)) :
    fillWord e width row =
      (Word.zero width).writeSlots e.bits (row.map fun entry => (e.encode entry.1, entry.2)) := by
  unfold fillWord Word.writeSlots
  rw [List.foldlM_map]

theorem map_snd_placed (e : ElementType) (l : Layout) (options : Options) {row : List (Scalar d)}
    (hrow : row.length = l.innerFull) :
    ((placed l options row).map fun entry => (e.encode entry.1, entry.2)).map Prod.snd =
      l.slotOrder options.reverseInner := by
  rw [List.map_map]
  exact List.map_snd_zip (Nat.le_of_eq (by rw [hrow, Layout.length_slotOrder]))

theorem exists_fillWord (e : ElementType) (l : Layout) (options : Options) {row : List (Scalar d)}
    (hrow : row.length = l.innerFull) :
    ∃ w, fillWord e (l.slotBits e.bits) (placed l options row) = .ok w ∧
      Holds e l options.reverseInner row w := by
  have hlength : row.length = (l.slotOrder options.reverseInner).length := by
    rw [hrow, Layout.length_slotOrder]
  have hslots := map_snd_placed e l options hrow
  obtain ⟨w, hw, hwf, hwidth, hwritten, _⟩ :=
    Word.writeSlots_of_nodup (Word.wellFormed_zero (l.slotBits e.bits)) e.bits_pos e.bits_le
      ((placed l options row).map fun entry => (e.encode entry.1, entry.2))
      (by
        intro entry hentry
        have hslot : entry.2 ∈ l.slotOrder options.reverseInner := by
          rw [← hslots]
          exact List.mem_map_of_mem hentry
        exact slot_end_le hslot e.bits)
      (by
        rw [hslots]
        exact Layout.slotOrder_nodup l _)
  refine ⟨w, (fillWord_eq e _ _).trans hw, hwf, hwidth, ?_⟩
  apply map_eq_map_of_zip hlength
  intro entry hentry
  have hbits := hwritten (e.encode entry.1, entry.2)
    (List.mem_map_of_mem (f := fun entry => (e.encode entry.1, entry.2)) hentry)
  rw [Word.slotValue_of_testBit hbits, Nat.mod_eq_of_lt (e.toNat_encode_lt entry.1)]

theorem fillWord_of_lt (e : ElementType) {l : Layout} (options : Options) {row : List (Scalar d)}
    (hrow : row.length = l.innerFull) {width : Nat} (hwidth : width < l.slotBits e.bits) :
    ∃ fault, fillWord e width (placed l options row) = .error fault := by
  have hpos : 0 < l.innerFull := Nat.pos_of_mul_pos_right (Nat.zero_lt_of_lt hwidth)
  have hlast : l.innerFull - 1 ∈ l.slotOrder options.reverseInner :=
    (Layout.slotOrder_perm l _).mem_iff.mpr (List.mem_range.mpr (Nat.sub_one_lt_of_lt hpos))
  rw [← map_snd_placed e l options hrow] at hlast
  obtain ⟨entry, hentry, heq⟩ := List.mem_map.mp hlast
  rw [fillWord_eq]
  refine Word.writeSlots_of_not_range (Word.wellFormed_zero width) e.bits_pos e.bits_le hentry ?_
  rw [heq, Nat.sub_add_cancel hpos]
  exact hwidth

def rowWord (e : ElementType) (l : Layout) (options : Options) (row : List (Scalar d)) : Word :=
  match fillWord e (l.slotBits e.bits) (placed l options row) with
  | .ok w => w
  | .error _ => Word.zero (l.slotBits e.bits)

theorem rowWord_holds (e : ElementType) {l : Layout} (options : Options) {row : List (Scalar d)}
    (hrow : row.length = l.innerFull) :
    fillWord e (l.slotBits e.bits) (placed l options row) = .ok (rowWord e l options row) ∧
      Holds e l options.reverseInner row (rowWord e l options row) := by
  obtain ⟨w, hw, hholds⟩ := exists_fillWord e l options hrow
  unfold rowWord
  rw [hw]
  exact ⟨rfl, hholds⟩

def wordRow (d : Dtype) (e : ElementType) (l : Layout) (options : Options) (w : Word) :
    List (Scalar d) :=
  (l.slotOrder options.reverseInner).map fun slot =>
    e.decode d (BitVec.ofNat 64 (w.slotValue slot e.bits))

theorem length_wordRow (d : Dtype) (e : ElementType) (l : Layout) (options : Options) (w : Word) :
    (wordRow d e l options w).length = l.innerFull := by
  rw [wordRow, List.length_map, Layout.length_slotOrder]

theorem Holds.wordRow_eq {e : ElementType} {l : Layout} {options : Options} {row : List (Scalar d)}
    {w : Word} (h : Holds e l options.reverseInner row w) (target : Dtype) :
    wordRow target e l options w = row.map fun x => e.decode target (e.encode x) := by
  have hdecoded := congrArg (List.map fun n => e.decode target (BitVec.ofNat 64 n)) h.slots
  rw [List.map_map, List.map_map] at hdecoded
  refine hdecoded.trans (List.map_congr_left fun x _ => ?_)
  rw [Function.comp_apply, BitVec.ofNat_toNat, BitVec.setWidth_eq]

theorem settle_packRow (e : ElementType) (l : Layout) (options : Options) (outer : Nat)
    {row : List (Scalar d)} (hrow : row.length = l.innerFull) (queue : List Word) :
    (packRow e (l.slotBits e.bits) outer (placed l options row)).settle queue =
      (.ok (), queue ++ [rowWord e l options row]) := by
  unfold packRow
  rw [Transfer.settle_bind_of_ok (Transfer.settle_reportAll _ queue),
    (rowWord_holds e options hrow).1, inRange,
    Transfer.settle_bind_of_ok (Transfer.settle_lift _ queue)]
  rfl

theorem settle_packRow_of_error {e : ElementType} {width outer : Nat} {row : List (Scalar d × Nat)}
    {fault : RangeFault} (hfill : fillWord e width row = .error fault) (queue : List Word) :
    (packRow e width outer row).settle queue = (.error (.range fault), queue) := by
  unfold packRow
  rw [Transfer.settle_bind_of_ok (Transfer.settle_reportAll _ queue), hfill]
  exact Transfer.settle_bind_of_error (Transfer.settle_lift _ queue)

theorem settle_packRows (e : ElementType) (l : Layout) (options : Options) (outer : Nat)
    {rows : List (List (Scalar d))} (hrows : ∀ row ∈ rows, row.length = l.innerFull)
    (queue : List Word) :
    (packRows l (l.slotBits e.bits) e options outer rows).settle queue =
      (.ok (), queue ++ rows.map (rowWord e l options)) := by
  induction rows generalizing outer queue with
  | nil => rw [packRows, Transfer.settle_pure, List.map_nil, List.append_nil]
  | cons row rest ih =>
      rw [packRows, Transfer.settle_bind_of_ok
        (settle_packRow e l options outer (hrows row List.mem_cons_self) queue),
        ih (outer + 1) (fun other hother => hrows other (List.mem_cons_of_mem _ hother)),
        List.append_assoc]
      rfl

theorem wordBits_eq {shape : List Nat} {last : Nat} (hlast : shape.getLast? = some last)
    (hfits : Size.Fits shape.dropLast) (e : ElementType) (hbits : last * e.bits < Size.limit) :
    wordBits shape e = .ok (last * e.bits) := by
  unfold wordBits
  rw [Layout.ofShape_of_dvd hlast Nat.one_pos (Nat.one_dvd last) hfits]
  have hone : Layout.slotBits ⟨shape.dropLast.prod, last / 1, 1⟩ e.bits = last * e.bits := by
    rw [Layout.slotBits, Layout.innerFull, Nat.div_one, Nat.mul_one]
  exact (Layout.wordBits_of_lt (hone ▸ hbits)).trans (congrArg _ hone)

def tensorWords (t : Tensor d) (e : ElementType) (l : Layout) (options : Options) : List Word :=
  (Tensor.rows l.innerFull l.outer t.values).map (rowWord e l options)

theorem settle_pack {t : Tensor d} (e : ElementType) {options : Options} {l : Layout}
    (hlayout : Layout.ofShape t.shape options.blocks = .ok l)
    (hcount : t.values.length = l.outer * l.innerFull) (hbits : l.slotBits e.bits < Size.limit)
    (queue : List Word) :
    (pack t e options).settle queue = (.ok (), queue ++ tensorWords t e l options) := by
  unfold pack
  rw [hlayout, Transfer.settle_bind_of_ok (Transfer.settle_lift _ queue),
    Layout.wordBits_of_lt hbits, Transfer.settle_bind_of_ok (Transfer.settle_lift _ queue),
    Transfer.settle_bind_of_ok (Transfer.settle_report _ queue)]
  exact settle_packRows e l options 0 (fun _ hrow => length_of_mem_rows hcount hrow) queue

theorem settle_unpackSlots (d : Dtype) (e : ElementType) (w : Word) {slots : List Nat}
    (hslots : ∀ slot ∈ slots, (slot + 1) * e.bits ≤ w.width) (queue : List Word) :
    (unpackSlots d e w slots).settle queue =
      (.ok (slots.map fun slot => e.decode d (BitVec.ofNat 64 (w.slotValue slot e.bits))),
        queue) := by
  induction slots with
  | nil => rfl
  | cons slot rest ih =>
      have hslot := Word.slot_of_range w e.bits_le (hslots slot List.mem_cons_self)
      have hrest := ih fun other hother => hslots other (List.mem_cons_of_mem _ hother)
      rw [unpackSlots, hslot, inRange, Transfer.settle_bind_of_ok (Transfer.settle_lift _ queue)]
      dsimp only
      rw [Transfer.settle_bind_of_ok (Transfer.settle_report _ queue),
        Transfer.settle_bind_of_ok hrest]
      rfl

theorem settle_unpackRow (d : Dtype) {e : ElementType} {l : Layout} (options : Options)
    (outer : Nat) {w : Word} (hwidth : l.slotBits e.bits ≤ w.width) (queue : List Word) :
    (unpackRow d l (l.slotBits e.bits) e options outer).settle (w :: queue) =
      (.ok (wordRow d e l options w), queue) := by
  unfold unpackRow
  rw [Transfer.settle_bind_of_ok (Transfer.settle_receive_cons w queue),
    if_neg (Nat.not_lt_of_le hwidth), Transfer.settle_bind_of_ok (Transfer.settle_report _ queue)]
  exact settle_unpackSlots d e w (fun slot hslot => Nat.le_trans (slot_end_le hslot e.bits) hwidth) queue

theorem settle_unpackRows (d : Dtype) {e : ElementType} {l : Layout} (options : Options)
    (outer : Nat) {words : List Word} (hwidths : ∀ w ∈ words, l.slotBits e.bits ≤ w.width)
    (queue : List Word) :
    (unpackRows d l (l.slotBits e.bits) e options words.length outer).settle (words ++ queue) =
      (.ok (words.flatMap (wordRow d e l options)), queue) := by
  induction words generalizing outer with
  | nil => rfl
  | cons w rest ih =>
      rw [List.length_cons, unpackRows, List.cons_append, Transfer.settle_bind_of_ok
        (settle_unpackRow d options outer (hwidths w List.mem_cons_self) (rest ++ queue)),
        Transfer.settle_bind_of_ok
          (ih (outer + 1) fun other hother => hwidths other (List.mem_cons_of_mem _ hother))]
      rfl

theorem length_flatMap_wordRow (d : Dtype) (e : ElementType) (l : Layout) (options : Options)
    (words : List Word) :
    (words.flatMap (wordRow d e l options)).length = words.length * l.innerFull := by
  induction words with
  | nil => rw [List.length_nil, Nat.zero_mul]; rfl
  | cons w rest ih =>
      rw [List.flatMap_cons, List.length_append, ih, length_wordRow, List.length_cons,
        Nat.succ_mul, Nat.add_comm]

theorem ofValues_eq_ok_iff {shape : List Nat} {values : List (Scalar d)} {t : Tensor d} :
    Tensor.ofValues shape values = .ok t ↔ t.shape = shape ∧ t.values = values := by
  unfold Tensor.ofValues
  constructor
  · intro htensor
    split at htensor
    · cases htensor
    · obtain ⟨count, -, hmade⟩ := bind_eq_ok_iff.mp htensor
      split_ifs at hmade
      cases hmade
      exact ⟨rfl, rfl⟩
  · rintro ⟨rfl, rfl⟩
    rw [dif_neg t.shape_ne_nil, Size.product_of_fits t.fits]
    change (if _ then _ else _) = _
    rw [if_neg (not_not.mpr t.length_values.symm),
      dif_pos ⟨t.length_values, t.fits, t.bytes_lt⟩]

theorem ofValues_ne_range (shape : List Nat) (values : List (Scalar d)) (fault : RangeFault) :
    Tensor.ofValues shape values ≠ .error (.range fault) := by
  unfold Tensor.ofValues
  split
  · nofun
  · cases hcount : Size.product shape with
    | error cause =>
        obtain ⟨size, rfl⟩ := Size.product_error hcount
        nofun
    | ok count =>
        change (if _ then _ else _) ≠ _
        split_ifs <;> nofun

theorem Sized.sizes_of_ofShape {shape : List Nat} {e : ElementType} {blocks : Nat} {l : Layout}
    (h : Sized d shape e) (hlayout : Layout.ofShape shape blocks = .ok l) :
    shape ≠ [] ∧ l.outer = shape.dropLast.prod ∧ shape.prod = l.outer * l.innerFull ∧
      l.slotBits e.bits < Size.limit ∧ l.reserve d.bytes = .ok () := by
  obtain ⟨last, -, hlast, -⟩ := Layout.ofShape_eq_ok_iff.mp hlayout
  obtain ⟨houter, hfull, hcount⟩ := Layout.sizes_of_ofShape hlayout hlast h.fits.dropLast
  refine ⟨?_, houter, hcount, ?_, Layout.reserve_of_lt ?_ ?_⟩
  · rintro rfl
    cases hlast
  · rw [Layout.slotBits, hfull]
    exact h.bits_lt hlast
  · rw [← hcount]
    exact h.fits.prod_lt
  · rw [← hcount]
    exact h.bytes_lt

theorem settle_unpack (d : Dtype) {shape : List Nat} {e : ElementType} {options : Options}
    {l : Layout} (hlayout : Layout.ofShape shape options.blocks = .ok l) (hsized : Sized d shape e)
    {words : List Word} (hlength : words.length = l.outer)
    (hwidths : ∀ w ∈ words, l.slotBits e.bits ≤ w.width) :
    ∃ t : Tensor d, t.shape = shape ∧ t.values = words.flatMap (wordRow d e l options) ∧
      ∀ queue, (unpack d shape e options).settle (words ++ queue) = (.ok t, queue) := by
  obtain ⟨hshape, -, hcount, hbits, hreserve⟩ := hsized.sizes_of_ofShape hlayout
  have hvalues : (words.flatMap (wordRow d e l options)).length = shape.prod := by
    rw [length_flatMap_wordRow, hlength, hcount]
  refine ⟨⟨shape, _, hshape, hvalues, hsized.fits, hvalues ▸ hsized.bytes_lt⟩, rfl, rfl,
    fun queue => ?_⟩
  unfold unpack
  rw [hlayout, Transfer.settle_bind_of_ok (Transfer.settle_lift _ _), Layout.wordBits_of_lt hbits,
    Transfer.settle_bind_of_ok (Transfer.settle_lift _ _),
    Transfer.settle_bind_of_ok (Transfer.settle_report _ _), hreserve,
    Transfer.settle_bind_of_ok (Transfer.settle_lift _ _), ← hlength,
    Transfer.settle_bind_of_ok (settle_unpackRows d options 0 hwidths queue), Transfer.settle_lift]
  exact congrArg (·, queue) (ofValues_eq_ok_iff.mpr ⟨rfl, rfl⟩)

end Bitpack.Packing
