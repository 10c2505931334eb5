import Bitpack.Proofs.Packing.BitLayout
import Bitpack.Proofs.Streaming.Pipe

/-!
Packing into one end of a channel while the other end is unpacked. However the two sides take turns
and however little room there is between them, the tensor arrives as it does over a queue.
-/
namespace Bitpack.Packing

open Streaming (Transfer Pipe)
open Streaming.Transfer (OnlyPushes OnlyPops)

section

variable [Platform] {d : Dtype}

theorem onlyPushes_packRow (e : ElementType) (width outer : Nat) (row : List (Scalar d × Nat)) :
    (packRow e width outer row).OnlyPushes :=
  (Transfer.onlyPushes_reportAll _).bind fun _ => OnlyPushes.bind trivial fun _ => trivial

theorem onlyPushes_packRows (layout : Layout) (width : Nat) (e : ElementType) (options : Options)
    (outer : Nat) (rows : List (List (Scalar d))) :
    (packRows layout width e options outer rows).OnlyPushes := by
  induction rows generalizing outer with
  | nil => trivial
  | cons row rest ih => exact (onlyPushes_packRow ..).bind fun _ => ih (outer + 1)

theorem onlyPushes_pack (t : Tensor d) (e : ElementType) (options : Options) :
    (pack t e options).OnlyPushes :=
  OnlyPushes.bind trivial fun layout => OnlyPushes.bind trivial fun width =>
    onlyPushes_packRows layout width e options 0 _

theorem onlyPops_unpackSlots (d : Dtype) (e : ElementType) (word : Word) (slots : List Nat) :
    (unpackSlots d e word slots).OnlyPops := by
  induction slots with
  | nil => trivial
  | cons slot rest ih =>
      refine OnlyPops.bind trivial fun raw => OnlyPops.bind trivial fun _ => ?_
      exact OnlyPops.bind ih fun _ => trivial

theorem onlyPops_unpackRow (d : Dtype) (layout : Layout) (width : Nat) (e : ElementType)
    (options : Options) (outer : Nat) : (unpackRow d layout width e options outer).OnlyPops := by
  refine OnlyPops.bind (fun _ => trivial) fun word => ?_
  split
  · trivial
  · exact onlyPops_unpackSlots d e word _

theorem onlyPops_unpackRows (d : Dtype) (layout : Layout) (width : Nat) (e : ElementType)
    (options : Options) (count outer : Nat) :
    (unpackRows d layout width e options count outer).OnlyPops := by
  induction count generalizing outer with
  | zero => trivial
  | succ count ih =>
      unfold unpackRows
      exact OnlyPops.bind (onlyPops_unpackRow d layout width e options outer) fun row =>
        OnlyPops.bind (ih (outer + 1)) fun _ => trivial

theorem onlyPops_unpack (d : Dtype) (shape : List Nat) (e : ElementType) (options : Options) :
    (unpack d shape e options).OnlyPops := by
  refine OnlyPops.bind trivial fun layout => OnlyPops.bind trivial fun width => ?_
  refine OnlyPops.bind trivial fun _ => OnlyPops.bind trivial fun _ => ?_
  exact OnlyPops.bind (onlyPops_unpackRows d layout width e options layout.outer 0) fun _ => trivial

theorem carries_tensor (target : Dtype) {t : Tensor d} (e : ElementType) {options : Options}
    {l : Layout} (hlayout : Layout.ofShape t.shape options.blocks = .ok l)
    (hbits : l.innerFull * e.bits < Size.limit) (hsized : Sized target t.shape e) (capacity : Nat) :
    Pipe.Carries (tensorWords t e l options) () (recoded target t e hsized.bytes_lt) []
      ⟨capacity, [], pack t e options, unpack target t.shape e options⟩ := by
  have hcount := length_values_of_ofShape hlayout
  have hpushes := onlyPushes_pack t e options
  have hpack := settle_pack e hlayout hcount hbits []
  have hwords : (pack t e options).pushes = tensorWords t e l options :=
    congrArg Prod.snd ((hpushes.settle_eq []).symm.trans hpack)
  refine ⟨Nat.zero_le capacity, hpushes, onlyPops_unpack .., congrArg Prod.fst hpack, ?_, hwords⟩
  dsimp only
  rw [hwords, List.nil_append, ← List.append_nil (tensorWords t e l options)]
  exact settle_unpack_tensorWords target e hlayout hsized []

/-- A tensor is packed into a channel of any capacity and unpacked at its other end. At all times the
words that have arrived, those in the channel and those still to come are the words that packing
leaves on a queue, and one of the two sides can go on until both are done. Then packing has succeeded,
the tensor is the one that is unpacked from a queue, and one more pop finds the writer gone. The
schedule that is run is one of all these. -/
theorem pipe_carries_tensor (target : Dtype) (t : Tensor d) (e : ElementType) {options : Options}
    {l : Layout} (hlayout : Layout.ofShape t.shape options.blocks = .ok l)
    (hbits : l.innerFull * e.bits < Size.limit)
    (hroom : t.shape.prod * target.bytes < Size.memoryLimit) :
    ∃ (words : List Word) (recovered : Tensor target),
      (∀ queue, (pack t e options).settle queue = (.ok (), queue ++ words)) ∧
      (∀ rest, (unpack target t.shape e options).settle (words ++ rest) = (.ok recovered, rest)) ∧
      ∀ capacity,
        (∀ received s, Pipe.Reaches ⟨capacity, [], pack t e options, unpack target t.shape e options⟩
            received s →
          s.items.length ≤ s.capacity ∧ received ++ s.items ++ s.producer.pushes = words ∧
          ((∃ result result', s.producer = .done result ∧ s.consumer = .done result') ∨
            ∃ taken s', Pipe.Step s taken s') ∧
          ∀ result result', s.producer = .done result → s.consumer = .done result' →
            result = .ok () ∧ result' = .ok recovered ∧ received = words ∧
            ∀ taken s', Pipe.Step ⟨s.capacity, s.items, s.producer, Transfer.receive⟩ taken s' ↔
              taken = [] ∧ s' = ⟨s.capacity, s.items, s.producer,
                .done (.error (.stream .writerGone))⟩) ∧
        (Pipe.mk capacity [] (pack t e options) (unpack target t.shape e options)).results =
          (.ok (), .ok recovered) := by
  have hcount := length_values_of_ofShape hlayout
  have hsized : Sized target t.shape e := sized_of_tensor hlayout hbits hroom
  refine ⟨tensorWords t e l options, recoded target t e hroom, settle_pack e hlayout hcount hbits,
    settle_unpack_tensorWords target e hlayout hsized, fun capacity => ?_⟩
  have hstart := carries_tensor target e hlayout hbits hsized capacity
  refine ⟨fun received s hreaches => ?_, hstart.results_eq⟩
  have hcarries := hstart.of_reaches hreaches
  refine ⟨hcarries.bounded, hcarries.words_eq, hcarries.progress, ?_⟩
  intro result result' hproducer hconsumer
  obtain ⟨hok, hok', hitems, hreceived⟩ := hcarries.of_done hproducer hconsumer
  refine ⟨hok, hok', hreceived, fun taken s' => ?_⟩
  rw [hitems, hproducer]
  exact Pipe.step_after_last_iff

end

open scoped Platform.Release

def twoRows : Tensor (.int .two) :=
  ⟨[2, 2], [7, -8, 9, -1], by decide, by decide, by decide, by decide⟩

theorem pipe_carries_tensor_rendezvous :
    Layout.ofShape twoRows.shape 1 = .ok ⟨2, 2, 1⟩ ∧ 2 * 4 < Size.limit ∧
      4 * 4 < Size.memoryLimit ∧ ∃ recovered : Tensor (.int .four),
      recovered.values = [7, -8, -7, -1] ∧
      (Pipe.mk 0 [] (pack twoRows (.int ⟨4, by decide, by decide⟩) ⟨true, 1, 1⟩)
        (unpack (.int .four) [2, 2] (.int ⟨4, by decide, by decide⟩) ⟨true, 1, 1⟩)).results =
          (.ok (), .ok recovered) ∧
      ∀ received s, Pipe.Reaches ⟨0, [], pack twoRows (.int ⟨4, by decide, by decide⟩) ⟨true, 1, 1⟩,
          unpack (.int .four) [2, 2] (.int ⟨4, by decide, by decide⟩) ⟨true, 1, 1⟩⟩ received s →
        received ++ s.items ++ s.producer.pushes = [⟨8, [0x78]⟩, ⟨8, [0x9F]⟩] := by
  have hsize : 2 * 4 < Size.limit := by decide
  have hroom : 4 * 4 < Size.memoryLimit := by decide
  obtain ⟨words, recovered, hpack, hunpack, hpipe⟩ := pipe_carries_tensor (.int .four) twoRows
    (.int ⟨4, by decide, by decide⟩)
    (show Layout.ofShape twoRows.shape (Options.blocks ⟨true, 1, 1⟩) = .ok ⟨2, 2, 1⟩ from rfl)
    hsize hroom
  have hwords : words = [⟨8, [0x78]⟩, ⟨8, [0x9F]⟩] :=
    (congrArg Prod.snd (hpack [])).symm.trans (by decide)
  subst hwords
  have hrecovered : recovered = ⟨[2, 2], [7, -8, -7, -1], by decide, by decide, by decide, by decide⟩ :=
    Except.ok.inj ((congrArg Prod.fst (hunpack [])).symm.trans (by decide))
  obtain ⟨hreaches, hresults⟩ := hpipe 0
  exact ⟨rfl, hsize, hroom, recovered, by rw [hrecovered], hresults,
    fun received s hs => (hreaches received s hs).2.1⟩

/-- Both sides stop at words of `2^66` bits where sizes are checked. A reader of a smaller tensor leaves
the packing side without one. -/
theorem pipe_not_carried :
    (Pipe.mk 0 [] (pack threeRows (.uint ⟨8, by decide, by decide⟩) ⟨false, 1, 1⟩)
      (unpack (.uint .one) [1, 2] (.uint ⟨8, by decide, by decide⟩) ⟨false, 1, 1⟩)).results =
        (.error (.stream .readerGone),
          .ok ⟨[1, 2], [1, 2], by decide, by decide, by decide, by decide⟩) ∧
    letI := Platform.throughSingle true
    Layout.ofShape longRows.shape 1 = .ok ⟨0, 1152921504606846976, 1⟩ ∧
      (Pipe.mk 1 [] (pack longRows (.int ⟨64, by decide, by decide⟩) ⟨false, 1, 1⟩)
        (unpack (.int .eight) longRows.shape (.int ⟨64, by decide, by decide⟩)
          ⟨false, 1, 1⟩)).results = (.error (.size .overflow), .error (.size .overflow)) :=
  ⟨by decide +kernel, rfl, rfl⟩

end Bitpack.Packing
