import Bitpack.Proofs.Npy.ByteOrder
import Bitpack.Proofs.Npy.Sizes
import Bitpack.Proofs.Packing.AllOrNothing

/-!
What is loaded from two files that differ only in the order of their bytes: the same data, the same
values, and the same packed words.
-/
namespace Bitpack.Packing

open Streaming (Transfer)
open Job (Completes Ends)
open Npy (Header)

variable [Platform] {d : Dtype} {shape : List Nat}

/-- How packing a file ends and what it adds to the queue, whatever is queued before. -/
def Emits (d : Dtype) (path : Path) (e : ElementType) (options : Options) (t : FileTree)
    (result : Except Error Unit) (words : List Word) : Prop :=
  ∀ queue, Ends (npyToWords d path e options) queue t result (queue ++ words) t

def emission (repetitions : Nat) (words : Except Error (List Word)) :
    Except Error Unit × List Word :=
  if repetitions = 0 then (.ok (), [])
  else match words with
    | .ok words => (.ok (), (List.replicate repetitions words).flatten)
    | .error fault => (.error fault, [])

theorem emits_npyToWords (d : Dtype) (path : Path) (e : ElementType) (options : Options)
    (t : FileTree) :
    Emits d path e options t (emission options.repetitions (wordsAt d path e options t)).1
      (emission options.repetitions (wordsAt d path e options t)).2 := by
  intro queue
  unfold emission
  split
  · rename_i hzero
    have hdone : Completes (npyToWords d path e options) queue t ()
        (queue ++ (List.replicate options.repetitions []).flatten) t :=
      completes_npyToWords_of_pos (fun hpos => absurd hzero (Nat.ne_of_gt hpos)) queue
    rwa [List.flatten_replicate_nil] at hdone
  · rename_i hrepetitions
    cases hwords : wordsAt d path e options t with
    | ok words => exact completes_npyToWords_of_wordsAt hwords queue
    | error fault =>
        rw [List.append_nil]
        exact ends_npyToWords_of_error hwords (Nat.pos_of_ne_zero hrepetitions) queue

end Bitpack.Packing

namespace Bitpack.OrderTwins

open Packing
open Npy (Header)

section

variable {d : Dtype} {shape : List Nat} (twins : OrderTwins d shape)

/-- Whether the files are read: in the usual order of axes, with sizes that are not refused. -/
def Readable : Prop :=
  twins.fortranOrder = false ∧ ¬Header.Overruns shape ∧ shape.prod * d.bytes < Size.limit

theorem read_of_readable (hreadable : twins.Readable) :
    NpyArray.read twins.little = .ok (twins.array false) ∧
      NpyArray.read twins.big = .ok (twins.array true) := by
  obtain ⟨hfortran, hfits, hsize⟩ := hreadable
  have hlength : (twins.header false).dataLength = .ok (shape.prod * d.bytes) :=
    (Header.dataLength_of_not_overruns hfits).trans (if_pos hsize)
  rw [twins.read_little, twins.read_big, hfortran, hlength]
  exact ⟨rfl, rfl⟩

theorem read_of_not_readable (hrefused : ¬twins.Readable) :
    ∃ fault, NpyArray.read twins.little = .error (.format fault) ∧
      NpyArray.read twins.big = .error (.format fault) := by
  rw [twins.read_little, twins.read_big]
  by_cases hfortran : twins.fortranOrder = true
  · rw [if_pos hfortran, if_pos hfortran]
    exact ⟨_, rfl, rfl⟩
  rw [if_neg hfortran, if_neg hfortran]
  by_cases hover : Header.Overruns shape
  · rw [Header.dataLength_of_overruns hover]
    exact ⟨_, rfl, rfl⟩
  · have hsize : ¬shape.prod * d.bytes < Size.limit := fun hlt =>
      hrefused ⟨Bool.eq_false_iff.mpr hfortran, hover, hlt⟩
    have hlength : (twins.header false).dataLength = .error (.format (.sizeOverflow shape)) :=
      (Header.dataLength_of_not_overruns hover).trans (if_neg hsize)
    rw [hlength]
    exact ⟨_, rfl, rfl⟩

theorem values_array (bigEndian : Bool) : (twins.array bigEndian).values d = .ok twins.values :=
  NpyArray.values_ofValues shape twins.values

end

section

variable [Platform] {d : Dtype} {shape : List Nat} (twins : OrderTwins d shape)
  {path path' : Path} {t t' : FileTree}

theorem tensorAt_eq (hlittle : t.read path = .ok twins.little) (hbig : t'.read path' = .ok twins.big)
    (d' : Dtype) : tensorAt d' path' t' = tensorAt d' path t := by
  unfold tensorAt
  rw [hlittle, hbig]
  change (NpyArray.read twins.big >>= _) = (NpyArray.read twins.little >>= _)
  rw [twins.read_little, twins.read_big]
  cases twins.fortranOrder with
  | true => rfl
  | false => cases (twins.header false).dataLength <;> rfl

theorem wordsAt_eq (hlittle : t.read path = .ok twins.little) (hbig : t'.read path' = .ok twins.big)
    (d' : Dtype) (e : ElementType) (options : Options) :
    wordsAt d' path' e options t' = wordsAt d' path e options t := by
  unfold wordsAt
  rw [twins.tensorAt_eq hlittle hbig]

theorem emits_values {bytes : Bytes} {bigEndian : Bool} (hbytes : t.read path = .ok bytes)
    (hread : NpyArray.read bytes = .ok (twins.array bigEndian)) {tensor : Tensor d}
    (hshape : tensor.shape = shape) (hvalues : tensor.values = twins.values) {e : ElementType}
    {options : Options} {words : List Word}
    (hpack : (pack tensor e options).settle [] = (.ok (), words)) :
    Emits d path e options t (.ok ()) (List.replicate options.repetitions words).flatten := by
  have htensor : tensorAt d path t = .ok tensor :=
    tensorAt_eq_ok_iff.mpr ⟨bytes, _, hbytes, hread, hvalues ▸ twins.values_array bigEndian, hshape⟩
  rcases settle_pack_or tensor e options with ⟨fault, hfault⟩ | ⟨pushed, hpushed⟩
  · cases (hfault []).symm.trans hpack
  · rw [hpushed, List.nil_append] at hpack
    cases hpack
    exact completes_npyToWords_of_wordsAt (wordsAt_eq_ok_iff.mpr ⟨tensor, htensor, hpushed⟩)

/-- The order of the bytes in a file is not seen by what is loaded from it. Of two files of the same
values that differ only in it, both are read or both are refused, and those that are read hold the
same data, from which the values come back bit by bit. Packing either file ends in the same way with
the same words, and these are copies of the words of a tensor of the values. -/
theorem byte_order_immaterial :
    (twins.Readable → ∃ a b, NpyArray.read twins.little = .ok a ∧ NpyArray.read twins.big = .ok b ∧
      a.data = twins.values.flatMap Scalar.toLittleEndian ∧ b.data = a.data ∧
      a.values d = .ok twins.values ∧ b.values d = .ok twins.values ∧
      a.shape = shape ∧ b.shape = shape) ∧
    (¬twins.Readable → ∃ fault, NpyArray.read twins.little = .error (.format fault) ∧
      NpyArray.read twins.big = .error (.format fault)) ∧
    ∀ {path path' : Path} {t t' : FileTree}, t.read path = .ok twins.little →
      t'.read path' = .ok twins.big → ∀ (e : ElementType) (options : Options),
        (∀ d' : Dtype, ∃ result words, Emits d' path e options t result words ∧
          Emits d' path' e options t' result words) ∧
        (twins.Readable → ∀ tensor : Tensor d, tensor.shape = shape → tensor.values = twins.values →
          ∀ words, (pack tensor e options).settle [] = (.ok (), words) →
            Emits d path e options t (.ok ())
              (List.replicate options.repetitions words).flatten ∧
            Emits d path' e options t' (.ok ())
              (List.replicate options.repetitions words).flatten) := by
  refine ⟨fun hreadable => ?_, twins.read_of_not_readable, ?_⟩
  · obtain ⟨hlittle, hbig⟩ := twins.read_of_readable hreadable
    exact ⟨_, _, hlittle, hbig, rfl, rfl, twins.values_array false, twins.values_array true, rfl, rfl⟩
  · intro path path' t t' hlittle hbig e options
    refine ⟨fun d' => ⟨_, _, emits_npyToWords d' path e options t, ?_⟩, ?_⟩
    · have hemits := emits_npyToWords d' path' e options t'
      rwa [twins.wordsAt_eq hlittle hbig] at hemits
    · intro hreadable tensor hshape hvalues words hpack
      obtain ⟨hreadLittle, hreadBig⟩ := twins.read_of_readable hreadable
      exact ⟨twins.emits_values hlittle hreadLittle hshape hvalues hpack,
        twins.emits_values hbig hreadBig hshape hvalues hpack⟩

end

theorem order_big_of_read {bytes : Bytes} {h : Header} (hread : Header.read bytes = .ok (h, []))
    (horder : h.descr.bigEndian = true) :
    ∀ h', Header.read bytes = .ok (h', []) → h'.descr.bigEndian = true := by
  intro h' hread'
  cases hread.symm.trans hread'
  exact horder

def pair : OrderTwins (.uint .two) [2] where
  frame := ⟨[1, 0], [58, 0], 2, .short, rfl⟩
  front := "\x7b'descr': '".toList
  back := "u2', 'fortran_order': False, 'shape': (2,), \x7d\n".toList
  fortranOrder := false
  values := [258, 7]
  length_values := rfl
  header_little := by decide +kernel
  order_big := order_big_of_read (h := ⟨⟨'u', 2, true⟩, false, [2]⟩) (by decide +kernel) rfl

def emptyPair : OrderTwins (.uint .two) [9223372036854775808, 4, 0] where
  frame := ⟨[1, 0], [81, 0], 2, .short, rfl⟩
  front := "\x7b'descr': '".toList
  back := "u2', 'fortran_order': False, 'shape': (9223372036854775808, 4, 0), \x7d\n".toList
  fortranOrder := false
  values := []
  length_values := rfl
  header_little := by decide +kernel
  order_big := order_big_of_read
    (h := ⟨⟨'u', 2, true⟩, false, [9223372036854775808, 4, 0]⟩) (by decide +kernel) rfl

def pairTree : FileTree :=
  ⟨[(["little.npy"], .file pair.little), (["big.npy"], .file pair.big)], []⟩

open scoped Platform.Release

theorem byte_order_immaterial_pair :
    pair.Readable ∧
      (∃ a b, NpyArray.read pair.little = .ok a ∧ NpyArray.read pair.big = .ok b ∧
        a.data = [2, 1, 7, 0] ∧ b.data = a.data ∧ b.values (.uint .two) = .ok [258, 7]) ∧
      (Emits (.uint .two) ⟨"little.npy"⟩ (.uint ⟨16, by decide, by decide⟩) ⟨false, 1, 1⟩ pairTree
        (.ok ()) [⟨32, [0x70102]⟩] ∧
      Emits (.uint .two) ⟨"big.npy"⟩ (.uint ⟨16, by decide, by decide⟩) ⟨false, 1, 1⟩ pairTree
        (.ok ()) [⟨32, [0x70102]⟩]) ∧
      ¬emptyPair.Readable ∧ ∃ fault, NpyArray.read emptyPair.little = .error (.format fault) ∧
        NpyArray.read emptyPair.big = .error (.format fault) := by
  have hreadable : pair.Readable := ⟨rfl, Header.not_overruns_of_filled (by decide), by decide⟩
  have hrefused : ¬emptyPair.Readable := fun h => h.2.1 ⟨2, by decide⟩
  have hlittle : pairTree.read ⟨"little.npy"⟩ = .ok pair.little :=
    FileTree.read_eq_ok_iff.mpr ⟨["little.npy"], ⟨rfl, by decide⟩, rfl⟩
  have hbig : pairTree.read ⟨"big.npy"⟩ = .ok pair.big :=
    FileTree.read_eq_ok_iff.mpr ⟨["big.npy"], ⟨rfl, by decide⟩, rfl⟩
  obtain ⟨hread, -, hpacked⟩ := byte_order_immaterial pair
  obtain ⟨a, b, ha, hb, hdata, hsame, -, hvalues, -⟩ := hread hreadable
  refine ⟨hreadable, ⟨a, b, ha, hb, hdata, hsame, hvalues⟩, ?_, hrefused,
    (byte_order_immaterial emptyPair).2.1 hrefused⟩
  exact (hpacked hlittle hbig _ _).2 hreadable
    ⟨[2], [258, 7], by decide, rfl, by decide, by decide⟩ rfl rfl
    [⟨32, [0x70102]⟩] (by decide)

/-- Files of an array of no values are refused in either order. -/
theorem empty_array_refused_in_both_orders :
    emptyPair.values.length = [9223372036854775808, 4, 0].prod ∧ emptyPair.fortranOrder = false ∧
      NpyArray.read emptyPair.little =
        .error (.format (.countOverflow [9223372036854775808, 4, 0])) ∧
      NpyArray.read emptyPair.big =
        .error (.format (.countOverflow [9223372036854775808, 4, 0])) := by
  have hlength : (emptyPair.header false).dataLength =
      .error (.format (.countOverflow [9223372036854775808, 4, 0])) :=
    Header.dataLength_of_overruns ⟨2, by decide⟩
  refine ⟨rfl, rfl, ?_, ?_⟩
  · rw [emptyPair.read_little, hlength]
    rfl
  · rw [emptyPair.read_big, hlength]
    rfl

end Bitpack.OrderTwins
