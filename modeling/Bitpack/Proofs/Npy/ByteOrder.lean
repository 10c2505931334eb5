import Bitpack.Proofs.Npy.Array
import Bitpack.Proofs.Npy.HeaderOrder

/-!
Files of the same values that differ only in the order of their bytes: what is read from them differs
only in the order that the header names.
-/
namespace Bitpack

def Scalar.toBigEndian {d : Dtype} (x : Scalar d) : Bytes :=
  x.toLittleEndian.reverse

namespace NpyArray

open Npy (Header Descr)

theorem length_toBigEndian {d : Dtype} (x : Scalar d) : x.toBigEndian.length = d.bytes := by
  rw [Scalar.toBigEndian, List.length_reverse, length_toLittleEndian_scalar]

theorem length_flatMap_toBigEndian {d : Dtype} (values : List (Scalar d)) :
    (values.flatMap Scalar.toBigEndian).length = values.length * d.bytes :=
  Bytes.length_flatMap_pieces length_toBigEndian values

theorem toLittleEndian_flatMap_toBigEndian {descr : Descr} {d : Dtype}
    (horder : descr.bigEndian = true) (hsize : descr.wordSize = d.bytes) (values : List (Scalar d)) :
    toLittleEndian descr (values.flatMap Scalar.toBigEndian) =
      values.flatMap Scalar.toLittleEndian := by
  have hreverse : ∀ x : Scalar d, x.toBigEndian.reverse = x.toLittleEndian :=
    fun x => List.reverse_reverse _
  rw [toLittleEndian, if_pos horder, hsize,
    Bytes.chunks_flatMap d.bytes_pos length_toBigEndian, List.flatMap_map]
  exact congrArg (fun f => values.flatMap f) (funext hreverse)

theorem read_of_length {bytes data : Bytes} {h : Header} {d : Dtype}
    (hheader : Header.read bytes = .ok (h, data)) (hdtype : h.descr.dtype = .ok d)
    (hlength : data.length = h.shape.prod * h.descr.wordSize) :
    read bytes =
      if h.fortranOrder then .error (.format .fortranOrder)
      else h.dataLength.map fun _ => ⟨h, toLittleEndian h.descr data⟩ := by
  unfold read
  rw [hheader]
  change (if h.fortranOrder then _ else _) = _
  split
  · rfl
  rw [hdtype]
  change h.dataLength >>= _ = _
  cases hsize : h.dataLength with
  | error fault => rfl
  | ok length =>
      have hexact : length = data.length :=
        (Header.dataLength_eq_ok_iff.mp hsize).2.2.trans hlength.symm
      change (if data.length < length then _ else _) = _
      rw [if_neg (by omega), hexact, List.take_length]
      rfl

end NpyArray

/-- Two files of the same values that differ in the order mark of their type and in the order of the
bytes of their values. The text of the header may be any text that is read, and the mark in it is the
one that is read as the order. -/
structure OrderTwins (d : Dtype) (shape : List Nat) where
  frame : Npy.Header.Frame
  front : List Char
  back : List Char
  fortranOrder : Bool
  values : List (Scalar d)
  length_values : values.length = shape.prod
  header_little : Npy.Header.read (frame.file (front ++ '<' :: back) []) =
    .ok (⟨⟨d.kind, d.bytes, false⟩, fortranOrder, shape⟩, [])
  order_big : ∀ h, Npy.Header.read (frame.file (front ++ '>' :: back) []) = .ok (h, []) →
    h.descr.bigEndian = true

namespace OrderTwins

open Npy (Header Descr)

variable {d : Dtype} {shape : List Nat} (twins : OrderTwins d shape)

def little : Bytes :=
  twins.frame.file (twins.front ++ '<' :: twins.back) (twins.values.flatMap Scalar.toLittleEndian)

def big : Bytes :=
  twins.frame.file (twins.front ++ '>' :: twins.back) (twins.values.flatMap Scalar.toBigEndian)

def header (bigEndian : Bool) : Header :=
  ⟨⟨d.kind, d.bytes, bigEndian⟩, twins.fortranOrder, shape⟩

def array (bigEndian : Bool) : NpyArray :=
  ⟨twins.header bigEndian, twins.values.flatMap Scalar.toLittleEndian⟩

theorem read_header_big : Header.read (twins.frame.file (twins.front ++ '>' :: twins.back) []) =
    .ok (twins.header true, []) := by
  have hblur : (twins.front ++ '>' :: twins.back).map Npy.blur =
      (twins.front ++ '<' :: twins.back).map Npy.blur := by
    rw [List.map_append, List.map_append, List.map_cons, List.map_cons]
    rfl
  obtain ⟨bigEndian, hread⟩ := Header.Frame.read_file_of_map_blur twins.header_little hblur
  have horder : bigEndian = true := twins.order_big _ hread
  rw [hread, horder]
  rfl

theorem dtype_header (bigEndian : Bool) : (twins.header bigEndian).descr.dtype = .ok d := by
  rcases d with size | size | format
  · cases size <;> rfl
  · cases size <;> rfl
  · cases format <;> rfl

theorem read_little : NpyArray.read twins.little =
    if twins.fortranOrder then .error (.format .fortranOrder)
    else (twins.header false).dataLength.map fun _ => twins.array false := by
  have hlength : (twins.values.flatMap Scalar.toLittleEndian).length = shape.prod * d.bytes := by
    rw [NpyArray.length_flatMap_toLittleEndian, twins.length_values]
  exact NpyArray.read_of_length (Header.Frame.read_file twins.header_little _)
    (twins.dtype_header false) hlength

theorem read_big : NpyArray.read twins.big =
    if twins.fortranOrder then .error (.format .fortranOrder)
    else (twins.header false).dataLength.map fun _ => twins.array true := by
  have hlength : (twins.values.flatMap Scalar.toBigEndian).length = shape.prod * d.bytes := by
    rw [NpyArray.length_flatMap_toBigEndian, twins.length_values]
  have hdata : NpyArray.toLittleEndian (twins.header true).descr
      (twins.values.flatMap Scalar.toBigEndian) = twins.values.flatMap Scalar.toLittleEndian :=
    NpyArray.toLittleEndian_flatMap_toBigEndian rfl rfl twins.values
  have hread := NpyArray.read_of_length (Header.Frame.read_file twins.read_header_big _)
    (twins.dtype_header true) hlength
  rw [hdata] at hread
  exact hread

/-- Every shape of values of more than one byte has such files: one as it is written, and the same one
in big-endian order. -/
theorem exists_written {d : Dtype} {shape : List Nat} (hwide : 1 < d.bytes)
    (hdims : ∀ n ∈ shape, n < Size.limit) (hstorable : Header.Storable d shape)
    {values : List (Scalar d)} (hvalues : values.length = shape.prod) :
    ∃ twins : OrderTwins d shape, twins.values = values ∧ twins.fortranOrder = false ∧
      twins.little = Header.write d shape ++ values.flatMap Scalar.toLittleEndian := by
  obtain ⟨version, size, start, literal, hversion, rfl, -, hwrite⟩ := Header.write_eq hstorable
  obtain ⟨front, back, htext⟩ := Header.exists_padded_eq start (d.kind :: Text.digits d.bytes) shape
  obtain ⟨type, htype, hdescr, hplain⟩ := Header.parse_bigEndian hwide
  have hlittle : (Descr.ofDtype d).chars = '<' :: d.kind :: Text.digits d.bytes := by
    rw [Descr.chars, Descr.ofDtype, if_neg (Nat.ne_of_gt hwide)]
    rfl
  have hbig : Descr.chars ⟨d.kind, d.bytes, true⟩ = '>' :: d.kind :: Text.digits d.bytes := by
    rw [Descr.chars, if_neg (Nat.ne_of_gt hwide)]
    rfl
  rw [hlittle, htext] at hwrite
  let frame : Header.Frame := {
    version := version
    count := Bytes.ofNat size (Bytes.ofText (String.ofList (front ++ '<' :: back))).length
    size := size
    known := hversion
    length_count := Bytes.length_ofNat size _ }
  have hfile : ∀ rest, frame.file (front ++ '<' :: back) rest = Header.write d shape ++ rest := by
    intro rest
    rw [hwrite, Header.Frame.file]
    simp only [frame, List.append_assoc]
  refine ⟨⟨frame, front, back, false, values, hvalues, ?_, ?_⟩, rfl, rfl, hfile _⟩
  · rw [hfile]
    exact Header.read_write hdims hstorable []
  · intro h hread
    obtain ⟨fields, hfields, hmade⟩ :=
      Header.ofBytes?_padded_of_parse? htype hdescr (List.cons_ne_nil _ _) hplain hdims start
    rw [hbig, htext] at hfields
    obtain ⟨-, other, hfields', hdescr'⟩ := Header.Frame.read_file_iff.mp hread
    rw [hfields, Option.some_inj] at hfields'
    have hheader : Header.ofFields fields = .ok h :=
      Header.ofFields_eq_ok_iff.mpr ⟨other, hfields', hdescr'⟩
    cases hmade.symm.trans hheader
    rfl

end OrderTwins

end Bitpack
