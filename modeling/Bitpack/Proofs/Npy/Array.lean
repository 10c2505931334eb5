import Bitpack.Npy.Array
import Bitpack.Proofs.Npy.Header
import Bitpack.Proofs.Size

/-!
Arrays of files: what holds of every array that was read, and the array that a written one is read as.
-/
namespace Bitpack

theorem Dtype.mem_all (d : Dtype) : d ∈ Dtype.all := by
  rcases d with size | size | format
  · cases size <;> decide
  · cases size <;> decide
  · cases format <;> decide

namespace Npy

theorem Header.elementCount_of_lt {shape : List Nat}
    (hfits : ∀ k, (shape.take k).prod < Size.limit) :
    Header.elementCount shape = .ok shape.prod := by
  unfold elementCount
  rw [Size.foldlM_checkedMul_of_lt fun k => (Nat.one_mul _).symm ▸ hfits k, Nat.one_mul]

theorem Header.elementCount_eq {shape : List Nat} {count : Nat}
    (hcount : Header.elementCount shape = .ok count) : count = shape.prod := by
  unfold elementCount at hcount
  split at hcount
  · rename_i hfold
    cases hcount
    rw [Size.foldlM_checkedMul hfold, Nat.one_mul]
  · cases hcount

theorem Header.fits_of_elementCount {shape : List Nat} {count : Nat}
    (hcount : Header.elementCount shape = .ok count) : Size.Fits shape := by
  unfold elementCount at hcount
  split at hcount
  · rename_i hfold
    intro k _
    have hfits := Size.fits_of_foldlM_checkedMul (by decide) hfold k
    rwa [Nat.one_mul] at hfits
  · cases hcount

theorem Header.dataLength_eq_ok_iff {h : Header} {length : Nat} :
    h.dataLength = .ok length ↔
      elementCount h.shape = .ok h.shape.prod ∧ h.shape.prod * h.descr.wordSize < Size.limit ∧
        length = h.shape.prod * h.descr.wordSize := by
  unfold dataLength valueCount
  rw [bind_eq_ok_iff]
  constructor
  · rintro ⟨count, hcount, hlength⟩
    have hprod := elementCount_eq hcount
    subst hprod
    cases hsize : Size.checkedMul h.shape.prod h.descr.wordSize with
    | none =>
        rw [hsize] at hlength
        cases hlength
    | some size =>
        rw [hsize] at hlength
        cases hlength
        exact ⟨hcount, Size.checkedMul_eq_some_iff.mp hsize⟩
  · rintro ⟨hcount, hsize⟩
    refine ⟨_, hcount, ?_⟩
    rw [Size.checkedMul_eq_some_iff.mpr hsize]

theorem Descr.dtype_ofDtype (d : Dtype) : (Descr.ofDtype d).dtype = .ok d := by
  rcases d with size | size | format
  · cases size <;> rfl
  · cases size <;> rfl
  · cases format <;> rfl

theorem Descr.eq_of_dtype {descr : Descr} {d : Dtype} (hdtype : descr.dtype = .ok d) :
    descr.kind = d.kind ∧ descr.wordSize = d.bytes := by
  unfold dtype at hdtype
  split at hdtype
  · rename_i found hfound
    cases hdtype
    have hmatch := List.find?_some hfound
    rw [Bool.and_eq_true, beq_iff_eq, beq_iff_eq] at hmatch
    exact ⟨hmatch.1.symm, hmatch.2.symm⟩
  · cases hdtype

end Npy

namespace NpyArray

open Npy (Header Descr)

theorem ofLittleEndian_toLittleEndian {d : Dtype} (x : Scalar d) :
    Scalar.ofLittleEndian d x.toLittleEndian = x := by
  have hlt : x.toNat < 256 ^ d.bytes := by
    rw [show 256 = 2 ^ 8 from rfl, ← Nat.pow_mul]
    exact x.isLt
  unfold Scalar.ofLittleEndian Scalar.toLittleEndian
  rw [Bytes.toNat_ofNat_of_lt hlt, BitVec.ofNat_toNat, BitVec.setWidth_eq]

theorem toLittleEndian_ofLittleEndian {d : Dtype} {bytes : Bytes} (hlength : bytes.length = d.bytes) :
    (Scalar.ofLittleEndian d bytes).toLittleEndian = bytes := by
  have hlt : bytes.toNat < 2 ^ d.width := by
    rw [Nat.pow_mul, ← hlength]
    exact bytes.toNat_lt
  unfold Scalar.ofLittleEndian Scalar.toLittleEndian
  rw [BitVec.toNat_ofNat, Nat.mod_eq_of_lt hlt, ← hlength, Bytes.ofNat_toNat]

theorem length_toLittleEndian_scalar {d : Dtype} (x : Scalar d) :
    x.toLittleEndian.length = d.bytes :=
  Bytes.length_ofNat _ _

/-- What holds of the array of an accepted file. -/
structure Loaded (a : NpyArray) : Prop where
  rowMajor : a.header.fortranOrder = false
  dims_lt : ∀ n ∈ a.shape, n < Size.limit
  dtype_ok : ∃ d, a.dtype = .ok d
  elementCount_ok : Header.elementCount a.shape = .ok a.shape.prod
  size_lt : a.shape.prod * a.wordSize < Size.limit
  length_data : a.data.length = a.shape.prod * a.wordSize

theorem length_toLittleEndian {descr : Descr} {data : Bytes} {count : Nat}
    (hpos : 0 < descr.wordSize) (hlength : data.length = count * descr.wordSize) :
    (toLittleEndian descr data).length = data.length := by
  unfold toLittleEndian
  split
  · rw [Bytes.length_flatMap_reverse, Bytes.flatten_chunks hpos hlength]
  · rfl

theorem read_eq_ok_iff {bytes : Bytes} {a : NpyArray} :
    read bytes = .ok a ↔
      ∃ rest length, Header.read bytes = .ok (a.header, rest) ∧ a.header.fortranOrder = false ∧
        (∃ d, a.dtype = .ok d) ∧ a.header.dataLength = .ok length ∧ length ≤ rest.length ∧
        a.data = toLittleEndian a.header.descr (rest.take length) := by
  unfold read
  rw [bind_eq_ok_iff]
  constructor
  · rintro ⟨⟨header, rest⟩, hheader, hread⟩
    dsimp only at hread
    split at hread
    · cases hread
    · rename_i horder
      obtain ⟨d, hdtype, hread⟩ := bind_eq_ok_iff.mp hread
      obtain ⟨length, hlength, hread⟩ := bind_eq_ok_iff.mp hread
      split at hread
      · cases hread
      · rename_i hrest
        cases hread
        exact ⟨rest, length, hheader, Bool.eq_false_iff.mpr horder, ⟨d, hdtype⟩, hlength,
          Nat.le_of_not_lt hrest, rfl⟩
  · rintro ⟨rest, length, hheader, horder, ⟨d, hdtype⟩, hlength, hrest, hdata⟩
    refine ⟨(a.header, rest), hheader, ?_⟩
    dsimp only
    rw [if_neg (by rw [horder]; exact Bool.false_ne_true)]
    refine bind_eq_ok_iff.mpr ⟨d, hdtype, bind_eq_ok_iff.mpr ⟨length, hlength, ?_⟩⟩
    rw [if_neg (Nat.not_lt_of_le hrest), ← hdata]
    rfl

theorem loaded_of_read {bytes : Bytes} {a : NpyArray} (hread : read bytes = .ok a) : a.Loaded := by
  obtain ⟨rest, length, hheader, horder, ⟨d, hdtype⟩, hlength, hrest, hdata⟩ :=
    read_eq_ok_iff.mp hread
  obtain ⟨hcount, hsize, hlength⟩ := Header.dataLength_eq_ok_iff.mp hlength
  have hpos : 0 < a.header.descr.wordSize := by
    rw [(Descr.eq_of_dtype hdtype).2]
    exact d.bytes_pos
  have htake : (rest.take length).length = a.header.shape.prod * a.header.descr.wordSize := by
    rw [List.length_take, ← hlength]
    omega
  exact {
    rowMajor := horder
    dims_lt := Header.shape_lt_of_read hheader
    dtype_ok := ⟨d, hdtype⟩
    elementCount_ok := hcount
    size_lt := hsize
    length_data := hdata ▸ (length_toLittleEndian hpos htake).trans htake }

namespace Loaded

variable {a : NpyArray} (ha : a.Loaded)

include ha

theorem wordSize_pos : 0 < a.wordSize := by
  obtain ⟨d, hdtype⟩ := ha.dtype_ok
  rw [wordSize, (Descr.eq_of_dtype hdtype).2]
  exact d.bytes_pos

theorem valueCount_eq : a.valueCount = a.shape.prod := by
  rw [valueCount, ha.length_data, Nat.mul_div_cancel _ ha.wordSize_pos]

theorem dataLength_eq : a.header.dataLength = .ok a.data.length :=
  Header.dataLength_eq_ok_iff.mpr ⟨ha.elementCount_ok, ha.size_lt, ha.length_data⟩

theorem flatMap_values {d : Dtype} (hwidth : a.wordSize = d.bytes) :
    ((a.data.chunks d.bytes).map (Scalar.ofLittleEndian d)).flatMap Scalar.toLittleEndian =
      a.data := by
  have hpieces : ∀ piece ∈ a.data.chunks d.bytes,
      (Scalar.toLittleEndian ∘ Scalar.ofLittleEndian d) piece = id piece :=
    fun piece hpiece => toLittleEndian_ofLittleEndian (Bytes.length_of_mem_chunks hpiece)
  rw [List.flatMap_def, List.map_map, List.map_congr_left hpieces, List.map_id]
  exact Bytes.flatten_chunks d.bytes_pos (hwidth ▸ ha.length_data)

end Loaded

theorem Loaded.values_ok {a : NpyArray} (ha : a.Loaded) {d : Dtype} (hwidth : a.wordSize = d.bytes) :
    ∃ values, a.values d = .ok values ∧ values.length = a.shape.prod := by
  refine ⟨_, if_neg fun hne => hne hwidth, ?_⟩
  rw [List.length_map, Bytes.length_chunks d.bytes_pos, ha.length_data, hwidth,
    Nat.mul_div_cancel _ d.bytes_pos]

theorem Loaded.eq_of_values {a : NpyArray} (ha : a.Loaded) {d : Dtype} {values : List (Scalar d)}
    (hvalues : a.values d = .ok values) :
    a.wordSize = d.bytes ∧ values.flatMap Scalar.toLittleEndian = a.data := by
  unfold NpyArray.values at hvalues
  split at hvalues
  · cases hvalues
  · rename_i hwidth
    have hwidth := Decidable.not_not.mp hwidth
    cases hvalues
    exact ⟨hwidth, ha.flatMap_values hwidth⟩

/-- What holds of every array that is read, whatever bytes it comes from. Its values can be read as
exactly those types that have the width of its own, and written again they are its data. -/
theorem loaded_invariant {bytes : Bytes} {a : NpyArray} (hread : read bytes = .ok a) :
    a.header.fortranOrder = false ∧
      (∃ d ∈ Dtype.all, a.dtype = .ok d ∧ a.header.descr.kind = d.kind ∧ a.wordSize = d.bytes) ∧
      0 < a.wordSize ∧ a.header.valueCount = .ok a.shape.prod ∧
      a.shape.prod * a.wordSize < Size.limit ∧ a.data.length = a.shape.prod * a.wordSize ∧
      a.header.dataLength = .ok a.data.length ∧ a.valueCount = a.shape.prod ∧
      ∀ d : Dtype,
        (a.wordSize ≠ d.bytes → a.values d = .error (.sizeMismatch d.bytes a.wordSize)) ∧
        (a.wordSize = d.bytes → ∃ values, a.values d = .ok values ∧
          values.length = a.shape.prod ∧ values.flatMap Scalar.toLittleEndian = a.data) := by
  have ha := loaded_of_read hread
  obtain ⟨own, hown⟩ := ha.dtype_ok
  obtain ⟨hkind, hsize⟩ := Descr.eq_of_dtype hown
  refine ⟨ha.rowMajor, ⟨own, own.mem_all, hown, hkind, hsize⟩, ha.wordSize_pos, ha.elementCount_ok,
    ha.size_lt, ha.length_data, ha.dataLength_eq, ha.valueCount_eq, fun d => ⟨?_, ?_⟩⟩
  · intro hne
    exact if_pos hne
  · intro hwidth
    obtain ⟨values, hvalues, hlength⟩ := ha.values_ok hwidth
    refine ⟨values, hvalues, hlength, ?_⟩
    rw [NpyArray.values, if_neg fun hne => hne hwidth, Except.ok.injEq] at hvalues
    rw [← hvalues]
    exact ha.flatMap_values hwidth

def bigEndianFile : Bytes :=
  Header.magic ++ [1, 0, 58, 0] ++
    Bytes.ofText "\x7b'descr': '>u2', 'fortran_order': False, 'shape': (2,), \x7d\n" ++
    [1, 2, 0, 7, 255]

def bigEndianArray : NpyArray :=
  ⟨⟨⟨'u', 2, true⟩, false, [2]⟩, [2, 1, 7, 0]⟩

theorem loaded_invariant_big_endian :
    read bigEndianFile = .ok bigEndianArray ∧ bigEndianArray.valueCount = 2 ∧
      bigEndianArray.values (.uint .four) = .error (.sizeMismatch 4 2) ∧
      ∃ values, bigEndianArray.values (.float .half) = .ok values ∧ values.length = 2 ∧
        values.flatMap Scalar.toLittleEndian = [2, 1, 7, 0] := by
  have hread : read bigEndianFile = .ok bigEndianArray := by decide +kernel
  obtain ⟨-, -, -, -, -, -, -, hcount, hvalues⟩ := loaded_invariant hread
  exact ⟨hread, hcount, (hvalues (.uint .four)).1 (by decide), (hvalues (.float .half)).2 rfl⟩

/-- The array that a written file is read as. -/
def ofValues {d : Dtype} (shape : List Nat) (values : List (Scalar d)) : NpyArray :=
  ⟨⟨Descr.ofDtype d, false, shape⟩, values.flatMap Scalar.toLittleEndian⟩

theorem values_ofValues {d : Dtype} (shape : List Nat) (values : List (Scalar d)) :
    (ofValues shape values).values d = .ok values := by
  unfold NpyArray.values
  rw [if_neg fun hne => hne rfl]
  refine congrArg Except.ok ?_
  rw [ofValues, Bytes.chunks_flatMap d.bytes_pos length_toLittleEndian_scalar, List.map_map]
  exact List.map_id'' ofLittleEndian_toLittleEndian values

theorem length_flatMap_toLittleEndian {d : Dtype} (values : List (Scalar d)) :
    (values.flatMap Scalar.toLittleEndian).length = values.length * d.bytes :=
  Bytes.length_flatMap_pieces length_toLittleEndian_scalar values

theorem write_eq_ok_iff {d : Dtype} {shape : List Nat} {values : List (Scalar d)} {bytes : Bytes} :
    write shape values = .ok bytes ↔
      Header.elementCount shape = .ok shape.prod ∧ values.length = shape.prod ∧
        bytes = Header.write d shape ++ values.flatMap Scalar.toLittleEndian := by
  unfold write
  rw [bind_eq_ok_iff]
  constructor
  · rintro ⟨count, hcount, hwrite⟩
    have hprod := Header.elementCount_eq hcount
    subst hprod
    split at hwrite
    · cases hwrite
    · rename_i hlength
      cases hwrite
      exact ⟨hcount, (Decidable.not_not.mp hlength).symm, rfl⟩
  · rintro ⟨hcount, hlength, rfl⟩
    exact ⟨_, hcount, if_neg fun hne => hne hlength.symm⟩

theorem write_of_length {d : Dtype} {shape : List Nat} {values : List (Scalar d)}
    (hcount : Header.elementCount shape = .ok shape.prod) (hvalues : values.length = shape.prod) :
    write shape values = .ok (Header.write d shape ++ values.flatMap Scalar.toLittleEndian) :=
  write_eq_ok_iff.mpr ⟨hcount, hvalues, rfl⟩

theorem read_write {d : Dtype} {shape : List Nat} {values : List (Scalar d)}
    (hdims : ∀ n ∈ shape, n < Size.limit) (hstorable : Header.Storable d shape)
    (hcount : Header.elementCount shape = .ok shape.prod) (hvalues : values.length = shape.prod)
    (hsize : shape.prod * d.bytes < Size.limit) :
    read (Header.write d shape ++ values.flatMap Scalar.toLittleEndian) =
      .ok (ofValues shape values) := by
  have hlength : (values.flatMap Scalar.toLittleEndian).length = shape.prod * d.bytes := by
    rw [length_flatMap_toLittleEndian, hvalues]
  refine read_eq_ok_iff.mpr ⟨_, _, Header.read_write hdims hstorable _, rfl,
    ⟨d, Descr.dtype_ofDtype d⟩, Header.dataLength_eq_ok_iff.mpr ⟨hcount, hsize, rfl⟩,
    Nat.le_of_eq hlength.symm, ?_⟩
  change values.flatMap Scalar.toLittleEndian = (values.flatMap Scalar.toLittleEndian).take _
  exact (List.take_of_length_le (Nat.le_of_eq hlength)).symm

/-- Every file that is written with a header of the short form comes back: the shape, the type in
little-endian order and each value, bit for bit. Dimensions and the bytes of all values are numbers
below `2^64`, as sizes in memory are. -/
theorem read_back_written {d : Dtype} {shape : List Nat} {values : List (Scalar d)} {bytes : Bytes}
    (hwrite : write shape values = .ok bytes) (hdims : ∀ n ∈ shape, n < Size.limit)
    (hsize : values.length * d.bytes < Size.limit)
    (hshort : (Header.padded 10 (Header.literalChars (Descr.ofDtype d).chars shape)).length <
      2 ^ 16) :
    ∃ a, read bytes = .ok a ∧ a.shape = shape ∧ a.header.fortranOrder = false ∧
      a.header.descr = ⟨d.kind, d.bytes, false⟩ ∧ a.dtype = .ok d ∧
      a.valueCount = values.length ∧ a.values d = .ok values := by
  obtain ⟨hcount, hlength, rfl⟩ := write_eq_ok_iff.mp hwrite
  have hread := read_write hdims (Header.storable_of_short hshort) hcount hlength (hlength ▸ hsize)
  refine ⟨ofValues shape values, hread, rfl, rfl, rfl, Descr.dtype_ofDtype d, ?_,
    values_ofValues shape values⟩
  rw [(loaded_of_read hread).valueCount_eq, hlength]
  rfl

theorem read_back_written_payload :
    ∃ bytes a, write [] [(0xFE01 : Scalar (.float .half))] = .ok bytes ∧
      (∀ n ∈ ([] : List Nat), n < Size.limit) ∧ 1 * 2 < Size.limit ∧
      (Header.padded 10 (Header.literalChars (Descr.ofDtype (.float .half)).chars [])).length <
        2 ^ 16 ∧
      read bytes = .ok a ∧ a.shape = [] ∧ a.valueCount = 1 ∧
      a.values (.float .half) = .ok [0xFE01] := by
  have hwrite : write [] [(0xFE01 : Scalar (.float .half))] = .ok (Header.write (.float .half) [] ++
      [(0xFE01 : Scalar (.float .half))].flatMap Scalar.toLittleEndian) :=
    write_of_length rfl rfl
  obtain ⟨a, hread, hshape, -, -, -, hcount, hvalues⟩ :=
    read_back_written hwrite (by decide) (by decide) (by decide)
  exact ⟨_, a, hwrite, by decide, by decide, by decide, hread, hshape, hcount, hvalues⟩

end NpyArray

end Bitpack
