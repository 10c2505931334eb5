import Bitpack.Proofs.Npy.Array

/-!
How far an array reaches into its file. The length of the literal and the size of the data say where
the array ends: a file that breaks off earlier is refused, and what stands behind the end is never seen.
-/
namespace Bitpack

namespace Npy.Header

/-- Where the literal of a file ends, as the length in front of it declares. -/
def literalEnd (bytes : Bytes) : Nat :=
  let size := if (bytes.drop 6).take 2 = [1, 0] then 2 else 4
  8 + size + Bytes.toNat ((bytes.drop 8).take size)

theorem literalEnd_eq {version count : Bytes} {size : Nat} (hversion : Version version size)
    (hcount : count.length = size) (tail : Bytes) :
    literalEnd (magic ++ (version ++ (count ++ tail))) = 8 + size + count.toNat := by
  obtain ⟨-, -, hversionAt, hcountAt, -⟩ := fields_at hversion hcount tail
  unfold literalEnd
  dsimp only
  rw [hversionAt, hversion.size_eq, hcountAt]

theorem eq_append_of_split {bytes literal rest : Bytes} (hsplit : split bytes = .ok (literal, rest)) :
    ∃ start : Bytes, start.length = literalEnd bytes ∧ bytes = start ++ rest ∧
      ∀ more, split (start ++ more) = .ok (literal, more) ∧
        literalEnd (start ++ more) = literalEnd bytes := by
  obtain ⟨version, size, count, hversion, hcount, hnumber, rfl⟩ := split_eq_ok_iff.mp hsplit
  have hassoc : ∀ more, magic ++ (version ++ (count ++ literal)) ++ more =
      magic ++ (version ++ (count ++ (literal ++ more))) := by
    intro more
    simp only [List.append_assoc]
  refine ⟨magic ++ (version ++ (count ++ literal)), ?_, (hassoc rest).symm, fun more => ?_⟩
  · rw [literalEnd_eq hversion hcount, List.length_append, List.length_append, List.length_append,
      hversion.length_eq, hcount, hnumber, show magic.length = 6 from rfl]
    omega
  · rw [hassoc]
    refine ⟨split_eq_ok_iff.mpr ⟨version, size, count, hversion, hcount, hnumber, rfl⟩, ?_⟩
    rw [literalEnd_eq hversion hcount, literalEnd_eq hversion hcount]

theorem eq_append_of_read {bytes rest : Bytes} {h : Header} (hread : read bytes = .ok (h, rest)) :
    ∃ start : Bytes, start.length = literalEnd bytes ∧ bytes = start ++ rest ∧
      ∀ more, read (start ++ more) = .ok (h, more) ∧
        literalEnd (start ++ more) = literalEnd bytes := by
  obtain ⟨literal, fields, hsplit, hfields, hmade⟩ := read_eq_ok_iff.mp hread
  obtain ⟨start, hlength, hbytes, hmore⟩ := eq_append_of_split hsplit
  exact ⟨start, hlength, hbytes, fun more =>
    ⟨read_eq_ok_iff.mpr ⟨literal, fields, (hmore more).1, hfields, hmade⟩, (hmore more).2⟩⟩

end Npy.Header

namespace NpyArray

open Npy (Header)

/-- Where an array ends in its file. -/
def fileEnd (bytes : Bytes) (a : NpyArray) : Nat :=
  Header.literalEnd bytes + a.shape.prod * a.wordSize

theorem eq_append_of_read {bytes : Bytes} {a : NpyArray} (hread : read bytes = .ok a) :
    ∃ start rest : Bytes, start.length = fileEnd bytes a ∧ bytes = start ++ rest ∧
      ∀ more, read (start ++ more) = .ok a ∧ fileEnd (start ++ more) a = fileEnd bytes a := by
  obtain ⟨rest, length, hheader, horder, hdtype, hlength, hrest, hdata⟩ := read_eq_ok_iff.mp hread
  obtain ⟨start, hstart, hbytes, hmore⟩ := Header.eq_append_of_read hheader
  have hsize : length = a.shape.prod * a.wordSize := (Header.dataLength_eq_ok_iff.mp hlength).2.2
  have htake : (rest.take length).length = length := List.length_take_of_le hrest
  refine ⟨start ++ rest.take length, rest.drop length, ?_, ?_, fun more => ?_⟩
  · rw [List.length_append, hstart, htake, fileEnd, hsize]
  · rw [List.append_assoc, List.take_append_drop, hbytes]
  · rw [List.append_assoc]
    obtain ⟨hheader', hend⟩ := hmore (rest.take length ++ more)
    refine ⟨read_eq_ok_iff.mpr ⟨_, length, hheader', horder, hdtype, hlength, ?_, ?_⟩, ?_⟩
    · rw [List.length_append, htake]
      exact Nat.le_add_right _ _
    · rw [List.take_left' htake, hdata]
    · rw [fileEnd, hend, fileEnd]

/-- An accepted file has one exact extent, from its start over the literal and the data. Every file
with the same bytes up to there holds the same array, and every part of them that is shorter is
refused. -/
theorem read_extent {bytes : Bytes} {a : NpyArray} (hread : read bytes = .ok a) :
    ∃ extent, extent = Header.literalEnd bytes + a.shape.prod * a.wordSize ∧
      extent ≤ bytes.length ∧
      (∀ other : Bytes, bytes.take extent <+: other → read other = .ok a) ∧
      ∀ part : Bytes, part <+: bytes.take extent → part ≠ bytes.take extent →
        ∃ e, read part = .error e := by
  obtain ⟨start, rest, hstart, hbytes, hmore⟩ := eq_append_of_read hread
  have htake : bytes.take (fileEnd bytes a) = start :=
    (congrArg (List.take _) hbytes).trans (List.take_left' hstart)
  refine ⟨fileEnd bytes a, rfl, ?_, ?_, ?_⟩
  · have hlength := congrArg List.length hbytes
    rw [List.length_append] at hlength
    omega
  · rintro other ⟨more, rfl⟩
    rw [htake]
    exact (hmore more).1
  · rintro part ⟨tail, htail⟩ hne
    rw [htake] at htail hne
    cases hpart : read part with
    | error e => exact ⟨e, rfl⟩
    | ok b =>
        -- The whole file begins with an array that the part holds, so that both end at the same place.
        exfalso
        obtain ⟨start', rest', hstart', hpartEq, hmore'⟩ := eq_append_of_read hpart
        have hwhole : bytes = start' ++ (rest' ++ (tail ++ rest)) := by
          rw [hbytes, ← htail, hpartEq]
          simp only [List.append_assoc]
        obtain ⟨hreadWhole, hend⟩ := hmore' (rest' ++ (tail ++ rest))
        rw [← hwhole] at hreadWhole hend
        cases hread.symm.trans hreadWhole
        have hlength : part.length + tail.length = start.length := by
          rw [← List.length_append, htail]
        have hpartLength : part.length = start'.length + rest'.length := by
          rw [← List.length_append, ← hpartEq]
        rw [hstart, hend, ← hstart'] at hlength
        have hnil : tail = [] := List.eq_nil_of_length_eq_zero (by omega)
        exact hne (by rw [← htail, hnil, List.append_nil])

theorem read_extent_big_endian :
    read bigEndianFile = .ok bigEndianArray ∧ bigEndianFile.length = 73 ∧
      read (bigEndianFile.take 72 ++ [0, 0]) = .ok bigEndianArray ∧
      ∃ e, read (bigEndianFile.take 71) = .error e := by
  have hread : read bigEndianFile = .ok bigEndianArray := by decide +kernel
  have hsize : Header.literalEnd bigEndianFile + 2 * 2 = 72 := by decide +kernel
  obtain ⟨extent, hextent, -, hmore, hless⟩ := read_extent hread
  cases hextent.trans hsize
  refine ⟨hread, by decide +kernel, hmore _ (List.prefix_append _ _), hless _ ?_ ?_⟩
  · exact ⟨(bigEndianFile.take 72).drop 71, by decide +kernel⟩
  · decide +kernel

end NpyArray

end Bitpack
