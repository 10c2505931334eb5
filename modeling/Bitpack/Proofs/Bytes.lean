import Bitpack.Bytes

/-!
Numbers, texts and rows of equal pieces come back from their bytes.
-/
namespace Bitpack.Bytes

@[simp] theorem length_ofNat (count n : Nat) : (ofNat count n).length = count := by
  induction count generalizing n with
  | zero => rfl
  | succ count ih => rw [ofNat, List.length_cons, ih]

theorem toNat_ofNat (count n : Nat) : toNat (ofNat count n) = n % 256 ^ count := by
  induction count generalizing n with
  | zero => rw [Nat.pow_zero, Nat.mod_one]; rfl
  | succ count ih =>
      have hbyte : (UInt8.ofNat n).toNat = n % 256 := UInt8.toNat_ofNat'
      rw [ofNat, toNat, ih, hbyte, Nat.pow_succ', Nat.mod_mul]

theorem toNat_ofNat_of_lt {count n : Nat} (h : n < 256 ^ count) : toNat (ofNat count n) = n := by
  rw [toNat_ofNat, Nat.mod_eq_of_lt h]

theorem toNat_lt (bytes : Bytes) : bytes.toNat < 256 ^ bytes.length := by
  induction bytes with
  | nil => exact Nat.one_pos
  | cons byte rest ih =>
      have hbyte : byte.toNat < 256 := byte.toNat_lt
      rw [toNat, List.length_cons, Nat.pow_succ']
      omega

theorem ofNat_toNat (bytes : Bytes) : ofNat bytes.length bytes.toNat = bytes := by
  induction bytes with
  | nil => rfl
  | cons byte rest ih =>
      have hbyte : byte.toNat < 256 := byte.toNat_lt
      have hlow : UInt8.ofNat (byte.toNat + 256 * toNat rest) = byte := by
        apply UInt8.toNat_inj.mp
        rw [UInt8.toNat_ofNat']
        omega
      have hhigh : (byte.toNat + 256 * toNat rest) / 256 = toNat rest := by omega
      rw [toNat, List.length_cons, ofNat, hlow, hhigh, ih]

theorem toText?_ofText (text : String) : toText? (ofText text) = some text := by
  have hbytes : (⟨(ofText text).toArray⟩ : ByteArray) = text.toByteArray := by
    rw [ofText, Array.toArray_toList]
    rfl
  unfold toText? String.fromUTF8?
  rw [hbytes, dif_pos text.isValidUTF8]
  rfl

theorem length_ofText_ofList {text : List Char} (hascii : ∀ c ∈ text, c.toNat < 128) :
    (ofText (String.ofList text)).length = text.length := by
  change (String.ofList text).utf8ByteSize = text.length
  induction text with
  | nil => rfl
  | cons c rest ih =>
      have hc : c.utf8Size = 1 :=
        Char.utf8Size_eq_one_iff.mpr (Nat.le_of_lt_succ (hascii c List.mem_cons_self))
      rw [String.ofList_cons, String.utf8ByteSize_append, String.utf8ByteSize_singleton, hc,
        ih fun other hother => hascii other (List.mem_cons_of_mem _ hother), List.length_cons,
        Nat.add_comm]

theorem chunks_of_lt {size : Nat} {bytes : Bytes} (h : bytes.length < size) :
    chunks size bytes = [] := by
  unfold chunks
  rw [dif_neg (by omega)]

theorem chunks_append {size : Nat} {piece : Bytes} (hpos : 0 < size) (hpiece : piece.length = size)
    (rest : Bytes) : chunks size (piece ++ rest) = piece :: chunks size rest := by
  rw [chunks, dif_pos ⟨hpos, by rw [List.length_append]; omega⟩, List.take_left' hpiece,
    List.drop_left' hpiece]

theorem chunks_flatMap {α : Type} {size : Nat} (hpos : 0 < size) {f : α → Bytes}
    (hlength : ∀ a, (f a).length = size) (items : List α) :
    chunks size (items.flatMap f) = items.map f := by
  induction items with
  | nil => exact chunks_of_lt hpos
  | cons a rest ih => rw [List.flatMap_cons, chunks_append hpos (hlength a), ih, List.map_cons]

theorem length_flatMap_pieces {α : Type} {size : Nat} {f : α → Bytes}
    (hlength : ∀ a, (f a).length = size) (items : List α) :
    (items.flatMap f).length = items.length * size := by
  induction items with
  | nil => exact (Nat.zero_mul size).symm
  | cons a rest ih =>
      rw [List.flatMap_cons, List.length_append, ih, hlength, List.length_cons, Nat.succ_mul,
        Nat.add_comm]

theorem length_chunks {size : Nat} (hpos : 0 < size) (bytes : Bytes) :
    (chunks size bytes).length = bytes.length / size := by
  induction hn : bytes.length using Nat.strongRecOn generalizing bytes with
  | ind n ih =>
      by_cases h : size ≤ bytes.length
      · have hdrop := ih (n - size) (by omega) (bytes.drop size) (by rw [List.length_drop, hn])
        rw [chunks, dif_pos ⟨hpos, h⟩, List.length_cons, hdrop,
          Nat.div_eq n size, if_pos ⟨hpos, by omega⟩]
      · rw [chunks_of_lt (by omega), Nat.div_eq_of_lt (by omega)]
        rfl

theorem length_of_mem_chunks {size : Nat} {bytes piece : Bytes} (hpiece : piece ∈ chunks size bytes) :
    piece.length = size := by
  induction hn : bytes.length using Nat.strongRecOn generalizing bytes with
  | ind n ih =>
      unfold chunks at hpiece
      split at hpiece
      · rename_i h
        rcases List.mem_cons.mp hpiece with rfl | hrest
        · exact List.length_take_of_le h.2
        · exact ih (n - size) (by omega) hrest (by rw [List.length_drop, hn])
      · cases hpiece

theorem length_flatMap_reverse (pieces : List Bytes) :
    (pieces.flatMap List.reverse).length = pieces.flatten.length := by
  induction pieces with
  | nil => rfl
  | cons piece rest ih =>
      rw [List.flatMap_cons, List.flatten_cons, List.length_append, List.length_append, ih,
        List.length_reverse]

theorem flatten_chunks {size count : Nat} (hpos : 0 < size) {bytes : Bytes}
    (hlength : bytes.length = count * size) : (chunks size bytes).flatten = bytes := by
  induction count generalizing bytes with
  | zero =>
      rw [Nat.zero_mul] at hlength
      rw [chunks_of_lt (by omega), List.eq_nil_of_length_eq_zero hlength]
      rfl
  | succ count ih =>
      rw [Nat.succ_mul] at hlength
      have hdrop := ih (by rw [List.length_drop, hlength, Nat.add_sub_cancel])
      rw [chunks, dif_pos ⟨hpos, by omega⟩, List.flatten_cons, hdrop, List.take_append_drop]

end Bitpack.Bytes
