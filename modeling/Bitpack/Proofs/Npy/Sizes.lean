import Bitpack.Proofs.Npy.Array

/-!
Sizes that a header declares. They are multiplied up from the first axis, and a product that does not
fit is refused at once, whatever stands behind it: so an array without values can be refused for the
size of its other axes. Everywhere else the sizes are exact, and refused only where they do not fit.
-/
namespace Bitpack.Npy.Header

/-- The outcome that a size calls for: the size itself, or a refusal where it does not fit. -/
def Reports (result : Except Error Nat) (size : Nat) : Prop :=
  if size < Size.limit then result = .ok size else ∃ fault, result = .error (.format fault)

theorem reports_of_lt {result : Except Error Nat} {size : Nat} (hlt : size < Size.limit) :
    Reports result size ↔ result = .ok size := by
  rw [Reports, if_pos hlt]

theorem reports_of_le {fault : FormatFault} {size : Nat} (hle : Size.limit ≤ size) :
    Reports (.error (.format fault)) size := by
  rw [Reports, if_neg (Nat.not_lt_of_le hle)]
  exact ⟨fault, rfl⟩

theorem reports_error_iff {fault : FormatFault} {size : Nat} :
    Reports (.error (.format fault)) size ↔ Size.limit ≤ size := by
  refine ⟨fun hreports => Nat.le_of_not_lt fun hlt => ?_, reports_of_le⟩
  cases (reports_of_lt hlt).mp hreports

/-- Whether the product of some of the first axes does not fit. -/
def Overruns (shape : List Nat) : Prop :=
  ∃ k, Size.limit ≤ (shape.take k).prod

theorem not_overruns_iff {shape : List Nat} :
    ¬Overruns shape ↔ ∀ k, (shape.take k).prod < Size.limit := by
  unfold Overruns
  rw [not_exists]
  exact forall_congr' fun k => Nat.not_le

theorem elementCount_of_overruns {shape : List Nat} (hover : Overruns shape) :
    elementCount shape = .error (.format (.countOverflow shape)) := by
  unfold elementCount
  split
  · rename_i n hfold
    obtain ⟨k, hk⟩ := hover
    have hfits := Size.fits_of_foldlM_checkedMul (by decide) hfold k
    rw [Nat.one_mul] at hfits
    omega
  · rfl

theorem valueCount_of_overruns {h : Header} (hover : Overruns h.shape) :
    h.valueCount = .error (.format (.countOverflow h.shape)) :=
  elementCount_of_overruns hover

theorem dataLength_of_overruns {h : Header} (hover : Overruns h.shape) :
    h.dataLength = .error (.format (.countOverflow h.shape)) := by
  unfold dataLength
  rw [valueCount_of_overruns hover]
  rfl

theorem valueCount_of_not_overruns {h : Header} (hfits : ¬Overruns h.shape) :
    h.valueCount = .ok h.shape.prod :=
  elementCount_of_lt (not_overruns_iff.mp hfits)

theorem dataLength_of_not_overruns {h : Header} (hfits : ¬Overruns h.shape) :
    h.dataLength =
      if h.shape.prod * h.descr.wordSize < Size.limit then .ok (h.shape.prod * h.descr.wordSize)
      else .error (.format (.sizeOverflow h.shape)) := by
  by_cases hlt : h.shape.prod * h.descr.wordSize < Size.limit
  · rw [if_pos hlt]
    exact dataLength_eq_ok_iff.mpr ⟨valueCount_of_not_overruns hfits, hlt, rfl⟩
  · have hnone : Size.checkedMul h.shape.prod h.descr.wordSize = none := if_neg hlt
    rw [if_neg hlt, dataLength, valueCount_of_not_overruns hfits]
    simp only [bind, Except.bind, hnone]

theorem prod_lt_of_not_overruns {shape : List Nat} (hfits : ¬Overruns shape) :
    shape.prod < Size.limit := by
  have hall := not_overruns_iff.mp hfits shape.length
  rwa [List.take_length] at hall

def filled (shape : List Nat) : List Nat :=
  shape.filter (· != 0)

theorem prod_filled_pos (shape : List Nat) : 0 < (filled shape).prod := by
  rw [List.prod_pos_iff_forall_pos_nat]
  intro n hn
  exact Nat.pos_of_ne_zero (bne_iff_ne.mp (List.mem_filter.mp hn).2)

theorem filled_of_zero_not_mem {shape : List Nat} (hzero : 0 ∉ shape) : filled shape = shape := by
  rw [filled, List.filter_eq_self]
  intro n hn
  exact bne_iff_ne.mpr fun heq => hzero (heq ▸ hn)

theorem prod_take_le (shape : List Nat) (k : Nat) : (shape.take k).prod ≤ (filled shape).prod := by
  induction shape generalizing k with
  | nil =>
      rw [List.take_nil]
      exact Nat.le_refl _
  | cons dim rest ih =>
      cases k with
      | zero => exact prod_filled_pos _
      | succ k =>
          rw [List.take_succ_cons, List.prod_cons]
          by_cases hzero : dim = 0
          · rw [hzero, Nat.zero_mul]
            exact Nat.zero_le _
          · have hfilled : filled (dim :: rest) = dim :: filled rest :=
              List.filter_cons_of_pos (bne_iff_ne.mpr hzero)
            rw [hfilled, List.prod_cons]
            exact Nat.mul_le_mul_left dim (ih k)

theorem not_overruns_of_filled {shape : List Nat} (hfits : (filled shape).prod < Size.limit) :
    ¬Overruns shape :=
  not_overruns_iff.mpr fun k => Nat.lt_of_le_of_lt (prod_take_le shape k) hfits

theorem le_prod_of_overruns {shape : List Nat} (hzero : 0 ∉ shape) (hover : Overruns shape) :
    Size.limit ≤ shape.prod := by
  obtain ⟨k, hk⟩ := hover
  have hle := prod_take_le shape k
  rw [filled_of_zero_not_mem hzero] at hle
  exact Nat.le_trans hk hle

theorem prod_eq_zero {shape : List Nat} (hzero : 0 ∈ shape) : shape.prod = 0 :=
  List.prod_eq_zero_iff_exists_zero_nat.mpr ⟨0, hzero, rfl⟩

theorem not_overruns_zero_cons (rest : List Nat) : ¬Overruns (0 :: rest) := by
  rw [not_overruns_iff]
  intro k
  cases k with
  | zero => exact Nat.one_lt_two_pow (by decide)
  | succ k =>
      rw [List.take_succ_cons, List.prod_cons, Nat.zero_mul]
      exact Nat.two_pow_pos 64

theorem overruns_append {shape : List Nat} (hover : Size.limit ≤ shape.prod) (rest : List Nat) :
    Overruns (shape ++ rest) := by
  refine ⟨shape.length, ?_⟩
  rwa [List.take_left]

theorem reports_valueCount_iff (h : Header) :
    Reports h.valueCount h.shape.prod ↔ ¬(0 ∈ h.shape ∧ Overruns h.shape) := by
  by_cases hover : Overruns h.shape
  · rw [valueCount_of_overruns hover, reports_error_iff]
    constructor
    · rintro hle ⟨hzero, -⟩
      rw [prod_eq_zero hzero] at hle
      exact absurd hle (by decide)
    · intro hzero
      exact le_prod_of_overruns (fun hmem => hzero ⟨hmem, hover⟩) hover
  · rw [valueCount_of_not_overruns hover, reports_of_lt (prod_lt_of_not_overruns hover)]
    exact iff_of_true rfl fun hboth => hover hboth.2

theorem reports_dataLength_iff (h : Header) :
    Reports h.dataLength (h.shape.prod * h.descr.wordSize) ↔
      ¬((0 ∈ h.shape ∨ h.descr.wordSize = 0) ∧ Overruns h.shape) := by
  by_cases hover : Overruns h.shape
  · rw [dataLength_of_overruns hover, reports_error_iff]
    constructor
    · rintro hle ⟨hzero | hzero, -⟩
      · rw [prod_eq_zero hzero, Nat.zero_mul] at hle
        exact absurd hle (by decide)
      · rw [hzero, Nat.mul_zero] at hle
        exact absurd hle (by decide)
    · intro hzero
      have hcount := le_prod_of_overruns (fun hmem => hzero ⟨.inl hmem, hover⟩) hover
      have hsize : 0 < h.descr.wordSize :=
        Nat.pos_of_ne_zero fun heq => hzero ⟨.inr heq, hover⟩
      exact Nat.le_trans hcount (Nat.le_mul_of_pos_right _ hsize)
  · rw [dataLength_of_not_overruns hover]
    refine iff_of_true ?_ fun hboth => hover hboth.2
    split
    · rename_i hlt
      exact (reports_of_lt hlt).mpr rfl
    · rename_i hge
      exact reports_of_le (Nat.le_of_not_lt hge)

def SameSizes (h h' : Header) : Prop :=
  ∀ n, (h.valueCount = .ok n ↔ h'.valueCount = .ok n) ∧ (h.dataLength = .ok n ↔ h'.dataLength = .ok n)

theorem sameSizes_of_not_overruns {h : Header} {shape : List Nat} (hperm : shape.Perm h.shape)
    (hfits : ¬Overruns shape) (hfits' : ¬Overruns h.shape) :
    SameSizes { h with shape := shape } h := by
  intro n
  rw [valueCount_of_not_overruns hfits', dataLength_of_not_overruns hfits',
    valueCount_of_not_overruns hfits, dataLength_of_not_overruns hfits, hperm.prod_nat]
  refine ⟨Iff.rfl, ?_⟩
  split
  · exact Iff.rfl
  · simp only [reduceCtorEq]

theorem sameSizes_of_overruns {h : Header} {shape : List Nat} (hover : Overruns shape)
    (hover' : Overruns h.shape) : SameSizes { h with shape := shape } h := by
  intro n
  rw [valueCount_of_overruns hover', dataLength_of_overruns hover', valueCount_of_overruns hover,
    dataLength_of_overruns hover]
  simp only [reduceCtorEq, and_self]

/-- The sizes are the same for every order of the axes exactly where there is no empty axis, or where
the others fit together. -/
theorem sameSizes_perm_iff (h : Header) :
    (∀ shape : List Nat, shape.Perm h.shape → SameSizes { h with shape := shape } h) ↔
      (0 ∈ h.shape → (filled h.shape).prod < Size.limit) := by
  constructor
  · intro hsame hzero
    by_contra hover
    -- An empty axis in front gives an empty array, and the same axis at the end a refusal.
    have hfront : (0 :: h.shape.erase 0).Perm h.shape := (List.perm_cons_erase hzero).symm
    have hback : (filled h.shape ++ h.shape.filter fun n => !(n != 0)).Perm h.shape :=
      List.filter_append_perm _ _
    have hempty : valueCount { h with shape := 0 :: h.shape.erase 0 } = .ok 0 := by
      rw [valueCount_of_not_overruns (not_overruns_zero_cons _), List.prod_cons, Nat.zero_mul]
    have hcount := (hsame _ hback 0).1.mpr ((hsame _ hfront 0).1.mp hempty)
    rw [valueCount_of_overruns (overruns_append (Nat.le_of_not_lt hover) _)] at hcount
    cases hcount
  · intro hfits shape hperm
    by_cases hzero : 0 ∈ h.shape
    · have hfilled : (filled shape).prod = (filled h.shape).prod := (hperm.filter _).prod_nat
      exact sameSizes_of_not_overruns hperm (not_overruns_of_filled (hfilled ▸ hfits hzero))
        (not_overruns_of_filled (hfits hzero))
    · have hfilled := filled_of_zero_not_mem hzero
      have hfilled' := filled_of_zero_not_mem fun hmem => hzero (hperm.mem_iff.mp hmem)
      by_cases hlt : h.shape.prod < Size.limit
      · refine sameSizes_of_not_overruns hperm (not_overruns_of_filled ?_) (not_overruns_of_filled ?_)
        · rwa [hfilled', hperm.prod_nat]
        · rwa [hfilled]
      · have hle := Nat.le_of_not_lt hlt
        have hover := overruns_append (hperm.prod_nat ▸ hle) []
        have hover' := overruns_append hle []
        rw [List.append_nil] at hover hover'
        exact sameSizes_of_overruns hover hover'

/-- Sizes are exact or refused for what they are, with one exception: a product of the first axes that
does not fit is refused although a later axis, or the size of a value, makes the whole product zero.
For just these arrays the order of the axes matters. -/
theorem sizes_exact_iff (h : Header) :
    (Reports h.valueCount h.shape.prod ↔ ¬(0 ∈ h.shape ∧ Overruns h.shape)) ∧
      (Reports h.dataLength (h.shape.prod * h.descr.wordSize) ↔
        ¬((0 ∈ h.shape ∨ h.descr.wordSize = 0) ∧ Overruns h.shape)) ∧
      (Overruns h.shape → h.valueCount = .error (.format (.countOverflow h.shape)) ∧
        h.dataLength = .error (.format (.countOverflow h.shape))) ∧
      ((∀ shape : List Nat, shape.Perm h.shape → SameSizes { h with shape := shape } h) ↔
        (0 ∈ h.shape → (filled h.shape).prod < Size.limit)) :=
  ⟨reports_valueCount_iff h, reports_dataLength_iff h,
    fun hover => ⟨valueCount_of_overruns hover, dataLength_of_overruns hover⟩, sameSizes_perm_iff h⟩

/-- An array of no values is refused, and in another order of its axes it is not. -/
theorem empty_array_refused :
    [9223372036854775808, 4, 0].prod = 0 ∧
      ¬Reports (valueCount ⟨⟨'f', 4, false⟩, false, [9223372036854775808, 4, 0]⟩) 0 ∧
      ¬Reports (dataLength ⟨⟨'f', 4, false⟩, false, [9223372036854775808, 4, 0]⟩) 0 ∧
      valueCount ⟨⟨'f', 4, false⟩, false, [0, 9223372036854775808, 4]⟩ = .ok 0 ∧
      dataLength ⟨⟨'f', 4, false⟩, false, [0, 9223372036854775808, 4]⟩ = .ok 0 ∧
      [0, 9223372036854775808, 4].Perm [9223372036854775808, 4, 0] := by
  have hover : Overruns [9223372036854775808, 4, 0] := ⟨2, by decide⟩
  refine ⟨rfl, ?_, ?_, rfl, rfl, by decide⟩
  · rw [valueCount_of_overruns hover, reports_error_iff]
    decide
  · rw [dataLength_of_overruns hover, reports_error_iff]
    decide

end Bitpack.Npy.Header
