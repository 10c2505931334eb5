import Bitpack.Proofs.Outcome
import Bitpack.Size
import Mathlib.Control.Monad.Basic

/-!
Products of sizes. Where every product on the way fits, all ways to multiply give the product itself.
-/
namespace Bitpack.Size

theorem checkedMul_eq_some_iff {a b n : Nat} :
    checkedMul a b = some n ↔ a * b < limit ∧ n = a * b := by
  unfold checkedMul
  by_cases hfits : a * b < limit
  · rw [if_pos hfits, Option.some.injEq]
    exact ⟨fun heq => ⟨hfits, heq.symm⟩, fun h => h.2.symm⟩
  · rw [if_neg hfits]
    constructor
    · intro heq
      cases heq
    · intro h
      exact absurd h.1 hfits

theorem foldlM_checkedMul {dims : List Nat} {start n : Nat}
    (hfold : dims.foldlM checkedMul start = some n) : n = start * dims.prod := by
  induction dims generalizing start with
  | nil =>
      cases hfold
      rw [List.prod_nil, Nat.mul_one]
  | cons dim rest ih =>
      rw [List.foldlM_cons, Option.bind_eq_bind, Option.bind_eq_some_iff] at hfold
      obtain ⟨next, hnext, hrest⟩ := hfold
      rw [ih hrest, (checkedMul_eq_some_iff.mp hnext).2, List.prod_cons, Nat.mul_assoc]

theorem foldlM_checkedMul_of_lt {dims : List Nat} {start : Nat}
    (hfits : ∀ k, start * (dims.take k).prod < limit) :
    dims.foldlM checkedMul start = some (start * dims.prod) := by
  induction dims generalizing start with
  | nil => rw [List.foldlM_nil, List.prod_nil, Nat.mul_one]; rfl
  | cons dim rest ih =>
      have hfirst : start * dim < limit := by simpa using hfits 1
      rw [List.foldlM_cons, checkedMul_eq_some_iff.mpr ⟨hfirst, rfl⟩, List.prod_cons,
        ← Nat.mul_assoc]
      refine ih fun k => ?_
      rw [Nat.mul_assoc, ← List.prod_cons]
      exact hfits (k + 1)

theorem fits_of_foldlM_checkedMul {dims : List Nat} {start n : Nat} (hstart : start < limit)
    (hfold : dims.foldlM checkedMul start = some n) (k : Nat) :
    start * (dims.take k).prod < limit := by
  induction dims generalizing start k with
  | nil => rwa [List.take_nil, List.prod_nil, Nat.mul_one]
  | cons dim rest ih =>
      rw [List.foldlM_cons, Option.bind_eq_bind, Option.bind_eq_some_iff] at hfold
      obtain ⟨next, hnext, hrest⟩ := hfold
      obtain ⟨hfits, rfl⟩ := checkedMul_eq_some_iff.mp hnext
      cases k with
      | zero => rwa [List.take_zero, List.prod_nil, Nat.mul_one]
      | succ k =>
          rw [List.take_succ_cons, List.prod_cons, ← Nat.mul_assoc]
          exact ih hfits hrest k

theorem Fits.prod_lt {dims : List Nat} (h : Fits dims) : dims.prod < limit := by
  have hall := h dims.length (Nat.le_refl _)
  rwa [List.take_length] at hall

theorem fits_iff {dims : List Nat} : Fits dims ↔ ∀ k, (dims.take k).prod < limit := by
  refine ⟨fun h k => ?_, fun h k _ => h k⟩
  by_cases hk : k ≤ dims.length
  · exact h k hk
  · rw [List.take_of_length_le (Nat.le_of_not_le hk)]
    exact h.prod_lt

theorem Fits.dropLast {dims : List Nat} (h : Fits dims) : Fits dims.dropLast := by
  rw [fits_iff] at h ⊢
  intro k
  rw [List.dropLast_eq_take, List.take_take]
  exact h _

theorem reserve_of_lt {count bytes : Nat} (h : count * bytes < memoryLimit) :
    reserve count bytes = .ok () :=
  if_pos h

theorem reserve_error {count bytes : Nat} {fault : Error} (h : reserve count bytes = .error fault) :
    ∃ size, fault = .size size := by
  unfold reserve at h
  split_ifs at h
  cases h
  exact ⟨_, rfl⟩

section

variable [Platform]

theorem mul_error {a b : Nat} {fault : Error} (h : mul a b = .error fault) :
    ∃ size, fault = .size size := by
  unfold mul at h
  split at h
  · cases h
  · split_ifs at h
    cases h
    exact ⟨_, rfl⟩

theorem le_of_mul {a b n : Nat} (h : mul a b = .ok n) : n ≤ a * b := by
  unfold mul at h
  split at h
  · rename_i hfits
    cases h
    exact Nat.le_of_eq (checkedMul_eq_some_iff.mp hfits).2
  · split_ifs at h
    cases h
    exact Nat.mod_le _ _

theorem mul_of_lt {a b : Nat} (h : a * b < limit) : mul a b = .ok (a * b) := by
  unfold mul
  rw [checkedMul_eq_some_iff.mpr ⟨h, rfl⟩]

theorem product_error {dims : List Nat} {fault : Error} (h : product dims = .error fault) :
    ∃ size, fault = .size size := by
  unfold product at h
  generalize 1 = start at h
  induction dims generalizing start with
  | nil => cases h
  | cons dim rest ih =>
      rw [List.foldlM_cons] at h
      cases hmul : mul start dim with
      | ok n =>
          rw [hmul] at h
          exact ih n h
      | error cause =>
          rw [hmul] at h
          cases h
          exact mul_error hmul

theorem foldlM_mul_of_checkedMul {dims : List Nat} {start n : Nat}
    (hfold : dims.foldlM checkedMul start = some n) : dims.foldlM mul start = .ok n := by
  induction dims generalizing start with
  | nil =>
      cases hfold
      rfl
  | cons dim rest ih =>
      rw [List.foldlM_cons, Option.bind_eq_bind, Option.bind_eq_some_iff] at hfold
      obtain ⟨next, hnext, hrest⟩ := hfold
      obtain ⟨hlt, rfl⟩ := checkedMul_eq_some_iff.mp hnext
      rw [List.foldlM_cons, mul_of_lt hlt]
      exact ih hrest

theorem product_of_fits {dims : List Nat} (h : Fits dims) : product dims = .ok dims.prod := by
  refine foldlM_mul_of_checkedMul ?_
  rw [foldlM_checkedMul_of_lt fun k => (Nat.one_mul _).symm ▸ fits_iff.mp h k, Nat.one_mul]

end

end Bitpack.Size
