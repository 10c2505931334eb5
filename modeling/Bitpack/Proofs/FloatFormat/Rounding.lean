import Bitpack.FloatFormat.Basic
import Mathlib.Tactic.Ring

/-!
Rounding to nearest. A rounded quotient is told by its distance alone, so that rounding in two steps
can be compared with rounding in one: they differ where the first step lands in the middle between two
results of the second one.
-/
namespace Bitpack.FloatFormat

structure Nearest (m d r : Nat) : Prop where
  le : 2 * m ≤ 2 * (r * d) + d
  ge : 2 * (r * d) ≤ 2 * m + d
  even : 2 * m = 2 * (r * d) + d ∨ 2 * (r * d) = 2 * m + d → r % 2 = 0

theorem nearest_halveEven (m k : Nat) : Nearest m (2 ^ k) (halveEven m k) := by
  have hdiv : m / 2 ^ k * 2 ^ k + m % 2 ^ k = m := Nat.div_add_mod' m (2 ^ k)
  have hmod : m % 2 ^ k < 2 ^ k := Nat.mod_lt m (Nat.two_pow_pos k)
  unfold halveEven
  dsimp only
  split
  · constructor <;> omega
  · have hnext := Nat.succ_mul (m / 2 ^ k) (2 ^ k)
    rw [Nat.succ_eq_add_one] at hnext
    constructor <;> omega

theorem Nearest.eq {m d r s : Nat} (hr : Nearest m d r) (hs : Nearest m d s) (hd : 0 < d) :
    r = s := by
  have hlt : ∀ {r s}, Nearest m d r → Nearest m d s → ¬r < s := by
    intro r s hr hs hlt
    obtain ⟨k, rfl⟩ := Nat.exists_eq_add_of_lt hlt
    have hmul : (r + k + 1) * d = r * d + k * d + d := by ring
    have hle := hr.le
    have hge := hs.ge
    have hevenr := hr.even
    have hevens := hs.even
    rw [hmul] at hge hevens
    cases k with
    | zero => omega -- two neighbours are both nearest to their middle only, and one of them is odd
    | succ k =>
        have hstep := Nat.add_one_mul k d
        omega
  exact Nat.le_antisymm (Nat.le_of_not_lt (hlt hs hr)) (Nat.le_of_not_lt (hlt hr hs))

theorem halveEven_eq_iff {m k r : Nat} : halveEven m k = r ↔ Nearest m (2 ^ k) r := by
  constructor
  · rintro rfl
    exact nearest_halveEven m k
  · exact fun hr => (nearest_halveEven m k).eq hr (Nat.two_pow_pos k)

theorem halveEven_mul_two_pow (m k s : Nat) : halveEven (m * 2 ^ k) (s + k) = halveEven m s := by
  rw [halveEven_eq_iff, Nat.pow_add]
  have hpos := Nat.two_pow_pos k
  have hnear := nearest_halveEven m s
  have hm : 2 * (m * 2 ^ k) = 2 * m * 2 ^ k := by ring
  have hr : 2 * (halveEven m s * (2 ^ s * 2 ^ k)) = 2 * (halveEven m s * 2 ^ s) * 2 ^ k := by ring
  refine ⟨?_, ?_, ?_⟩
  · rw [hm, hr, ← Nat.add_mul]
    exact Nat.mul_le_mul_right _ hnear.le
  · rw [hm, hr, ← Nat.add_mul]
    exact Nat.mul_le_mul_right _ hnear.ge
  · rw [hm, hr, ← Nat.add_mul, ← Nat.add_mul, Nat.mul_right_cancel_iff hpos,
      Nat.mul_right_cancel_iff hpos]
    exact hnear.even

theorem halveEven_exact (m k : Nat) : halveEven (m * 2 ^ k) k = m := by
  have hshift := halveEven_mul_two_pow m k 0
  rw [Nat.zero_add] at hshift
  rw [hshift]
  simp [halveEven, Nat.mod_one]

/-- The first of two roundings lands in the middle between two results of the second one, and the
second one goes to the farther of them. -/
def Skewed (m a b : Nat) : Prop :=
  2 * (halveEven m a % 2 ^ b) = 2 ^ b ∧
    if halveEven m a / 2 ^ b % 2 = 0 then halveEven m a * 2 ^ a < m
    else m < halveEven m a * 2 ^ a

theorem mul_two_pow_split (u a b : Nat) :
    u * 2 ^ a = u / 2 ^ b * 2 ^ (a + b) + u % 2 ^ b * 2 ^ a := by
  conv_lhs => rw [← Nat.div_add_mod' u (2 ^ b)]
  ring

theorem halveEven_halveEven_of_ne {m a b : Nat} (hb : 0 < b)
    (hmiddle : 2 * (halveEven m a % 2 ^ b) ≠ 2 ^ b) :
    halveEven (halveEven m a) b = halveEven m (a + b) := by
  obtain ⟨hle, hge, -⟩ := nearest_halveEven m a
  symm
  rw [halveEven_eq_iff]
  generalize halveEven m a = u at *
  have hsplit := mul_two_pow_split u a b
  have hrest := Nat.mod_lt u (Nat.two_pow_pos b)
  obtain ⟨half, hhalf⟩ : ∃ half, 2 ^ b = 2 * half :=
    ⟨2 ^ (b - 1), by rw [← Nat.pow_succ', Nat.succ_eq_add_one, Nat.sub_add_cancel hb]⟩
  have hsum : 2 ^ (a + b) = 2 * (half * 2 ^ a) := by rw [Nat.pow_add, hhalf]; ring
  have hpos := Nat.two_pow_pos a
  -- The first rounding moves `m` by half a unit at most, and `u` is a whole one away from the middle.
  unfold halveEven
  dsimp only
  split
  · have hgap : (u % 2 ^ b + 1) * 2 ^ a ≤ half * 2 ^ a := Nat.mul_le_mul_right _ (by omega)
    rw [Nat.add_one_mul (u % 2 ^ b)] at hgap
    constructor <;> omega
  · have hgap : (half + 1) * 2 ^ a ≤ u % 2 ^ b * 2 ^ a := Nat.mul_le_mul_right _ (by omega)
    have hlast : (u % 2 ^ b + 1) * 2 ^ a ≤ 2 * half * 2 ^ a := Nat.mul_le_mul_right _ (by omega)
    rw [Nat.add_one_mul half] at hgap
    rw [Nat.add_one_mul (u % 2 ^ b), Nat.mul_assoc] at hlast
    have hnext := Nat.add_one_mul (u / 2 ^ b) (2 ^ (a + b))
    constructor <;> omega

theorem halveEven_of_middle {u b : Nat} (hmiddle : 2 * (u % 2 ^ b) = 2 ^ b) :
    halveEven u b = if u / 2 ^ b % 2 = 0 then u / 2 ^ b else u / 2 ^ b + 1 := by
  simp [halveEven, hmiddle]

theorem two_mul_middle {u b : Nat} (hmiddle : 2 * (u % 2 ^ b) = 2 ^ b) (a : Nat) :
    2 * (u * 2 ^ a) = 2 * (u / 2 ^ b * 2 ^ (a + b)) + 2 ^ (a + b) := by
  rw [mul_two_pow_split u a b, Nat.mul_add, ← Nat.mul_assoc 2 (u % 2 ^ b), hmiddle, Nat.add_comm a,
    Nat.pow_add]

theorem halveEven_of_middle_lt {m a b : Nat} (hmiddle : 2 * (halveEven m a % 2 ^ b) = 2 ^ b)
    (hlt : halveEven m a * 2 ^ a < m) : halveEven m (a + b) = halveEven m a / 2 ^ b + 1 := by
  have hle := (nearest_halveEven m a).le
  rw [halveEven_eq_iff]
  have hsplit := two_mul_middle hmiddle a
  have hwide : 2 ^ a ≤ 2 ^ (a + b) := Nat.pow_le_pow_right (by decide) (by omega)
  have hnext := Nat.add_one_mul (halveEven m a / 2 ^ b) (2 ^ (a + b))
  constructor <;> omega

theorem halveEven_of_lt_middle {m a b : Nat} (hmiddle : 2 * (halveEven m a % 2 ^ b) = 2 ^ b)
    (hlt : m < halveEven m a * 2 ^ a) : halveEven m (a + b) = halveEven m a / 2 ^ b := by
  have hge := (nearest_halveEven m a).ge
  rw [halveEven_eq_iff]
  have hsplit := two_mul_middle hmiddle a
  have hwide : 2 ^ a ≤ 2 ^ (a + b) := Nat.pow_le_pow_right (by decide) (by omega)
  constructor <;> omega

/-- Two roundings differ from one in exactly the skewed case. -/
theorem halveEven_halveEven_iff {m a b : Nat} (hb : 0 < b) :
    halveEven (halveEven m a) b = halveEven m (a + b) ↔ ¬Skewed m a b := by
  unfold Skewed
  by_cases hmiddle : 2 * (halveEven m a % 2 ^ b) = 2 ^ b
  · rw [halveEven_of_middle hmiddle]
    -- A number that was moved down into the middle belongs above it, and one that was moved up below.
    rcases Nat.lt_trichotomy (halveEven m a * 2 ^ a) m with hlt | heq | hgt
    · rw [halveEven_of_middle_lt hmiddle hlt]
      split <;> simp [hmiddle] <;> omega
    · have hexact : halveEven m (a + b) = halveEven (halveEven m a) b := by
        conv_lhs => rw [← heq, Nat.add_comm, halveEven_mul_two_pow]
      rw [hexact, halveEven_of_middle hmiddle]
      split <;> simp [hmiddle] <;> omega
    · rw [halveEven_of_lt_middle hmiddle hgt]
      split <;> simp [hmiddle] <;> omega
  · simp [halveEven_halveEven_of_ne hb hmiddle, hmiddle]

end Bitpack.FloatFormat
