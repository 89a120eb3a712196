import Calculator.Proofs.Number.Bits

/-!
# Ranks

The magnitudes of numbers grow with their ranks, by one unit from each to the next, and numbers compare
as their rationals do. A rational has a nearest rank, the even one if two are equally near. It is the only
one, it grows with the rational, and the rationals that have the same one make up an interval.
-/

namespace Calculator.Number

-- Significand, exponent and value of the magnitude of a rank. There is no bound on ranks here.

def significandAt (n : Nat) : Nat := if n < 2 ^ 52 then n else 2 ^ 52 + n % 2 ^ 52

def exponentAt (n : Nat) : Int := (max (n / 2 ^ 52) 1 : Nat) - 1075

def valueAt (n : Nat) : Rat := significandAt n * (2 : Rat) ^ exponentAt n

variable {x y : Number} {p q a b : Rat} {n m : Nat}

theorem magnitude_eq (x : Number) : x.magnitude = valueAt x.rank := by
  rw [magnitude, significand_eq, exponent_eq]
  rfl

theorem significandAt_lt : significandAt n < 2 ^ 53 := by
  unfold significandAt
  split <;> omega

theorem exponentAt_mono (h : n ≤ m) : exponentAt n ≤ exponentAt m := by
  unfold exponentAt
  omega

theorem two_zpow_pos {e : Int} : 0 < (2 : Rat) ^ e := zpow_pos (by norm_num) e

theorem two_pow_mul_zpow (k : Nat) (e : Int) : (2 : Rat) ^ k * (2 : Rat) ^ e = (2 : Rat) ^ (k + e) := by
  rw [zpow_add₀ (by norm_num), zpow_natCast]

-- From one rank to the next either the significand grows by one, or it is full and the exponent does.
theorem significandAt_succ :
    (significandAt (n + 1) = significandAt n + 1 ∧ exponentAt (n + 1) = exponentAt n) ∨
      (significandAt (n + 1) * 2 = significandAt n + 1 ∧ exponentAt (n + 1) = exponentAt n + 1) := by
  unfold significandAt exponentAt
  split_ifs <;> omega

theorem valueAt_succ : valueAt (n + 1) = valueAt n + (2 : Rat) ^ exponentAt n := by
  unfold valueAt
  obtain ⟨hs, he⟩ | ⟨hs, he⟩ := significandAt_succ (n := n)
  case inl =>
    rw [hs, he]
    push_cast
    ring
  case inr =>
    have hs : (significandAt (n + 1) : Rat) * 2 = significandAt n + 1 := by exact_mod_cast hs
    rw [he, zpow_add_one₀ (by norm_num)]
    linear_combination (2 : Rat) ^ exponentAt n * hs

theorem valueAt_succ_le : valueAt (n + 1) ≤ 2 ^ 53 * (2 : Rat) ^ exponentAt n := by
  have h : ((significandAt n + 1 : Nat) : Rat) ≤ (2 ^ 53 : Nat) := by exact_mod_cast significandAt_lt
  have hp : 0 < (2 : Rat) ^ exponentAt n := two_zpow_pos
  rw [valueAt_succ, valueAt]
  push_cast at h
  nlinarith

theorem valueAt_strictMono : StrictMono valueAt :=
  strictMono_nat_of_lt_succ fun _ => valueAt_succ ▸ lt_add_of_pos_right _ two_zpow_pos

theorem valueAt_zero : valueAt 0 = 0 := by
  simp [valueAt, significandAt]

theorem valueAt_nonneg : 0 ≤ valueAt n := valueAt_zero ▸ valueAt_strictMono.monotone n.zero_le

theorem valueAt_eq_zero_iff : valueAt n = 0 ↔ n = 0 := by
  rw [← valueAt_zero]
  exact valueAt_strictMono.injective.eq_iff

theorem valueAt_pos (h : 0 < n) : 0 < valueAt n := valueAt_zero ▸ valueAt_strictMono h

-- The rational of a number is its magnitude under its sign.

theorem toRat_eq (hx : x.isNegative = false) : x.toRat = valueAt x.rank := by
  rw [toRat, hx, magnitude_eq]
  rfl

theorem abs_toRat (x : Number) : |x.toRat| = valueAt x.rank := by
  rw [toRat, magnitude_eq]
  split_ifs
  case pos => rw [abs_neg, abs_of_nonneg valueAt_nonneg]
  case neg => exact abs_of_nonneg valueAt_nonneg

theorem toRat_eq_zero_iff : x.toRat = 0 ↔ x.rank = 0 := by
  rw [← abs_eq_zero, abs_toRat, valueAt_eq_zero_iff]

theorem toRat_lt_zero_iff : x.toRat < 0 ↔ x.isNegative = true ∧ x.toRat ≠ 0 := by
  have hv : 0 ≤ valueAt x.rank := valueAt_nonneg
  rw [toRat, magnitude_eq]
  split_ifs with h
  case pos => rw [and_iff_right h, neg_lt_zero, neg_ne_zero, hv.lt_iff_ne']
  case neg => exact iff_of_false hv.not_gt fun h' => h h'.1

-- Numbers compare as their rationals do.
theorem le_iff_toRat (fx : x.isFinite = true) (fy : y.isFinite = true) : x ≤ y ↔ x.toRat ≤ y.toRat := by
  have mono {n m : Nat} : valueAt n ≤ valueAt m ↔ n ≤ m := valueAt_strictMono.le_iff_le
  have hx : 0 ≤ valueAt x.rank := valueAt_nonneg
  have hy : 0 ≤ valueAt y.rank := valueAt_nonneg
  rw [le_iff_signedRank (isNaN_of_isFinite fx) (isNaN_of_isFinite fy), signedRank, signedRank, toRat, toRat,
    magnitude_eq, magnitude_eq]
  split_ifs
  case pos => rw [neg_le_neg_iff, neg_le_neg_iff, Int.ofNat_le, mono]
  case neg => exact iff_of_true (by omega) (by linarith)
  case pos =>
    -- Only zeros of both signs can be meant.
    have h : valueAt x.rank ≤ -valueAt y.rank ↔ valueAt x.rank = 0 ∧ valueAt y.rank = 0 :=
      ⟨fun h => ⟨by linarith, by linarith⟩, fun h => by linarith⟩
    rw [h, valueAt_eq_zero_iff, valueAt_eq_zero_iff]
    omega
  case neg => rw [mono, Int.ofNat_le]

theorem beq_iff_toRat (fx : x.isFinite = true) (fy : y.isFinite = true) :
    (x == y) = true ↔ x.toRat = y.toRat := by
  have nx := isNaN_of_isFinite fx
  have ny := isNaN_of_isFinite fy
  rw [beq_iff_signedRank nx ny, le_antisymm_iff, ← le_iff_signedRank nx ny, ← le_iff_signedRank ny nx,
    le_iff_toRat fx fy, le_iff_toRat fy fx, ← le_antisymm_iff]

theorem toRat_neg (fx : x.isFinite = true) : toRat (-x) = -x.toRat := by
  have nx := isNaN_of_isFinite fx
  rw [toRat, toRat, magnitude_eq, magnitude_eq, isNegative_neg nx, rank_neg nx]
  cases x.isNegative <;> simp

-- Which of two values is nearer is decided by the middle between them.

theorem abs_sub_le_iff_of_lt (h : a < b) : |q - a| ≤ |q - b| ↔ 2 * q ≤ a + b := by
  rw [← sq_le_sq]
  constructor <;> intro <;> nlinarith

theorem abs_sub_le_iff_of_gt (h : b < a) : |q - a| ≤ |q - b| ↔ a + b ≤ 2 * q := by
  rw [← sq_le_sq]
  constructor <;> intro <;> nlinarith

theorem abs_sub_eq_iff_of_ne (h : a ≠ b) : |q - a| = |q - b| ↔ 2 * q = a + b := by
  rw [← sq_eq_sq_iff_abs_eq_abs, ← sub_eq_zero, ← sub_eq_zero (a := 2 * q)]
  have hm : (q - a) ^ 2 - (q - b) ^ 2 = (b - a) * (2 * q - (a + b)) := by ring
  rw [hm, mul_eq_zero, or_iff_right (sub_ne_zero.mpr h.symm)]

-- The rank whose value is nearest to `q`.
structure Nearest (q : Rat) (n : Nat) : Prop where
  least : ∀ m, |q - valueAt n| ≤ |q - valueAt m|
  even  : ∀ m, m ≠ n → |q - valueAt n| = |q - valueAt m| → n % 2 = 0

namespace Nearest

theorem below (h : Nearest q n) (hm : n < m) : 2 * q ≤ valueAt n + valueAt m :=
  (abs_sub_le_iff_of_lt (valueAt_strictMono hm)).mp (h.least m)

theorem above (h : Nearest q n) (hm : m < n) : valueAt n + valueAt m ≤ 2 * q :=
  (abs_sub_le_iff_of_gt (valueAt_strictMono hm)).mp (h.least m)

theorem even_of_middle (h : Nearest q n) (hm : m ≠ n) (hq : 2 * q = valueAt n + valueAt m) :
    n % 2 = 0 :=
  h.even m hm ((abs_sub_eq_iff_of_ne (valueAt_strictMono.injective.ne hm.symm)).mpr hq)

-- Only the values next to that of `n` can be nearer.
theorem of_neighbours (h₁ : 2 * q ≤ valueAt n + valueAt (n + 1))
    (h₂ : ∀ m, n = m + 1 → valueAt n + valueAt m ≤ 2 * q)
    (h₃ : 2 * q = valueAt n + valueAt (n + 1) → n % 2 = 0)
    (h₄ : ∀ m, n = m + 1 → 2 * q = valueAt n + valueAt m → n % 2 = 0) : Nearest q n := by
  have upper (m : Nat) (h : n < m) : valueAt (n + 1) ≤ valueAt m := valueAt_strictMono.monotone h
  have lower (m : Nat) (h : m < n) : ∃ k, n = k + 1 ∧ valueAt m ≤ valueAt k :=
    ⟨n - 1, by omega, valueAt_strictMono.monotone (by omega)⟩
  constructor
  case least =>
    intro m
    obtain h | rfl | h := Nat.lt_trichotomy m n
    case inl =>
      obtain ⟨k, hk, hv⟩ := lower m h
      exact (abs_sub_le_iff_of_gt (valueAt_strictMono h)).mpr (by linarith [h₂ k hk])
    case inr.inl => exact le_rfl
    case inr.inr =>
      exact (abs_sub_le_iff_of_lt (valueAt_strictMono h)).mpr (by linarith [upper m h])
  case even =>
    intro m hm he
    rw [abs_sub_eq_iff_of_ne (valueAt_strictMono.injective.ne hm.symm)] at he
    obtain h | h := Nat.lt_or_gt_of_ne hm
    case inl =>
      obtain ⟨k, hk, hv⟩ := lower m h
      exact h₄ k hk (by linarith [h₂ k hk])
    case inr => exact h₃ (by linarith [upper m h])

theorem le (h : Nearest q n) (h' : Nearest p m) (hq : q ≤ p) : n ≤ m := by
  by_contra hn
  have hm : m < n := by omega
  have h₁ := h.above hm
  have h₂ := h'.below hm
  -- Nothing is left but that both are rounded to from the middle between them. So both are even, and
  -- the rank after `m` would be nearer.
  have hn₀ := h.even_of_middle hm.ne (by linarith)
  have hm₀ := h'.even_of_middle hm.ne' (by linarith)
  have h₃ : valueAt m < valueAt (m + 1) := valueAt_strictMono (Nat.lt_succ_self m)
  have h₄ := h.above (show m + 1 < n by omega)
  linarith

theorem unique (h : Nearest q n) (h' : Nearest q m) : n = m :=
  le_antisymm (h.le h' le_rfl) (h'.le h le_rfl)

theorem of_valueAt (n : Nat) : Nearest (valueAt n) n where
  least _    := by simp
  even m h he := by
    rw [sub_self, abs_zero, eq_comm, abs_eq_zero, sub_eq_zero] at he
    exact absurd (valueAt_strictMono.injective he).symm h

theorem zero : Nearest 0 0 := by
  have h := of_valueAt 0
  rwa [valueAt_zero] at h

theorem of_middle (hq : 2 * q = valueAt n + valueAt (n + 1)) (hn : n % 2 = 1) : Nearest q (n + 1) := by
  have h₁ := valueAt_strictMono (Nat.lt_succ_self n)
  have h₂ := valueAt_strictMono (Nat.lt_succ_self (n + 1))
  apply of_neighbours
  case h₁ => linarith
  case h₂ =>
    intro m hm
    obtain rfl : n = m := by omega
    linarith
  case h₃ => omega
  case h₄ => omega

theorem of_close (h : 2 * |q - valueAt (n + 1)| < (2 : Rat) ^ exponentAt n) : Nearest q (n + 1) := by
  have hm : (2 : Rat) ^ exponentAt n ≤ (2 : Rat) ^ exponentAt (n + 1) :=
    zpow_le_zpow_right₀ (by norm_num) (exponentAt_mono (Nat.le_succ n))
  have h₁ := valueAt_succ (n := n)
  have h₂ := valueAt_succ (n := n + 1)
  have h₃ := le_abs_self (q - valueAt (n + 1))
  have h₄ := neg_abs_le (q - valueAt (n + 1))
  apply of_neighbours
  case h₁ => linarith
  case h₂ =>
    intro m hm
    obtain rfl : n = m := by omega
    linarith
  case h₃ =>
    intro
    linarith
  case h₄ =>
    intro m hm he
    obtain rfl : n = m := by omega
    linarith

-- What lies between two rationals rounded to `n` is rounded to it too.
theorem between {q' : Rat} (h : Nearest q n) (h' : Nearest q' n) (hq : q ≤ p) (hp : p ≤ q') :
    Nearest p n := by
  apply of_neighbours
  case h₁ => linarith [h'.below (Nat.lt_succ_self n)]
  case h₂ =>
    rintro m rfl
    linarith [h.above (Nat.lt_succ_self m)]
  case h₃ =>
    intro he
    exact h'.even_of_middle (Nat.succ_ne_self n) (by linarith [h'.below (Nat.lt_succ_self n)])
  case h₄ =>
    rintro m rfl he
    exact h.even_of_middle (Nat.succ_ne_self m).symm (by linarith [h.above (Nat.lt_succ_self m)])

end Nearest

end Calculator.Number
