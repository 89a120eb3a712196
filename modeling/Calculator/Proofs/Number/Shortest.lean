import Calculator.Number.Decimal
import Calculator.Proofs.Number.Rounding

/-!
# Shortest decimals

Among the decimals with a given number of digits, the only ones that matter are those next to the number:
if any is rounded to it, so is one of these, since everything between a decimal that is rounded to a
number and the number itself is rounded to it too. With seventeen digits the nearest one always is.
-/

namespace Calculator.Decimal

open Number (Nearest RoundsTo valueAt exponentAt)

variable {d d' : Decimal} {x : Number} {k k' : Nat} {e decade : Int}

def HasDigits (d : Decimal) (k : Nat) : Prop := 10 ^ (k - 1) ≤ d.digits ∧ d.digits < 10 ^ k

-- `d` has as few digits as a decimal rounded to `x` can have, and is nearest to `x` among those with as
-- many.
structure IsShortest (d : Decimal) (k : Nat) (x : Number) : Prop where
  digits  : d.HasDigits k
  rounds  : RoundsTo d.toRat x
  minimal : ∀ d' k', HasDigits d' k' → RoundsTo d'.toRat x → k ≤ k'
  closest : ∀ d', HasDigits d' k → RoundsTo d'.toRat x → |x.toRat - d.toRat| ≤ |x.toRat - d'.toRat|

-- Two decimals may be the shortest ones of `x`, one on either side of it. The greater one is written.
structure IsWritten (d : Decimal) (k : Nat) (x : Number) : Prop where
  shortest : d.IsShortest k x
  greatest : ∀ d', IsShortest d' k x → d'.toRat ≤ d.toRat

-- Digits and values.

theorem ten_zpow_pos : 0 < (10 : Rat) ^ e := zpow_pos (by norm_num) e

theorem toRat_nonneg (d : Decimal) : 0 ≤ d.toRat := by
  unfold toRat
  positivity

theorem toRat_lt (h : d.digits < 10 ^ k) : d.toRat < (10 : Rat) ^ (d.exponent + k) := by
  have h : (d.digits : Rat) < (10 : Rat) ^ k := by exact_mod_cast h
  rw [add_comm, zpow_add₀ (by norm_num), zpow_natCast]
  exact mul_lt_mul_of_pos_right h ten_zpow_pos

theorem le_toRat (h : 10 ^ k ≤ d.digits) : (10 : Rat) ^ (d.exponent + k) ≤ d.toRat := by
  have h : (10 : Rat) ^ k ≤ d.digits := by exact_mod_cast h
  rw [add_comm, zpow_add₀ (by norm_num), zpow_natCast]
  exact mul_le_mul_of_nonneg_right h ten_zpow_pos.le

theorem HasDigits.pos (h : d.HasDigits k) : 0 < k := by
  refine Nat.pos_of_ne_zero ?_
  rintro rfl
  have := h.1.trans_lt h.2
  contradiction

theorem HasDigits.length_eq (h : d.HasDigits k) : (Nat.toDigits 10 d.digits).length = k := by
  have hl {j : Nat} (hj : 0 < j) : (Nat.toDigits 10 d.digits).length ≤ j ↔ d.digits < 10 ^ j :=
    Nat.length_toDigits_le_iff (by decide) hj
  have h₁ := (hl h.pos).mpr h.2
  have h₂ := h.1.trans_lt ((hl Nat.length_toDigits_pos).mp le_rfl)
  rw [Nat.pow_lt_pow_iff_right (by decide)] at h₂
  omega

-- The decade of a decimal.
theorem HasDigits.bounds (h : d.HasDigits k) :
    (10 : Rat) ^ (d.exponent + k - 1) ≤ d.toRat ∧ d.toRat < (10 : Rat) ^ (d.exponent + k) := by
  have hk := h.pos
  have h₁ := le_toRat h.1
  rw [Nat.cast_sub hk, Nat.cast_one, ← add_sub_assoc] at h₁
  exact ⟨h₁, toRat_lt h.2⟩

theorem HasDigits.eq_of_toRat_eq (h : d.HasDigits k) (h' : d'.HasDigits k) (he : d.toRat = d'.toRat) :
    d = d' := by
  obtain ⟨h₁, h₂⟩ := h.bounds
  obtain ⟨h₃, h₄⟩ := h'.bounds
  have h₅ := (zpow_lt_zpow_iff_right₀ (by norm_num)).mp (h₁.trans_lt (he ▸ h₄))
  have h₆ := (zpow_lt_zpow_iff_right₀ (by norm_num)).mp (h₃.trans_lt (he ▸ h₂))
  have hx : d.exponent = d'.exponent := by omega
  rw [toRat, toRat, hx, mul_left_inj' ten_zpow_pos.ne'] at he
  cases d
  cases d'
  congr
  exact_mod_cast he

theorem IsWritten.unique (h : d.IsWritten k x) (h' : d'.IsWritten k' x) : d = d' ∧ k = k' := by
  have hk : k = k' := le_antisymm
    (h.shortest.minimal _ _ h'.shortest.digits h'.shortest.rounds)
    (h'.shortest.minimal _ _ h.shortest.digits h.shortest.rounds)
  subst hk
  have he := le_antisymm (h'.greatest _ h.shortest) (h.greatest _ h'.shortest)
  exact ⟨h.shortest.digits.eq_of_toRat_eq h'.shortest.digits he, rfl⟩

theorem log10_spec (n : Nat) (hn : 0 < n) :
    (10 : Rat) ^ log10 n ≤ (n : Rat) ∧ (n : Rat) < 10 ^ (log10 n + 1) := by
  suffices h : 10 ^ log10 n ≤ n ∧ n < 10 ^ (log10 n + 1) by exact_mod_cast h
  fun_induction log10 n
  case case1 => omega
  case case2 n _ hi =>
    have := hi (by omega)
    omega

-- The grid of decimals in steps of a power of ten, and the two of them next to a number.

-- The one from below.
def floorOn (x : Number) (e : Int) : Decimal := ⟨(x.magnitude / (10 : Rat) ^ e).floor.toNat, e⟩

theorem toRat_next (d : Decimal) : d.next.toRat = (d.digits + 1) * (10 : Rat) ^ d.exponent := by
  unfold next
  split_ifs with h
  case pos =>
    unfold toRat
    rw [h, zpow_add_one₀ (by norm_num)]
    push_cast
    ring
  case neg =>
    unfold toRat
    push_cast
    rfl

theorem digits_floorOn : ((floorOn x e).digits : Int) = ⌊x.magnitude / (10 : Rat) ^ e⌋ := by
  have h : 0 ≤ x.magnitude / (10 : Rat) ^ e := by
    rw [Number.magnitude_eq]
    exact div_nonneg Number.valueAt_nonneg ten_zpow_pos.le
  exact Int.toNat_of_nonneg (Int.floor_nonneg.mpr h)

theorem floorOn_spec :
    (floorOn x e).toRat ≤ x.magnitude ∧ x.magnitude < (floorOn x e).next.toRat := by
  have hp : 0 < (10 : Rat) ^ e := ten_zpow_pos
  have hf : ((floorOn x e).digits : Rat) = ⌊x.magnitude / (10 : Rat) ^ e⌋ := by
    exact_mod_cast digits_floorOn
  rw [toRat_next, toRat, hf]
  exact ⟨(le_div_iff₀ hp).mp (Int.floor_le _), (div_lt_iff₀ hp).mp (Int.lt_floor_add_one _)⟩

theorem fract_lt_half_iff :
    x.magnitude / (10 : Rat) ^ e - (x.magnitude / (10 : Rat) ^ e).floor < 1 / 2 ↔
      2 * x.magnitude < (floorOn x e).toRat + (floorOn x e).next.toRat := by
  have hp : 0 < (10 : Rat) ^ e := ten_zpow_pos
  have hf : ((floorOn x e).digits : Rat) = (x.magnitude / (10 : Rat) ^ e).floor := by
    exact_mod_cast digits_floorOn
  have hm : x.magnitude = x.magnitude / (10 : Rat) ^ e * (10 : Rat) ^ e :=
    (div_mul_cancel₀ _ hp.ne').symm
  rw [toRat_next, toRat, hf]
  change _ ↔ 2 * x.magnitude < _ * (10 : Rat) ^ e + _ * (10 : Rat) ^ e
  generalize (x.magnitude / (10 : Rat) ^ e).floor = n at *
  generalize x.magnitude / (10 : Rat) ^ e = r at *
  rw [hm, ← add_mul, ← mul_assoc, mul_lt_mul_iff_left₀ hp]
  constructor <;> intro <;> linarith

theorem onGrid?_eq_none (h : onGrid? x e = none) :
    ¬(floorOn x e).ReadsAs x ∧ ¬(floorOn x e).next.ReadsAs x := by
  change (if _ then some (floorOn x e) else if _ then some (floorOn x e).next else none) = none at h
  split_ifs at h with h₁ h₂
  exact ⟨fun h => h₁ ⟨h, .inr h₂⟩, h₂⟩

theorem onGrid?_eq_some (h : onGrid? x e = some d) : d.ReadsAs x ∧
    (d = floorOn x e ∧ ((floorOn x e).next.ReadsAs x →
        2 * x.magnitude < (floorOn x e).toRat + (floorOn x e).next.toRat) ∨
      d = (floorOn x e).next ∧ ((floorOn x e).ReadsAs x →
        (floorOn x e).toRat + (floorOn x e).next.toRat ≤ 2 * x.magnitude)) := by
  change (if _ then some (floorOn x e) else if _ then some (floorOn x e).next else none) = some d at h
  split_ifs at h with h₁ h₂
  case pos =>
    cases h
    obtain ⟨hb, hm⟩ := h₁
    exact ⟨hb, .inl ⟨rfl, fun h => fract_lt_half_iff.mp (hm.resolve_right (not_not_intro h))⟩⟩
  case pos =>
    cases h
    exact ⟨h₂, .inr ⟨rfl, fun h => not_lt.mp fun hm => h₁ ⟨h, .inl (fract_lt_half_iff.mpr hm)⟩⟩⟩

-- Past the decimal with nines only comes a power of ten.
theorem hasDigits_next (h : d.HasDigits (k + 1)) : d.next.HasDigits (k + 1) ∨
    0 < k ∧ d.next.toRat = (Decimal.mk 1 (d.exponent + (k + 1 : Nat))).toRat := by
  obtain ⟨h₁, h₂⟩ := h
  rw [Nat.add_sub_cancel] at h₁
  by_cases h₃ : d.digits + 1 < 10 ^ (k + 1) ∨ k = 0
  case pos =>
    refine .inl ?_
    unfold next
    split_ifs with h₄
    case pos =>
      have hk : k < 1 := (Nat.pow_lt_pow_iff_right (show 1 < 10 by decide)).mp (by omega)
      obtain rfl : k = 0 := by omega
      exact ⟨le_rfl, show 1 < 10 ^ 1 by decide⟩
    case neg =>
      refine ⟨by rw [Nat.add_sub_cancel]; exact h₁.trans (Nat.le_succ _), ?_⟩
      obtain h₃ | rfl := h₃
      case inl => exact h₃
      case inr =>
        change d.digits + 1 < _
        omega
  case neg =>
    obtain ⟨h₃, h₄⟩ := not_or.mp h₃
    have hn : d.digits + 1 = 10 ^ (k + 1) := by omega
    have hn : (d.digits : Rat) + 1 = 10 ^ (k + 1) := by exact_mod_cast hn
    refine .inr ⟨Nat.pos_of_ne_zero h₄, ?_⟩
    rw [toRat_next, toRat, hn, zpow_add₀ (by norm_num), zpow_natCast, Nat.cast_one, one_mul, mul_comm]

section

variable (hx : x.isNegative = false) (fx : x.isFinite = true)
include hx fx

theorem readsAs_iff : d.ReadsAs x ↔ Nearest d.toRat x.rank :=
  Number.ofMagnitude_eq_iff d.toRat_nonneg hx fx

theorem floorOn_reads (h : d.ReadsAs x) (hd : d.toRat ≤ (floorOn x e).toRat) :
    (floorOn x e).ReadsAs x := by
  rw [readsAs_iff hx fx] at h ⊢
  refine h.between (.of_valueAt _) hd ?_
  rw [← Number.magnitude_eq]
  exact floorOn_spec.1

theorem next_floorOn_reads (h : d.ReadsAs x) (hd : (floorOn x e).next.toRat ≤ d.toRat) :
    (floorOn x e).next.ReadsAs x := by
  rw [readsAs_iff hx fx] at h ⊢
  refine .between (.of_valueAt _) h ?_ hd
  rw [← Number.magnitude_eq]
  exact floorOn_spec.2.le

-- No decimal that reads as `x` is nearer than the one found on the grid. One as near is below it.
theorem onGrid?_closest (hs : onGrid? x e = some d) (hr : d'.ReadsAs x)
    (ho : d'.toRat ≤ (floorOn x e).toRat ∨ (floorOn x e).next.toRat ≤ d'.toRat) :
    |x.magnitude - d.toRat| ≤ |x.magnitude - d'.toRat| ∧
      (|x.magnitude - d.toRat| = |x.magnitude - d'.toRat| → d'.toRat ≤ d.toRat) := by
  obtain ⟨h₁, h₂⟩ := floorOn_spec (x := x) (e := e)
  obtain ⟨-, ⟨rfl, h⟩ | ⟨rfl, h⟩⟩ := onGrid?_eq_some hs
  case inl =>
    rw [abs_of_nonneg (by linarith)]
    obtain ho | ho := ho
    case inl =>
      rw [abs_of_nonneg (by linarith)]
      exact ⟨by linarith, fun _ => ho⟩
    case inr =>
      have := h (next_floorOn_reads hx fx hr ho)
      rw [abs_of_nonpos (by linarith)]
      exact ⟨by linarith, fun _ => by linarith⟩
  case inr =>
    rw [abs_of_nonpos (by linarith)]
    obtain ho | ho := ho
    case inl =>
      have := h (floorOn_reads hx fx hr ho)
      rw [abs_of_nonneg (by linarith)]
      exact ⟨by linarith, fun _ => by linarith⟩
    case inr =>
      rw [abs_of_nonpos (by linarith)]
      exact ⟨by linarith, fun _ => by linarith⟩

end

-- The decade of a number, and the grid of decimals that have one digit more than `k` in it.

variable (hl : (10 : Rat) ^ decade ≤ x.magnitude) (hu : x.magnitude < (10 : Rat) ^ (decade + 1))

section

include hl hu

theorem hasDigits_floorOn : (floorOn x (decade - k)).HasDigits (k + 1) := by
  have hp : 0 < (10 : Rat) ^ (decade - k) := ten_zpow_pos
  have split : (10 : Rat) ^ decade = 10 ^ k * (10 : Rat) ^ (decade - k) := by
    rw [← zpow_natCast, ← zpow_add₀ (by norm_num), add_sub_cancel]
  have hu' : x.magnitude < 10 ^ (k + 1) * (10 : Rat) ^ (decade - k) := by
    rw [pow_succ', mul_assoc, ← split, ← zpow_one_add₀ (by norm_num), add_comm]
    exact hu
  rw [split, ← le_div_iff₀ hp] at hl
  rw [← div_lt_iff₀ hp] at hu'
  have h := digits_floorOn (x := x) (e := decade - k)
  have h₁ : ((10 ^ k : Nat) : Int) ≤ ⌊x.magnitude / (10 : Rat) ^ (decade - k)⌋ :=
    Int.le_floor.mpr (by exact_mod_cast hl)
  have h₂ : ⌊x.magnitude / (10 : Rat) ^ (decade - k)⌋ < ((10 ^ (k + 1) : Nat) : Int) :=
    Int.floor_lt.mpr (by exact_mod_cast hu')
  rw [HasDigits, Nat.add_sub_cancel]
  omega

-- No decimal with so few digits stands between those next to `x`.
theorem outside (hd : d.digits < 10 ^ k') (hk : k' ≤ k + 1) :
    d.toRat ≤ (floorOn x (decade - k)).toRat ∨ (floorOn x (decade - k)).next.toRat ≤ d.toRat := by
  by_contra hn
  obtain ⟨h₁, h₂⟩ := not_or.mp hn
  rw [not_le] at h₁ h₂
  have hp : 0 < (10 : Rat) ^ (decade - k) := ten_zpow_pos
  have he : decade - k ≤ d.exponent := by
    have h : (10 : Rat) ^ (decade - k + k) < (10 : Rat) ^ (d.exponent + k') :=
      (le_toRat (hasDigits_floorOn hl hu).1).trans_lt (h₁.trans (toRat_lt hd))
    rw [zpow_lt_zpow_iff_right₀ (by norm_num)] at h
    omega
  obtain ⟨j, hj⟩ : ∃ j : Nat, d.exponent = j + (decade - k) :=
    ⟨(d.exponent - (decade - k)).toNat, by omega⟩
  have hs : d.toRat = (d.digits * 10 ^ j : Nat) * (10 : Rat) ^ (decade - k) := by
    rw [toRat, hj, zpow_add₀ (by norm_num), zpow_natCast]
    push_cast
    ring
  rw [toRat_next] at h₂
  change _ * (10 : Rat) ^ (decade - k) < d.toRat at h₁
  change d.toRat < (_ + 1) * (10 : Rat) ^ (decade - k) at h₂
  rw [hs, mul_lt_mul_iff_left₀ hp] at h₁ h₂
  have h₁ : (floorOn x (decade - k)).digits < d.digits * 10 ^ j := by exact_mod_cast h₁
  have h₂ : d.digits * 10 ^ j < (floorOn x (decade - k)).digits + 1 := by exact_mod_cast h₂
  omega

end

-- Sixteen places after the first digit, a step is shorter than the distance between numbers.
include hl in
theorem step_lt {n : Nat} (hn : x.rank = n + 1) :
    (10 : Rat) ^ (decade - 16) < (2 : Rat) ^ exponentAt n := by
  have h₁ : 10 ^ 16 * (10 : Rat) ^ (decade - 16) ≤ 2 ^ 53 * (2 : Rat) ^ exponentAt n := calc
    10 ^ 16 * (10 : Rat) ^ (decade - 16) = (10 : Rat) ^ decade := by
      rw [← zpow_natCast, ← zpow_add₀ (by norm_num)]
      congr 1
      omega
    _ ≤ x.magnitude := hl
    _ = valueAt (n + 1) := by rw [Number.magnitude_eq, hn]
    _ ≤ 2 ^ 53 * (2 : Rat) ^ exponentAt n := Number.valueAt_succ_le
  have h₂ : 0 < (2 : Rat) ^ exponentAt n := Number.two_zpow_pos
  linarith

variable (hx : x.isNegative = false) (fx : x.isFinite = true) (hr : 0 < x.rank)
include hl hx fx

include hu in
theorem onGrid?_ne_none (h : d.ReadsAs x) (hd : d.digits < 10 ^ k') (hk : k' ≤ k + 1) :
    onGrid? x (decade - k) ≠ none := by
  intro hn
  obtain ⟨h₁, h₂⟩ := onGrid?_eq_none hn
  obtain hd | hd := outside hl hu hd hk
  case inl => exact h₁ (floorOn_reads hx fx h hd)
  case inr => exact h₂ (next_floorOn_reads hx fx h hd)

include hr in
theorem onGrid?_seventeen : onGrid? x (decade - 16) ≠ none := by
  intro h
  obtain ⟨n, hn⟩ : ∃ n, x.rank = n + 1 := ⟨x.rank - 1, by omega⟩
  have hv : x.magnitude = valueAt (n + 1) := by rw [Number.magnitude_eq, hn]
  have hs := step_lt hl hn
  obtain ⟨h₁, h₂⟩ := onGrid?_eq_none h
  obtain ⟨h₃, h₄⟩ := floorOn_spec (x := x) (e := decade - 16)
  rw [readsAs_iff hx fx, hn] at h₁ h₂
  have hb : (floorOn x (decade - 16)).next.toRat =
      (floorOn x (decade - 16)).toRat + (10 : Rat) ^ (decade - 16) := by
    rw [toRat_next, add_mul, one_mul]
    rfl
  obtain hm | hm := lt_or_ge (2 * x.magnitude)
    ((floorOn x (decade - 16)).toRat + (floorOn x (decade - 16)).next.toRat)
  case inl =>
    refine h₁ (.of_close ?_)
    rw [← hv, abs_of_nonpos (by linarith)]
    linarith
  case inr =>
    refine h₂ (.of_close ?_)
    rw [← hv, abs_of_nonneg (by linarith)]
    linarith

-- The search for the first grid with a decimal that reads as `x`.

omit hl hx fx in
theorem findSome?_range {α : Type} {f : Nat → Option α} {a : α} {n : Nat} (hk : k < n)
    (ha : f k = some a) (hf : ∀ j < k, f j = none) : (List.range n).findSome? f = some a := by
  obtain ⟨m, rfl⟩ := Nat.exists_eq_add_of_le (Nat.succ_le_of_lt hk)
  have hn : (List.range k).findSome? f = none :=
    List.findSome?_eq_none_iff.mpr fun j hj => hf j (List.mem_range.mp hj)
  rw [List.range_add, List.range_succ, List.findSome?_append, List.findSome?_append, hn]
  simp [ha]

include hr in
theorem shortest_onGrid? (hd : decade = floorLog 10 log10 x.magnitude) :
    ∃ k : Nat, onGrid? x (decade - k) = some (shortest x) ∧
      ∀ j : Nat, j < k → onGrid? x (decade - j) = none := by
  have h : ∃ k : Nat, onGrid? x (decade - k) ≠ none := ⟨16, onGrid?_seventeen hl hx fx hr⟩
  classical
  obtain ⟨d, he⟩ := Option.ne_none_iff_exists'.mp (Nat.find_spec h)
  have hj (j : Nat) (hj : j < Nat.find h) : onGrid? x (decade - j) = none :=
    not_not.mp (Nat.find_min h hj)
  have hk : Nat.find h < 17 := Nat.lt_succ_of_le (Nat.find_min' h (onGrid?_seventeen hl hx fx hr))
  have hs : shortest x = d := by
    unfold shortest
    rw [← hd]
    dsimp only
    rw [findSome?_range hk he hj]
    rfl
  exact ⟨_, hs ▸ he, hj⟩

omit hl in
include hr in
theorem isWritten_shortest : ∃ k, (shortest x).IsWritten k x := by
  have hv : x.toRat = x.magnitude := by rw [Number.toRat_eq hx, Number.magnitude_eq]
  have hz : 0 < x.magnitude := by
    rw [Number.magnitude_eq]
    exact Number.valueAt_pos hr
  have reads {d : Decimal} : RoundsTo d.toRat x ↔ d.ReadsAs x := by
    rw [readsAs_iff hx fx, Number.roundsTo_iff hx fx d.toRat_nonneg]
  obtain ⟨hl, hu⟩ := floorLog_spec (by norm_num) log10_spec hz
  obtain ⟨k, hs, hk⟩ := shortest_onGrid? hl hx fx hr rfl
  generalize shortest x = d at hs
  generalize floorLog 10 log10 x.magnitude = decade at hl hu hs hk
  have closest (d' : Decimal) (hd : d'.HasDigits (k + 1)) (hr : RoundsTo d'.toRat x) :=
    onGrid?_closest hx fx hs (reads.mp hr) (outside hl hu hd.2 le_rfl)
  rw [← hv] at closest
  have shortest : d.IsShortest (k + 1) x := by
    constructor
    case digits =>
      obtain ⟨hr, ⟨rfl, -⟩ | ⟨rfl, -⟩⟩ := onGrid?_eq_some hs
      case inl => exact hasDigits_floorOn hl hu
      case inr =>
        obtain h | ⟨h₁, h₂⟩ := hasDigits_next (hasDigits_floorOn (k := k) hl hu)
        case inl => exact h
        case inr =>
          -- One digit would have been enough.
          rw [← reads, h₂, reads] at hr
          exact absurd (hk 0 h₁) (onGrid?_ne_none hl hu hx fx hr (show 1 < 10 ^ 1 by decide) le_rfl)
    case rounds => exact reads.mpr (onGrid?_eq_some hs).1
    case minimal =>
      intro d' k' hd hr
      by_contra h
      have hp := hd.pos
      exact absurd (hk (k' - 1) (by omega))
        (onGrid?_ne_none hl hu hx fx (reads.mp hr) hd.2 (by omega))
    case closest => exact fun d' hd hr => (closest d' hd hr).1
  refine ⟨k + 1, shortest, fun d' hd => (closest d' hd.digits hd.rounds).2 ?_⟩
  exact le_antisymm (shortest.closest _ hd.digits hd.rounds)
    (hd.closest _ shortest.digits shortest.rounds)

end Calculator.Decimal
