import Calculator.Number.Extremum
import Calculator.Proofs.Number.Bits

/-!
# Least and greatest number

The numbers other than NaN have one total order, in which -0 is below 0. The least or greatest of a list of
them is the member that no other member is below or above, so it depends neither on how often a member occurs
nor on where. A list may be cut into parts, and the bounds of the parts stand for the members.
-/

namespace Calculator

namespace Number

-- The order of the numbers other than NaN. To `<` alone the zeros are equal.
def Below (x y : Number) : Prop := x < y ∨ x = -0 ∧ y = 0

-- The place of a number in that order. All places but those of NaN are taken, and -0 has the one before 0.
def place (x : Number) : Int := if x.isNegative then -x.rank - 1 else x.rank

variable {x y : Number}

theorem place_injective : Function.Injective place := by
  intro x y h
  unfold place at h
  split_ifs at h with hx hy hy
  case pos => exact ext (hx.trans hy.symm) (by omega)
  case neg => omega
  case pos => omega
  case neg => exact ext ((Bool.eq_false_iff.mpr hx).trans (Bool.eq_false_iff.mpr hy).symm) (by omega)

theorem place_neg (nx : x.isNaN = false) : place (-x) = -x.place - 1 := by
  unfold place
  rw [isNegative_neg nx, rank_neg nx]
  cases x.isNegative <;> simp

theorem neg_neg_eq (nx : x.isNaN = false) : - -x = x := by
  refine place_injective ?_
  rw [place_neg (isNaN_neg nx), place_neg nx]
  omega

theorem below_iff (nx : x.isNaN = false) (ny : y.isNaN = false) : Below x y ↔ x.place < y.place := by
  have hx : x.place = -1 ↔ x = -0 := place_injective.eq_iff' (by decide)
  have hy : y.place = 0 ↔ y = 0 := place_injective.eq_iff' (by decide)
  unfold Below
  rw [lt_iff_signedRank nx ny, ← hx, ← hy]
  grind [place, signedRank]

-- The infinities stand at the ends.
theorem place_le (nx : x.isNaN = false) : place (-infinity) ≤ x.place ∧ x.place ≤ place infinity := by
  have hr : ¬infiniteRank < x.rank := by
    rw [← isNaN_iff, nx]
    exact Bool.false_ne_true
  have h₁ : place (-infinity) = -infiniteRank - 1 := by decide
  have h₂ : place infinity = infiniteRank := by decide
  rw [h₁, h₂]
  unfold place
  split_ifs <;> omega

theorem below_total :
    IsStrictTotalOrder {x : Number // x.isNaN = false} fun x y => Below x.val y.val := by
  have h : (fun x y : {x : Number // x.isNaN = false} => Below x.val y.val) =
      Function.onFun (· < ·) fun x => x.val.place := by
    funext x y
    exact propext (below_iff x.property y.property)
  rw [h]
  have hi : Function.Injective fun x : {x : Number // x.isNaN = false} => x.val.place :=
    place_injective.comp Subtype.val_injective
  exact hi.isStrictTotalOrder_onFun (r := (· < ·))

end Number

namespace Extremum

-- Which of two numbers comes first, seen from the bound.
def Before : Extremum → Number → Number → Prop
  | least,    x, y => x.Below y
  | greatest, x, y => y.Below x

def place : Extremum → Number → Int
  | least,    x => x.place
  | greatest, x => -x.place

-- NaN has no place in the order.
def Ordered (xs : List Number) : Prop := ∀ x ∈ xs, x.isNaN = false

-- `m` is a member of `xs` that no other one comes before.
structure Leads (e : Extremum) (xs : List Number) (m : Number) : Prop where
  mem   : m ∈ xs
  first : ∀ x ∈ xs, e.place m ≤ e.place x

variable {e : Extremum} {x y m m' : Number} {xs ys : List Number}

theorem place_injective : Function.Injective e.place := by
  intro x y h
  cases e
  case least    => exact Number.place_injective h
  case greatest => exact Number.place_injective (neg_injective h)

theorem before_iff (nx : x.isNaN = false) (ny : y.isNaN = false) :
    e.Before x y ↔ e.place x < e.place y := by
  cases e
  case least    => exact Number.below_iff nx ny
  case greatest => exact (Number.below_iff ny nx).trans neg_lt_neg_iff.symm

theorem pick_eq : e.pick x y = x ∨ e.pick x y = y := by
  cases e <;> unfold pick <;> dsimp only <;> split_ifs <;> simp

theorem place_pick (nx : x.isNaN = false) (ny : y.isNaN = false) :
    e.place (e.pick x y) = min (e.place x) (e.place y) := by
  cases e
  all_goals
    simp only [pick, place, Number.beq_iff_signedRank nx ny, Number.lt_iff_signedRank nx ny]
    unfold Number.signedRank Number.place
    split_ifs <;> omega

theorem ordered_identity : e.identity.isNaN = false := by
  cases e <;> decide

theorem place_le_identity (nx : x.isNaN = false) : e.place x ≤ e.place e.identity := by
  cases e
  case least    => exact (Number.place_le nx).right
  case greatest => exact neg_le_neg (Number.place_le nx).left

theorem ordered_or_nan (xs : List Number) : Ordered xs ∨ ∃ x ∈ xs, x.isNaN = true := by
  by_cases h : ∃ x ∈ xs, x.isNaN = true
  case pos => exact .inr h
  case neg => exact .inl fun x hx => Bool.eq_false_iff.mpr fun nx => h ⟨x, hx, nx⟩

namespace Ordered

theorem nil : Ordered [] := by simp [Ordered]

theorem cons (nx : x.isNaN = false) (h : Ordered xs) : Ordered (x :: xs) :=
  List.forall_mem_cons.mpr ⟨nx, h⟩

theorem append (h : Ordered xs) (h' : Ordered ys) : Ordered (xs ++ ys) :=
  List.forall_mem_append.mpr ⟨h, h'⟩

theorem map_neg (h : Ordered xs) : Ordered (xs.map (-·)) :=
  List.forall_mem_map.mpr fun x hx => Number.isNaN_neg (h x hx)

end Ordered

theorem Leads.unique (h : e.Leads xs m) (h' : e.Leads xs m') : m = m' :=
  place_injective (le_antisymm (h.first m' h'.mem) (h'.first m h.mem))

theorem leads_foldl (nx : x.isNaN = false) (h : Ordered xs) : e.Leads (x :: xs) (xs.foldl e.pick x) := by
  induction xs generalizing x
  case nil => exact ⟨List.mem_cons_self, by simp⟩
  case cons y ys hi =>
    have ⟨ny, h⟩ := List.forall_mem_cons.mp h
    have hp := place_pick (e := e) nx ny
    have np : (e.pick x y).isNaN = false := by
      cases pick_eq (e := e) (x := x) (y := y)
      case inl h => rwa [h]
      case inr h => rwa [h]
    have ⟨hm, hf⟩ := hi np h
    have ⟨hf, hs⟩ := List.forall_mem_cons.mp hf
    rw [hp, le_min_iff] at hf
    constructor
    case mem =>
      obtain hm | hm := List.mem_cons.mp hm
      case inl =>
        rw [List.foldl_cons, hm]
        cases pick_eq (e := e) (x := x) (y := y)
        case inl h => simp [h]
        case inr h => simp [h]
      case inr => exact List.mem_cons_of_mem _ (List.mem_cons_of_mem _ hm)
    case first => exact List.forall_mem_cons.mpr ⟨hf.left, List.forall_mem_cons.mpr ⟨hf.right, hs⟩⟩

theorem of_nan (h : ∃ x ∈ xs, x.isNaN = true) : e.of xs = .nan :=
  if_pos (List.any_eq_true.mpr h)

theorem leads_of (h : Ordered xs) : e.Leads (e.identity :: xs) (e.of xs) := by
  have hn : ¬xs.any (·.isNaN) = true := by
    rw [List.any_eq_true]
    rintro ⟨x, hx, nx⟩
    exact Bool.false_ne_true ((h x hx).symm.trans nx)
  rw [of, if_neg hn]
  exact leads_foldl ordered_identity h

theorem ordered_of (h : Ordered xs) : (e.of xs).isNaN = false :=
  h.cons ordered_identity _ (leads_of h).mem

-- Among numbers, the one that a bound of no numbers has to be is a member only if all others are the same.
theorem leads_of_ne_nil (h : Ordered xs) (hn : xs ≠ []) : e.Leads xs (e.of xs) := by
  have ⟨hm, hf⟩ := leads_of (e := e) h
  have ⟨hi, hf⟩ := List.forall_mem_cons.mp hf
  refine ⟨?_, hf⟩
  obtain hm | hm := List.mem_cons.mp hm
  case inl =>
    obtain ⟨x, hx⟩ := List.exists_mem_of_ne_nil xs hn
    have he : e.place (e.of xs) = e.place x := le_antisymm (hf x hx) (hm ▸ place_le_identity (h x hx))
    exact place_injective he ▸ hx
  case inr => exact hm

theorem of_perm (hp : xs.Perm ys) : e.of ys = e.of xs := by
  obtain h | ⟨x, hx, nx⟩ := ordered_or_nan xs
  case inl =>
    have ⟨hm, hf⟩ := leads_of (e := e) fun x hx => h x (hp.mem_iff.mpr hx)
    refine Leads.unique ⟨?_, ?_⟩ (leads_of h)
    case refine_1 => exact (hp.cons e.identity).mem_iff.mpr hm
    case refine_2 => exact fun x hx => hf x ((hp.cons e.identity).mem_iff.mp hx)
  case inr => rw [of_nan ⟨x, hx, nx⟩, of_nan ⟨x, hp.mem_iff.mp hx, nx⟩]

-- What leads the leaders of two lists leads both lists.
theorem Leads.append {a b i : Number} (hx : e.Leads (i :: xs) a) (hy : e.Leads (i :: ys) b)
    (h : e.Leads [i, a, b] m) : e.Leads (i :: (xs ++ ys)) m := by
  have ⟨hi, hf⟩ := List.forall_mem_cons.mp h.first
  have ⟨ha, hf⟩ := List.forall_mem_cons.mp hf
  have ⟨hb, _⟩  := List.forall_mem_cons.mp hf
  constructor
  case mem =>
    have hm : m = i ∨ m = a ∨ m = b := by simpa using h.mem
    obtain rfl | rfl | rfl := hm
    case inl     => exact List.mem_cons_self
    case inr.inl => exact List.cons_subset_cons i (List.subset_append_left xs ys) hx.mem
    case inr.inr => exact List.cons_subset_cons i (List.subset_append_right xs ys) hy.mem
  case first =>
    refine List.forall_mem_cons.mpr ⟨hi, List.forall_mem_append.mpr ⟨fun x hm => ?_, fun y hm => ?_⟩⟩
    case refine_1 => exact ha.trans (hx.first x (List.mem_cons_of_mem i hm))
    case refine_2 => exact hb.trans (hy.first y (List.mem_cons_of_mem i hm))

theorem of_append : e.of (xs ++ ys) = e.of [e.of xs, e.of ys] := by
  have nan : Number.nan.isNaN = true := by decide
  obtain hx | ⟨x, hx, nx⟩ := ordered_or_nan xs
  case inr =>
    rw [of_nan ⟨x, List.mem_append_left ys hx, nx⟩, of_nan ⟨x, hx, nx⟩, of_nan ⟨_, List.mem_cons_self, nan⟩]
  case inl =>
    obtain hy | ⟨y, hy, ny⟩ := ordered_or_nan ys
    case inr =>
      rw [of_nan ⟨y, List.mem_append_right xs hy, ny⟩, of_nan ⟨y, hy, ny⟩, of_nan ⟨.nan, by simp, nan⟩]
    case inl =>
      have hb : Ordered [e.of xs, e.of ys] := .cons (ordered_of hx) (.cons (ordered_of hy) .nil)
      exact (leads_of (hx.append hy)).unique ((leads_of hx).append (leads_of hy) (leads_of hb))

-- Negation turns the order around.
theorem Leads.neg (h : Ordered xs) (hm : Leads .least (xs.map (-·)) m) : Leads .greatest xs (-m) := by
  have nm := h.map_neg m hm.mem
  constructor
  case mem =>
    obtain ⟨x, hx, rfl⟩ := List.mem_map.mp hm.mem
    rwa [Number.neg_neg_eq (h x hx)]
  case first =>
    intro x hx
    have hf : m.place ≤ Number.place (-x) := hm.first (-x) (List.mem_map_of_mem hx)
    change -Number.place (-m) ≤ -x.place
    rw [Number.place_neg (h x hx)] at hf
    rw [Number.place_neg nm]
    omega

theorem greatest_of : of .greatest xs = -of .least (xs.map (-·)) := by
  obtain h | ⟨x, hx, nx⟩ := ordered_or_nan xs
  case inl =>
    have hi : least.identity = -greatest.identity := by decide
    have hl := leads_of (e := .least) h.map_neg
    rw [hi, ← List.map_cons] at hl
    exact Leads.unique (leads_of h) (hl.neg (h.cons ordered_identity))
  case inr =>
    obtain rfl := Number.eq_nan nx
    have hn : -Number.nan = .nan := by decide
    rw [of_nan ⟨_, hx, nx⟩, of_nan ⟨-.nan, List.mem_map_of_mem hx, by decide⟩, hn]

-- The numbers have a total order from -Infinity to Infinity, and the least and the greatest of some numbers are
-- its bounds. Where there is a NaN there are none, and among no numbers each is the infinity at the other end.
theorem extremum_bounds :
    IsStrictTotalOrder {x : Number // x.isNaN = false} (fun x y => x.val.Below y.val) ∧
    of .least [] = .infinity ∧ of .greatest [] = -.infinity ∧
    (∀ xs, of .greatest xs = -of .least (xs.map (-·))) ∧
    ∀ (e : Extremum) (xs : List Number),
      ((∃ x ∈ xs, x.isNaN = true) → e.of xs = .nan) ∧
      (xs ≠ [] → (∀ x ∈ xs, x.isNaN = false) →
        e.of xs ∈ xs ∧ ∀ x ∈ xs, x = e.of xs ∨ e.Before (e.of xs) x) ∧
      (∀ ys, xs.Perm ys → e.of ys = e.of xs) ∧
      ∀ ys, e.of (xs ++ ys) = e.of [e.of xs, e.of ys] := by
  refine ⟨Number.below_total, rfl, rfl, fun _ => greatest_of, fun e xs =>
    ⟨of_nan, fun hn h => ?_, fun _ => of_perm, fun _ => of_append⟩⟩
  have hl := leads_of_ne_nil (e := e) h hn
  refine ⟨hl.mem, fun x hx => ?_⟩
  rw [before_iff (h _ hl.mem) (h x hx)]
  exact (hl.first x hx).eq_or_lt.imp_left fun hp => (place_injective hp).symm

-- Zeros of both signs, and a NaN between two numbers.
theorem extremum_bounds_of_zeros :
    let xs : List Number := [0, -0, .infinity]
    let ys : List Number := [1, .nan, 2]
    (xs ≠ [] ∧ ∀ x ∈ xs, x.isNaN = false) ∧ of .least xs = -0 ∧
      (-0 ∈ xs ∧ ∀ x ∈ xs, x = -0 ∨ least.Before (-0) x) ∧
      xs.Perm [-0, 0, .infinity] ∧ of .least [-0, 0, .infinity] = -0 ∧
      (∃ y ∈ ys, y.isNaN = true) ∧ of .least ys = .nan := by
  intro xs ys
  have hn : xs ≠ [] := List.cons_ne_nil _ _
  have ho : ∀ x ∈ xs, x.isNaN = false := by decide
  have hm : of .least xs = -0 := by decide
  have hp : xs.Perm [-0, 0, .infinity] := .swap _ _ _
  have hy : ∃ y ∈ ys, y.isNaN = true := by decide
  obtain ⟨-, hb, hperm, -⟩ := extremum_bounds.2.2.2.2 .least xs
  rw [hm] at hb hperm
  exact ⟨⟨hn, ho⟩, hm, hb hn ho, hp, hperm _ hp, hy, (extremum_bounds.2.2.2.2 .least ys).1 hy⟩

end Extremum

end Calculator
