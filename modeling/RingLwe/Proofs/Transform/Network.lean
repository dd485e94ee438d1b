import Mathlib
import RingLwe.Transform.Network

/-!
# What butterfly networks compute

A network over words that stand for elements of a ring computes what the
network over the ring computes (`Reading.forward`, `Reading.inverse`).

Over a commutative ring the two networks undo each other up to the factor
`2^depth`, when their twiddle factors are inverse to each other
(`ringInverse_ringForward`, `ringForward_ringInverse`).
-/

set_option autoImplicit false

namespace RingLwe.Network

/-! ## Lengths -/

section Length

variable {α : Type} (add sub mul : α → α → α) (twiddle : Nat → α)

theorem length_forward (depth node : Nat) (values : List α) (full : values.length = 2 ^ depth) :
    (forward add sub mul twiddle depth node values).length = 2 ^ depth := by
  induction depth generalizing node values with
  | zero => exact full
  | succ depth ih =>
    simp only [forward, Nat.one_shiftLeft, List.length_append]
    rw [Nat.pow_succ] at full ⊢
    rw [ih _ _ (by simp; omega), ih _ _ (by simp; omega)]
    omega

theorem length_inverse (depth node : Nat) (values : List α) (full : values.length = 2 ^ depth) :
    (inverse add sub mul twiddle depth node values).length = 2 ^ depth := by
  induction depth generalizing node values with
  | zero => exact full
  | succ depth ih =>
    rw [Nat.pow_succ] at full ⊢
    have low := ih (2 * node) (values.take (2 ^ depth)) (by simp; omega)
    have high := ih (2 * node + 1) (values.drop (2 ^ depth)) (by simp; omega)
    simp only [inverse, Nat.one_shiftLeft, List.length_append, List.length_map,
      List.length_zipWith, low, high]
    omega

end Length

/-! ## Two halves -/

section Append

variable {α : Type} (add sub mul : α → α → α) (twiddle : Nat → α) {depth : Nat} (node : Nat)
  {low : List α} (high : List α) (lowFull : low.length = 2 ^ depth)
include lowFull

theorem forward_append : forward add sub mul twiddle (depth + 1) node (low ++ high) =
    forward add sub mul twiddle depth (2 * node)
        (List.zipWith (fun left right => add left (mul right (twiddle node))) low high) ++
      forward add sub mul twiddle depth (2 * node + 1)
        (List.zipWith (fun left right => sub left (mul right (twiddle node))) low high) := by
  simp only [forward, Nat.one_shiftLeft, List.take_left' lowFull, List.drop_left' lowFull,
    List.zipWith_map_right]

theorem inverse_append : inverse add sub mul twiddle (depth + 1) node (low ++ high) =
    List.zipWith add (inverse add sub mul twiddle depth (2 * node) low)
        (inverse add sub mul twiddle depth (2 * node + 1) high) ++
      List.zipWith (fun left right => mul (sub left right) (twiddle node))
        (inverse add sub mul twiddle depth (2 * node) low)
        (inverse add sub mul twiddle depth (2 * node + 1) high) := by
  simp only [inverse, Nat.one_shiftLeft, List.take_left' lowFull, List.drop_left' lowFull,
    List.map_zipWith]

end Append

section Ring

variable {R : Type} [CommRing R]

/-- The forward network over a ring. -/
def ringForward (twiddle : Nat → R) (depth node : Nat) (values : List R) : List R :=
  Network.forward (· + ·) (· - ·) (· * ·) twiddle depth node values

/-- The inverse network over a ring. -/
def ringInverse (twiddle : Nat → R) (depth node : Nat) (values : List R) : List R :=
  Network.inverse (· + ·) (· - ·) (· * ·) twiddle depth node values

end Ring

/-! ## Words that stand for ring elements -/

/-- Operations on words, some of them valid, and the ring elements for which the words stand. -/
structure Reading {α R : Type} [CommRing R] (add sub mul : α → α → α) (valid : α → Prop)
    (view : α → R) : Prop where
  valid_add : ∀ left right, valid left → valid right → valid (add left right)
  valid_sub : ∀ left right, valid left → valid right → valid (sub left right)
  valid_mul : ∀ left right, valid left → valid right → valid (mul left right)
  view_add : ∀ left right, valid left → valid right →
    view (add left right) = view left + view right
  view_sub : ∀ left right, valid left → valid right →
    view (sub left right) = view left - view right
  view_mul : ∀ left right, valid left → valid right →
    view (mul left right) = view left * view right

/-- Pointwise combinations of valid words by an operation that keeps them valid. -/
theorem forall_mem_zipWith {α : Type} {operation : α → α → α} {valid : α → Prop}
    (keeps : ∀ left right, valid left → valid right → valid (operation left right))
    {left right : List α} (leftValid : ∀ word ∈ left, valid word)
    (rightValid : ∀ word ∈ right, valid word) :
    ∀ word ∈ List.zipWith operation left right, valid word := by
  intro word member
  rw [← List.map_uncurry_zip_eq_zipWith] at member
  obtain ⟨⟨first, second⟩, inside, rfl⟩ := List.mem_map.mp member
  obtain ⟨firstMember, secondMember⟩ := List.of_mem_zip inside
  exact keeps first second (leftValid first firstMember) (rightValid second secondMember)

/-- Pointwise combination of valid words by an operation that the reading carries over. -/
theorem zipWith_reading {α R : Type} {operation : α → α → α} {ringOperation : R → R → R}
    {valid : α → Prop} {view : α → R}
    (keeps : ∀ left right, valid left → valid right → valid (operation left right))
    (carries : ∀ left right, valid left → valid right →
      view (operation left right) = ringOperation (view left) (view right))
    {left right : List α} (leftValid : ∀ word ∈ left, valid word)
    (rightValid : ∀ word ∈ right, valid word) :
    (∀ word ∈ List.zipWith operation left right, valid word) ∧
      (List.zipWith operation left right).map view =
        List.zipWith ringOperation (left.map view) (right.map view) := by
  refine ⟨forall_mem_zipWith keeps leftValid rightValid, ?_⟩
  rw [List.map_zipWith, List.zipWith_map, ← List.map_uncurry_zip_eq_zipWith,
    ← List.map_uncurry_zip_eq_zipWith]
  refine List.map_congr_left fun pair inside => ?_
  obtain ⟨firstMember, secondMember⟩ := List.of_mem_zip inside
  exact carries pair.1 pair.2 (leftValid _ firstMember) (rightValid _ secondMember)

namespace Reading

variable {α R : Type} [CommRing R] {add sub mul : α → α → α} {valid : α → Prop} {view : α → R}
  (reading : Reading add sub mul valid view) {twiddle : Nat → α}
  (twiddleValid : ∀ node, valid (twiddle node))
include reading twiddleValid

/-- Scaling valid words by a twiddle factor. -/
theorem scale {values : List α} (valuesValid : ∀ word ∈ values, valid word) (node : Nat) :
    (∀ word ∈ values.map (mul · (twiddle node)), valid word) ∧
      (values.map (mul · (twiddle node))).map view =
        (values.map view).map (· * view (twiddle node)) := by
  constructor
  · intro word member
    obtain ⟨value, inside, rfl⟩ := List.mem_map.mp member
    exact reading.valid_mul _ _ (valuesValid value inside) (twiddleValid node)
  · rw [List.map_map, List.map_map]
    exact List.map_congr_left fun value inside =>
      reading.view_mul _ _ (valuesValid value inside) (twiddleValid node)

/-- The forward network over words computes the forward network over the ring. -/
theorem forward (depth node : Nat) {values : List α} (valuesValid : ∀ word ∈ values, valid word) :
    (∀ word ∈ Network.forward add sub mul twiddle depth node values, valid word) ∧
      (Network.forward add sub mul twiddle depth node values).map view =
        ringForward (view ∘ twiddle) depth node (values.map view) := by
  induction depth generalizing node values with
  | zero => exact ⟨valuesValid, rfl⟩
  | succ depth ih =>
    have lowValid : ∀ word ∈ values.take (1 <<< depth), valid word :=
      fun word member => valuesValid word (List.mem_of_mem_take member)
    have dropped : ∀ word ∈ values.drop (1 <<< depth), valid word :=
      fun word member => valuesValid word (List.mem_of_mem_drop member)
    obtain ⟨highValid, high⟩ := reading.scale twiddleValid dropped node
    obtain ⟨sumsValid, sums⟩ :=
      zipWith_reading reading.valid_add reading.view_add lowValid highValid
    obtain ⟨differencesValid, differences⟩ :=
      zipWith_reading reading.valid_sub reading.view_sub lowValid highValid
    obtain ⟨firstValid, first⟩ := ih (2 * node) sumsValid
    obtain ⟨secondValid, second⟩ := ih (2 * node + 1) differencesValid
    constructor
    · exact List.forall_mem_append.mpr ⟨firstValid, secondValid⟩
    · simp only [ringForward, Network.forward, List.map_append, first, second, sums, differences, high,
        ← List.map_take, ← List.map_drop, Function.comp_apply]

/-- The inverse network over words computes the inverse network over the ring. -/
theorem inverse (depth node : Nat) {values : List α} (valuesValid : ∀ word ∈ values, valid word) :
    (∀ word ∈ Network.inverse add sub mul twiddle depth node values, valid word) ∧
      (Network.inverse add sub mul twiddle depth node values).map view =
        ringInverse (view ∘ twiddle) depth node (values.map view) := by
  induction depth generalizing node values with
  | zero => exact ⟨valuesValid, rfl⟩
  | succ depth ih =>
    have taken : ∀ word ∈ values.take (1 <<< depth), valid word :=
      fun word member => valuesValid word (List.mem_of_mem_take member)
    have dropped : ∀ word ∈ values.drop (1 <<< depth), valid word :=
      fun word member => valuesValid word (List.mem_of_mem_drop member)
    obtain ⟨lowValid, low⟩ := ih (2 * node) taken
    obtain ⟨highValid, high⟩ := ih (2 * node + 1) dropped
    obtain ⟨sumsValid, sums⟩ :=
      zipWith_reading reading.valid_add reading.view_add lowValid highValid
    obtain ⟨differencesValid, differences⟩ :=
      zipWith_reading reading.valid_sub reading.view_sub lowValid highValid
    obtain ⟨scaledValid, scaled⟩ := reading.scale twiddleValid differencesValid node
    constructor
    · exact List.forall_mem_append.mpr ⟨sumsValid, scaledValid⟩
    · simp only [ringInverse, Network.inverse, List.map_append, sums, scaled, differences, low, high,
        ← List.map_take, ← List.map_drop, Function.comp_apply]

end Reading

/-! ## Halves of lists -/

section Halves

variable {α : Type}

/-- A list of twice a length is two lists of that length. -/
theorem halves {depth : Nat} {values : List α} (full : values.length = 2 ^ (depth + 1)) :
    ∃ low high, values = low ++ high ∧ low.length = 2 ^ depth ∧ high.length = 2 ^ depth := by
  rw [Nat.pow_succ] at full
  refine ⟨values.take (2 ^ depth), values.drop (2 ^ depth),
    (List.take_append_drop _ _).symm, ?_, ?_⟩
  · rw [List.length_take]
    omega
  · rw [List.length_drop]
    omega

/-- Two combinations of lists that combine to the left items. -/
theorem zipWith_zipWith_eq_map_left {first second combine : α → α → α} {image : α → α}
    (restores : ∀ left right, combine (first left right) (second left right) = image left)
    {low high : List α} (even : low.length = high.length) :
    List.zipWith combine (List.zipWith first low high) (List.zipWith second low high) =
      low.map image := by
  induction low generalizing high with
  | nil => rfl
  | cons left low ih =>
    cases high with
    | nil => cases even
    | cons right high =>
      simp only [List.zipWith_cons_cons, List.map_cons, restores, ih (Nat.succ.inj even)]

theorem zipWith_zipWith_eq_map_right {first second combine : α → α → α} {image : α → α}
    (restores : ∀ left right, combine (first left right) (second left right) = image right)
    {low high : List α} (even : low.length = high.length) :
    List.zipWith combine (List.zipWith first low high) (List.zipWith second low high) =
      high.map image := by
  rw [List.zipWith_comm (f := first), List.zipWith_comm (f := second)]
  exact zipWith_zipWith_eq_map_left (fun right left => restores left right) even.symm

end Halves

/-! ## Networks over a ring -/

section Ring

variable {R : Type} [CommRing R]

theorem length_ringForward (twiddle : Nat → R) {depth : Nat} (node : Nat) {values : List R}
    (full : values.length = 2 ^ depth) :
    (ringForward twiddle depth node values).length = 2 ^ depth :=
  length_forward _ _ _ twiddle depth node values full

theorem length_ringInverse (twiddle : Nat → R) {depth : Nat} (node : Nat) {values : List R}
    (full : values.length = 2 ^ depth) :
    (ringInverse twiddle depth node values).length = 2 ^ depth :=
  length_inverse _ _ _ twiddle depth node values full

theorem ringForward_append (twiddle : Nat → R) {depth : Nat} (node : Nat) {low : List R}
    (high : List R) (lowFull : low.length = 2 ^ depth) :
    ringForward twiddle (depth + 1) node (low ++ high) =
      ringForward twiddle depth (2 * node)
          (List.zipWith (fun left right => left + right * twiddle node) low high) ++
        ringForward twiddle depth (2 * node + 1)
          (List.zipWith (fun left right => left - right * twiddle node) low high) :=
  forward_append _ _ _ twiddle node high lowFull

theorem ringInverse_append (twiddle : Nat → R) {depth : Nat} (node : Nat) {low : List R}
    (high : List R) (lowFull : low.length = 2 ^ depth) :
    ringInverse twiddle (depth + 1) node (low ++ high) =
      List.zipWith (· + ·) (ringInverse twiddle depth (2 * node) low)
          (ringInverse twiddle depth (2 * node + 1) high) ++
        List.zipWith (fun left right => (left - right) * twiddle node)
          (ringInverse twiddle depth (2 * node) low)
          (ringInverse twiddle depth (2 * node + 1) high) :=
  inverse_append _ _ _ twiddle node high lowFull

/-- The forward network is linear. -/
theorem ringForward_scale (twiddle : Nat → R) (factor : R) (depth node : Nat) (values : List R)
    (full : values.length = 2 ^ depth) :
    ringForward twiddle depth node (values.map (factor * ·)) =
      (ringForward twiddle depth node values).map (factor * ·) := by
  induction depth generalizing node values with
  | zero => rfl
  | succ depth ih =>
    obtain ⟨low, high, rfl, lowFull, highFull⟩ := halves full
    have sums := ih (2 * node) (List.zipWith (fun left right => left + right * twiddle node) low high)
      (by rw [List.length_zipWith, lowFull, highFull, Nat.min_self])
    have differences := ih (2 * node + 1)
      (List.zipWith (fun left right => left - right * twiddle node) low high)
      (by rw [List.length_zipWith, lowFull, highFull, Nat.min_self])
    rw [List.map_append, ringForward_append twiddle node _ (by rw [List.length_map, lowFull]),
      ringForward_append twiddle node _ lowFull, List.map_append, ← sums, ← differences]
    simp only [List.zipWith_map, List.map_zipWith, mul_add, mul_sub, mul_assoc]

/-! ### The networks undo each other -/

/-- Numbers of the children of a node, when the nodes below it lie within a bound. -/
theorem children_inside {bound depth node : Nat}
    (inside : (node + 1) * 2 ^ (depth + 1) ≤ 2 * bound) :
    node < bound ∧ (2 * node + 1) * 2 ^ depth ≤ 2 * bound ∧
      (2 * node + 1 + 1) * 2 ^ depth ≤ 2 * bound := by
  have expand : (2 * node + 1 + 1) * 2 ^ depth = (node + 1) * 2 ^ (depth + 1) := by ring
  have fewer : (2 * node + 1) * 2 ^ depth ≤ (2 * node + 1 + 1) * 2 ^ depth :=
    Nat.mul_le_mul_right _ (Nat.le_succ _)
  have single : (2 * node + 1 + 1) * 1 ≤ (2 * node + 1 + 1) * 2 ^ depth :=
    Nat.mul_le_mul_left _ Nat.one_le_two_pow
  omega

section Inverse

variable {twiddle inverseTwiddle : Nat → R} {bound : Nat}
  (units : ∀ node, 0 < node → node < bound → twiddle node * inverseTwiddle node = 1)
include units

/-- The inverse network undoes the forward network up to the size. -/
theorem ringInverse_ringForward (depth : Nat) {node : Nat} (present : 0 < node)
    (inside : (node + 1) * 2 ^ depth ≤ 2 * bound) {values : List R}
    (full : values.length = 2 ^ depth) :
    ringInverse inverseTwiddle depth node (ringForward twiddle depth node values) =
      values.map (2 ^ depth * ·) := by
  induction depth generalizing node values with
  | zero => simp [ringForward, ringInverse, Network.forward, Network.inverse]
  | succ depth ih =>
    obtain ⟨below, first, second⟩ := children_inside inside
    obtain ⟨low, high, rfl, lowFull, highFull⟩ := halves full
    have unit := units node present below
    have even : low.length = high.length := lowFull.trans highFull.symm
    have sumsFull : (List.zipWith (fun left right => left + right * twiddle node) low high).length =
        2 ^ depth := by rw [List.length_zipWith, ← even, Nat.min_self, lowFull]
    have differencesFull :
        (List.zipWith (fun left right => left - right * twiddle node) low high).length =
          2 ^ depth := by rw [List.length_zipWith, ← even, Nat.min_self, lowFull]
    rw [ringForward_append twiddle node high lowFull,
      ringInverse_append inverseTwiddle node _ (length_ringForward twiddle _ sumsFull),
      ih (by omega) first sumsFull, ih (by omega) second differencesFull, List.map_append]
    simp only [List.map_zipWith]
    congr 1
    · refine zipWith_zipWith_eq_map_left (fun left right => ?_) even
      ring
    · refine zipWith_zipWith_eq_map_right (fun left right => ?_) even
      linear_combination 2 * 2 ^ depth * right * unit

/-- The forward network undoes the inverse network up to the size. -/
theorem ringForward_ringInverse (depth : Nat) {node : Nat} (present : 0 < node)
    (inside : (node + 1) * 2 ^ depth ≤ 2 * bound) {values : List R}
    (full : values.length = 2 ^ depth) :
    ringForward twiddle depth node (ringInverse inverseTwiddle depth node values) =
      values.map (2 ^ depth * ·) := by
  induction depth generalizing node values with
  | zero => simp [ringForward, ringInverse, Network.forward, Network.inverse]
  | succ depth ih =>
    obtain ⟨below, first, second⟩ := children_inside inside
    obtain ⟨low, high, rfl, lowFull, highFull⟩ := halves full
    have unit := units node present below
    have lowBack := ih (by omega) first lowFull
    have highBack := ih (by omega) second highFull
    have lowLength : (ringInverse inverseTwiddle depth (2 * node) low).length = 2 ^ depth :=
      length_ringInverse inverseTwiddle _ lowFull
    have highLength : (ringInverse inverseTwiddle depth (2 * node + 1) high).length = 2 ^ depth :=
      length_ringInverse inverseTwiddle _ highFull
    rw [ringInverse_append inverseTwiddle node high lowFull]
    generalize ringInverse inverseTwiddle depth (2 * node) low = left at lowBack lowLength ⊢
    generalize ringInverse inverseTwiddle depth (2 * node + 1) high = right at highBack highLength ⊢
    have even : left.length = right.length := lowLength.trans highLength.symm
    have cut : (List.zipWith (· + ·) left right).length = 2 ^ depth := by
      rw [List.length_zipWith, ← even, Nat.min_self, lowLength]
    have sums : List.zipWith (fun sum difference => sum + difference * twiddle node)
        (List.zipWith (· + ·) left right)
        (List.zipWith (fun left right => (left - right) * inverseTwiddle node) left right) =
          left.map (2 * ·) := by
      refine zipWith_zipWith_eq_map_left (fun left right => ?_) even
      linear_combination (left - right) * unit
    have differences : List.zipWith (fun sum difference => sum - difference * twiddle node)
        (List.zipWith (· + ·) left right)
        (List.zipWith (fun left right => (left - right) * inverseTwiddle node) left right) =
          right.map (2 * ·) := by
      refine zipWith_zipWith_eq_map_right (fun left right => ?_) even
      linear_combination (right - left) * unit
    rw [ringForward_append twiddle node _ cut, sums, differences,
      ringForward_scale twiddle 2 depth _ _ lowLength,
      ringForward_scale twiddle 2 depth _ _ highLength, lowBack, highBack, ← List.map_append,
      ← List.map_append, List.map_map]
    refine List.map_congr_left ?_
    intro value _
    simp only [Function.comp_apply, pow_succ]
    ring

end Inverse

end Ring

end RingLwe.Network
