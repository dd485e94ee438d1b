import Mathlib
import RingLwe.Modular.Residue
import RingLwe.Word.Wide

/-!
# Operations with their ranges

Sums, differences and products of words that are refused when they leave their
range (`Exact`): one word, or two words where an operation widens.  An algorithm
whose operations are all of this kind answers only if none of them overflows or
underflows.

The operations on residues have such forms.  They answer, and give what the
residues give, for reduced words (`addReduced?_eq`, `sub?_eq`, `difference?_eq`)
and, where they widen, for all words (`add?_eq`, `mul?_eq`).
-/

set_option autoImplicit false

namespace RingLwe

/-! ## Words -/

namespace Exact

/-- The sum of two words, unless it leaves the word. -/
def add (left right : UInt64) : Option UInt64 :=
  if left.toNat + right.toNat < UInt64.size then some (left + right) else none

/-- The difference of two words, unless it is negative. -/
def sub (left right : UInt64) : Option UInt64 :=
  if right ≤ left then some (left - right) else none

/-- The product of two words, unless it leaves two words. -/
def mulWide (left right : UInt64) : Option Wide :=
  if left.toNat * right.toNat < UInt64.size * UInt64.size then some (Wide.mul left right) else none

/-- The sum of two wide numbers, unless it leaves two words. -/
def addWide (left right : Wide) : Option Wide :=
  if left.toNat + right.toNat < UInt64.size * UInt64.size then some (left.add right) else none

/-- A number in two words, unless it leaves them. -/
def double (number : Nat) : Option Nat :=
  if number < UInt64.size * UInt64.size then some number else none

/-- A number in one word, unless it leaves the word. -/
def narrow (number : Nat) : Option UInt64 :=
  if number < UInt64.size then some number.toUInt64 else none

theorem double_mul (left right : UInt64) :
    double (left.toNat * right.toNat) = some (left.toNat * right.toNat) :=
  if_pos (Nat.mul_lt_mul'' left.toNat_lt right.toNat_lt)

theorem mulWide_eq (left right : UInt64) : mulWide left right = some (Wide.mul left right) :=
  if_pos (Nat.mul_lt_mul'' left.toNat_lt right.toNat_lt)

theorem sub_of_le_or_self (left right : UInt64) :
    (if right ≤ left then sub left right else some left) =
      some (if right ≤ left then left - right else left) := by
  split
  next above => exact if_pos above
  next => rfl

theorem toNat_lt_of_sub {left right rest : UInt64} (positive : 0 < right)
    (difference : sub left right = some rest) : rest.toNat < left.toNat := by
  obtain ⟨order, rfl⟩ : right ≤ left ∧ left - right = rest := by
    simpa only [sub, Option.ite_none_right_eq_some, Option.some.injEq] using difference
  have removed := UInt64.lt_iff_toNat_lt.mp positive
  have bound := UInt64.le_iff_toNat_le.mp order
  rw [UInt64.toNat_sub_of_le _ _ order]
  exact Nat.sub_lt (Nat.lt_of_lt_of_le removed bound) removed

theorem narrow_of_lt {number : Nat} (bound : number < UInt64.size) :
    ∃ word, narrow number = some word ∧ word.toNat = number :=
  ⟨number.toUInt64, if_pos bound, UInt64.toNat_ofNat_of_lt' bound⟩

theorem narrow_toNat (word : UInt64) : narrow word.toNat = some word := by
  rw [narrow, if_pos word.toNat_lt, Nat.toUInt64_eq, UInt64.ofNat_toNat]

theorem narrow_mod {q : UInt64} (positive : 0 < q.toNat) (number : Nat) :
    narrow (number % q.toNat) = some (number % q.toNat).toUInt64 :=
  if_pos (Nat.lt_trans (Nat.mod_lt _ positive) q.toNat_lt)

end Exact

/-! ## Residues -/

namespace Residue

/-- The sum of two words modulo `q`, with its ranges. -/
def add? (left right q : UInt64) : Option UInt64 := do
  let sum ← Exact.double (left.toNat + right.toNat)
  Exact.narrow (sum % q.toNat)

/-- The product of two words modulo `q`, with its ranges. -/
def mul? (left right q : UInt64) : Option UInt64 := do
  let product ← Exact.double (left.toNat * right.toNat)
  Exact.narrow (product % q.toNat)

/-- The sum of two residues, with its ranges. -/
def addReduced? (left right q : UInt64) : Option UInt64 := do
  let sum ← Exact.add left right
  if q ≤ sum then Exact.sub sum q else some sum

/-- The difference of two residues, with its ranges.  A negative difference is taken by way of
`q - right`. -/
def sub? (left right q : UInt64) : Option UInt64 :=
  if right ≤ left then Exact.sub left right else do Exact.add (← Exact.sub q right) left

/-- The difference of two residues, with its ranges.  A negative difference is taken off the
modulus. -/
def difference? (left right q : UInt64) : Option UInt64 :=
  if right ≤ left then Exact.sub left right else do Exact.sub q (← Exact.sub right left)

/-- The negative of a residue, with its range. -/
def neg? (word q : UInt64) : Option UInt64 :=
  if word = 0 then some 0 else Exact.sub q word

theorem neg?_eq {word q : UInt64} (reduced : word < q) : neg? word q = some (neg word q) := by
  rw [neg?, neg]
  split
  next => rfl
  next => exact if_pos (UInt64.le_of_lt reduced)

theorem add?_eq {q : UInt64} (positive : 0 < q.toNat) (left right : UInt64) :
    add? left right q = some (add left right q) := by
  have leftBound := left.toNat_lt
  have rightBound := right.toNat_lt
  have sum : Exact.double (left.toNat + right.toNat) = some (left.toNat + right.toNat) :=
    if_pos (by simp only [UInt64.size]; omega)
  rw [add?, sum, Option.bind_eq_bind, Option.bind_some, Exact.narrow_mod positive, add]

theorem mul?_eq {q : UInt64} (positive : 0 < q.toNat) (left right : UInt64) :
    mul? left right q = some (mul left right q) := by
  rw [mul?, Exact.double_mul, Option.bind_eq_bind, Option.bind_some, Exact.narrow_mod positive, mul]

theorem difference?_eq {left right q : UInt64} (rightReduced : right < q) :
    difference? left right q = some (sub left right q) := by
  rw [difference?, sub]
  split
  next ordered => exact if_pos ordered
  next unordered =>
    have order : left ≤ right := UInt64.le_of_lt (UInt64.not_le.mp unordered)
    have below : right - left ≤ q :=
      UInt64.le_trans (UInt64.sub_le order) (UInt64.le_of_lt rightReduced)
    rw [Exact.sub, if_pos order, Option.bind_eq_bind, Option.bind_some, Exact.sub, if_pos below]

variable {left right q : UInt64} (leftReduced : left < q) (rightReduced : right < q)
  (half : 2 * q.toNat < UInt64.size)
include leftReduced rightReduced half

theorem addReduced?_eq : addReduced? left right q = some (addReduced left right q) := by
  have leftBound := UInt64.lt_iff_toNat_lt.mp leftReduced
  have rightBound := UInt64.lt_iff_toNat_lt.mp rightReduced
  have sum : Exact.add left right = some (left + right) := if_pos (by omega)
  rw [addReduced?, sum, Option.bind_eq_bind, Option.bind_some, Exact.sub_of_le_or_self, addReduced]

theorem sub?_eq : sub? left right q = some (sub left right q) := by
  have leftBound := UInt64.lt_iff_toNat_lt.mp leftReduced
  have rightBound := UInt64.lt_iff_toNat_lt.mp rightReduced
  rw [sub?, sub]
  split
  next ordered => exact if_pos ordered
  next unordered =>
    have order : left.toNat < right.toNat := UInt64.lt_iff_toNat_lt.mp (UInt64.not_le.mp unordered)
    have below : right ≤ q := UInt64.le_iff_toNat_le.mpr (by omega)
    have rest : Exact.sub q right = some (q - right) := if_pos below
    have difference := UInt64.toNat_sub_of_le _ _ below
    rw [rest, Option.bind_eq_bind, Option.bind_some, Exact.add, if_pos (by omega)]
    congr 1
    grind

end Residue

end RingLwe
