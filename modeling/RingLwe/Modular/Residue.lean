import RingLwe.Breach

/-!
# Residues of word-sized moduli

A residue modulo a word `q` is a word; it is reduced when it is below `q`.
This module holds the arithmetic of residues: sums, products, powers and
inverses, and the embedding of signed integers by their residue in `[0, q)`.

Sums, products and powers reduce whatever words they are given.  Differences
and negatives are those of the ring on reduced words.  Every answer below is
described by its natural number (`toNat_add`, `toNat_addReduced`, `toNat_mul`,
`toNat_sub`, `toNat_neg`, `toNat_ofInt`).
-/

set_option autoImplicit false

namespace RingLwe.Residue

/-- The sum of two words modulo `q`. -/
def add (left right q : UInt64) : UInt64 :=
  ((left.toNat + right.toNat) % q.toNat).toUInt64

/-- The product of two words modulo `q`. -/
def mul (left right q : UInt64) : UInt64 :=
  (left.toNat * right.toNat % q.toNat).toUInt64

/-- The sum of two reduced words modulo `q`, by at most one subtraction. -/
@[inline]
def addReduced (left right q : UInt64) : UInt64 :=
  if q ≤ left + right then left + right - q else left + right

/-- The difference of two reduced words modulo `q`. -/
@[inline]
def sub (left right q : UInt64) : UInt64 :=
  if right ≤ left then left - right else q - (right - left)

/-- The negative of a reduced word modulo `q`. -/
@[inline]
def neg (word q : UInt64) : UInt64 :=
  if word = 0 then 0 else q - word

/-! ## Signed integers -/

/-- The residue of an integer in `[0, q)`. -/
def ofInt (number : Int) (q : UInt64) : UInt64 :=
  (number % (q.toNat : Int)).toNat.toUInt64

/-- The representative of a reduced word in `[-q/2, q/2)`: words above `(q - 1) / 2` are negative. -/
def toInt (word q : UInt64) : Int :=
  if word.toNat ≤ (q.toNat - 1) / 2 then (word.toNat : Int) else (word.toNat : Int) - q.toNat

/-! ## Powers -/

/-- Multiplies `result` by the power of `base` whose exponent is the low `bits` of `exponent`,
one squaring for each bit until the exponent is used up. -/
def powFrom (q : UInt64) : Nat → UInt64 → UInt64 → UInt64 → UInt64
  | 0, result, _, _ => result
  | bits + 1, result, base, exponent =>
    if exponent = 0 then
      result
    else
      powFrom q bits (if exponent &&& 1 = 1 then mul result base q else result)
        (mul base base q) (exponent >>> 1)

/-- The power of a word modulo `q`. -/
def pow (base exponent q : UInt64) : UInt64 :=
  powFrom q 64 (1 % q) (base % q) exponent

/-- The power of a word modulo a word above one.  It starts from the word one as it is, which is
reduced modulo every such word. -/
def powAboveOne (base exponent q : UInt64) : UInt64 :=
  powFrom q 64 1 (base % q) exponent

/-! ## Inverses -/

/-- A state of the extended division algorithm for a word and a modulus: two consecutive
remainders and the coefficients of the word in them. -/
structure Euclid where
  remainder : Nat
  next : Nat
  coefficient : Int
  nextCoefficient : Int
deriving DecidableEq, Repr

namespace Euclid

/-- The state in which the algorithm starts. -/
def start (word q : UInt64) : Euclid :=
  ⟨q.toNat, word.toNat % q.toNat, 0, 1⟩

/-- One division of the older remainder by the newer one. -/
def step (state : Euclid) : Euclid where
  remainder := state.next
  next := state.remainder % state.next
  coefficient := state.nextCoefficient
  nextCoefficient :=
    state.coefficient - ((state.remainder / state.next : Nat) : Int) * state.nextCoefficient

/-- Divides until nothing remains. -/
def run (state : Euclid) : Euclid :=
  if state.next = 0 then state else run state.step
termination_by state.next
decreasing_by
  exact Nat.mod_lt _ (Nat.pos_of_ne_zero (by assumption))

end Euclid

/-- The inverse of a word modulo `q`, if it has one. -/
def inverse? (word q : UInt64) : Option UInt64 :=
  let last := (Euclid.start word q).run
  if last.remainder = 1 then
    some (if last.coefficient < 0 then last.coefficient + q.toNat else last.coefficient).toNat.toUInt64
  else
    none

/-! ## Checked forms

The operations that divide by the modulus, refused for the modulus zero. -/

/-- An answer that divides by the modulus `q`. -/
def checked {α : Type} (q : UInt64) (answer : α) : Checked α :=
  Checked.unless (q == 0) .zeroModulus answer

/-- The checked form of `add`. -/
def checkedAdd (left right q : UInt64) : Checked UInt64 :=
  checked q (add left right q)

/-- The checked form of `mul`. -/
def checkedMul (left right q : UInt64) : Checked UInt64 :=
  checked q (mul left right q)

/-- The checked form of `pow`. -/
def checkedPow (base exponent q : UInt64) : Checked UInt64 :=
  checked q (pow base exponent q)

/-- The checked form of `ofInt`. -/
def checkedOfInt (number : Int) (q : UInt64) : Checked UInt64 :=
  checked q (ofInt number q)

/-- The checked form of `toInt`. -/
def checkedToInt (word q : UInt64) : Checked Int :=
  checked q (toInt word q)

/-- The checked form of `inverse?`. -/
def checkedInverse (word q : UInt64) : Checked (Option UInt64) :=
  checked q (inverse? word q)

/-! ## What the operations denote -/

theorem toNat_toUInt64_of_lt {number : Nat} {q : UInt64} (bound : number < q.toNat) :
    number.toUInt64.toNat = number := by
  rw [Nat.toUInt64_eq, UInt64.toNat_ofNat']
  exact Nat.mod_eq_of_lt (Nat.lt_trans bound q.toNat_lt)

theorem toNat_add {q : UInt64} (positive : 0 < q.toNat) (left right : UInt64) :
    (add left right q).toNat = (left.toNat + right.toNat) % q.toNat :=
  toNat_toUInt64_of_lt (Nat.mod_lt _ positive)

theorem toNat_mul {q : UInt64} (positive : 0 < q.toNat) (left right : UInt64) :
    (mul left right q).toNat = left.toNat * right.toNat % q.toNat :=
  toNat_toUInt64_of_lt (Nat.mod_lt _ positive)

theorem toNat_addReduced {left right q : UInt64} (half : 2 * q.toNat < UInt64.size)
    (leftReduced : left < q) (rightReduced : right < q) :
    (addReduced left right q).toNat = (left.toNat + right.toNat) % q.toNat := by
  have leftBound := UInt64.lt_iff_toNat_lt.mp leftReduced
  have rightBound := UInt64.lt_iff_toNat_lt.mp rightReduced
  simp only [UInt64.size] at half
  have exact : (left + right).toNat = left.toNat + right.toNat := by
    rw [UInt64.toNat_add]
    exact Nat.mod_eq_of_lt (by omega)
  unfold addReduced
  split
  next above =>
    have order := UInt64.le_iff_toNat_le.mp above
    rw [UInt64.toNat_sub_of_le _ _ above, exact, Nat.mod_eq_sub_mod (by omega),
      Nat.mod_eq_of_lt (by omega)]
  next below =>
    have order : left.toNat + right.toNat < q.toNat := by
      have := mt UInt64.le_iff_toNat_le.mpr below
      omega
    rw [exact, Nat.mod_eq_of_lt order]

theorem toNat_sub {left right q : UInt64} (leftReduced : left < q) (rightReduced : right < q) :
    (sub left right q).toNat = (left.toNat + (q.toNat - right.toNat)) % q.toNat := by
  have leftBound := UInt64.lt_iff_toNat_lt.mp leftReduced
  have rightBound := UInt64.lt_iff_toNat_lt.mp rightReduced
  unfold sub
  split
  next ordered =>
    have order := UInt64.le_iff_toNat_le.mp ordered
    rw [UInt64.toNat_sub_of_le _ _ ordered]
    have shift : left.toNat + (q.toNat - right.toNat) = (left.toNat - right.toNat) + q.toNat := by
      omega
    rw [shift, Nat.add_mod_right, Nat.mod_eq_of_lt (by omega)]
  next unordered =>
    have order : left.toNat < right.toNat := by
      have := mt UInt64.le_iff_toNat_le.mpr unordered
      omega
    have inner : (right - left).toNat = right.toNat - left.toNat :=
      UInt64.toNat_sub_of_le _ _ (UInt64.le_iff_toNat_le.mpr (by omega))
    have outer : right - left ≤ q := UInt64.le_iff_toNat_le.mpr (by omega)
    rw [UInt64.toNat_sub_of_le _ _ outer, inner, Nat.mod_eq_of_lt (by omega)]
    omega

theorem toNat_neg {word q : UInt64} (reduced : word < q) :
    (neg word q).toNat = (q.toNat - word.toNat) % q.toNat := by
  have bound := UInt64.lt_iff_toNat_lt.mp reduced
  unfold neg
  split
  next zero =>
    subst zero
    simp
  next nonzero =>
    have positive : word.toNat ≠ 0 := fun zero => nonzero (UInt64.toNat_inj.mp zero)
    rw [UInt64.toNat_sub_of_le _ _ (UInt64.le_iff_toNat_le.mpr (by omega)),
      Nat.mod_eq_of_lt (by omega)]

theorem toNat_ofInt {q : UInt64} (positive : 0 < q.toNat) (number : Int) :
    ((ofInt number q).toNat : Int) = number % (q.toNat : Int) := by
  have lower := Int.emod_nonneg number (b := (q.toNat : Int)) (by omega)
  have upper := Int.emod_lt_of_pos number (b := (q.toNat : Int)) (by omega)
  have bound : (number % (q.toNat : Int)).toNat < q.toNat := by omega
  rw [ofInt, toNat_toUInt64_of_lt bound]
  omega

end RingLwe.Residue
