import RingLwe.Proofs.Modular.Euclid
import RingLwe.Proofs.Modular.Ranges

/-!
# Inverses with their ranges

The extended division algorithm keeps its remainders and coefficients in signed
double words.  Here every quotient, product, sum and difference is refused when
it leaves them, and the last coefficient when it is no word
(`inverseSigned?`).  The division truncates toward zero, so that the absolute
value of the newer remainder decreases and the algorithm ends for all numbers.

Each state that the algorithm passes has the numbers of a state over natural
remainders, for which the Bezout relations hold.  So its coefficients are at
most the modulus on either side, and no operation is refused
(`SignedEuclid.Reached.bounds`).  The answer is the inverse, for every word and
every positive modulus (`inverts_exactly`).
-/

set_option autoImplicit false

namespace RingLwe

/-! ## Signed double words -/

namespace Exact

/-- A number in a signed double word, unless it leaves it. -/
def signed (number : Int) : Option Int :=
  if -2 ^ 127 ≤ number ∧ number < 2 ^ 127 then some number else none

/-- The word of a number, unless it is negative or leaves the word. -/
def unsigned (number : Int) : Option UInt64 :=
  if 0 ≤ number ∧ number < UInt64.size then some number.toNat.toUInt64 else none

theorem signed_eq_some_iff {number value : Int} :
    signed number = some value ↔ (-2 ^ 127 ≤ number ∧ number < 2 ^ 127) ∧ number = value := by
  rw [signed, Option.ite_none_right_eq_some, Option.some.injEq]

theorem signed_of_le (q : UInt64) {number : Int} (bound : number.natAbs ≤ q.toNat) :
    signed number = some number := by
  have word := q.toNat_lt
  exact if_pos (by omega)

theorem signed_natCast (q : UInt64) {number : Nat} (bound : number ≤ q.toNat) :
    signed (number : Int) = some (number : Int) :=
  signed_of_le q (by rwa [Int.natAbs_natCast])

end Exact

namespace Residue

/-! ## The algorithm -/

/-- A state of the extended division algorithm whose numbers are signed double words. -/
structure SignedEuclid where
  remainder : Int
  next : Int
  coefficient : Int
  nextCoefficient : Int

namespace SignedEuclid

/-- The state in which the algorithm starts. -/
def start (word q : UInt64) : SignedEuclid :=
  ⟨q.toNat, (word % q).toNat, 0, 1⟩

/-- One division of the older remainder by the newer one, with its ranges. -/
def step? (state : SignedEuclid) : Option SignedEuclid := do
  let quotient ← Exact.signed (state.remainder.tdiv state.next)
  let scaled ← Exact.signed (quotient * state.nextCoefficient)
  let coefficient ← Exact.signed (state.coefficient - scaled)
  let multiple ← Exact.signed (quotient * state.next)
  let rest ← Exact.signed (state.remainder - multiple)
  some ⟨state.next, rest, state.nextCoefficient, coefficient⟩

theorem eq_of_step? {state after : SignedEuclid} (divided : state.step? = some after) :
    after = ⟨state.next, state.remainder.tmod state.next, state.nextCoefficient,
      state.coefficient - state.remainder.tdiv state.next * state.nextCoefficient⟩ := by
  simp only [step?, Option.bind_eq_bind, Option.bind_eq_some_iff, Exact.signed_eq_some_iff,
    Option.some.injEq] at divided
  obtain ⟨_, ⟨_, rfl⟩, _, ⟨_, rfl⟩, _, ⟨_, rfl⟩, _, ⟨_, rfl⟩, _, ⟨_, rfl⟩, rfl⟩ := divided
  rw [Int.tmod_def, mul_comm state.next]

theorem natAbs_next_lt {state after : SignedEuclid} (more : state.next ≠ 0)
    (divided : state.step? = some after) : after.next.natAbs < state.next.natAbs := by
  rw [eq_of_step? divided, Int.natAbs_tmod]
  exact Nat.mod_lt _ (Int.natAbs_pos.mpr more)

/-- Divides until nothing remains, with its ranges. -/
def run? (state : SignedEuclid) : Option SignedEuclid :=
  if state.next = 0 then
    some state
  else
    match _ : state.step? with
    | some after => run? after
    | none => none
termination_by state.next.natAbs
decreasing_by exact natAbs_next_lt (by assumption) (by assumption)

theorem run?_of_done {state : SignedEuclid} (done : state.next = 0) : state.run? = some state := by
  rw [run?, if_pos done]

theorem run?_of_more {state after : SignedEuclid} (more : state.next ≠ 0)
    (divided : state.step? = some after) : state.run? = after.run? := by
  rw [run?, if_neg more]
  split
  next other found => rw [Option.some.inj (divided.symm.trans found)]
  next refused => cases divided.symm.trans refused

/-- The states that the algorithm passes for a word and a modulus. -/
inductive Reached (word q : UInt64) : SignedEuclid → Prop
  | start : Reached word q (start word q)
  | step {state after : SignedEuclid} : Reached word q state → state.next ≠ 0 →
      state.step? = some after → Reached word q after

/-! ## Natural remainders -/

/-- The numbers of a state over natural remainders. -/
def ofEuclid (state : Euclid) : SignedEuclid :=
  ⟨state.remainder, state.next, state.coefficient, state.nextCoefficient⟩

theorem start_eq (word q : UInt64) : start word q = ofEuclid (Euclid.start word q) := by
  rw [start, UInt64.toNat_mod]
  rfl

section Relations

variable {word q : UInt64} (positive : 0 < q.toNat) {state : Euclid}
  (holds : Euclid.Bezout word.toNat q.toNat state)
include positive holds

/-- Where the relations hold, a division over natural remainders has all its numbers in range. -/
theorem step?_ofEuclid (more : state.next ≠ 0) :
    (ofEuclid state).step? = some (ofEuclid state.step) := by
  have divided : (state.remainder : Int).tdiv state.next =
      ((state.remainder / state.next : Nat) : Int) := (Int.ofNat_tdiv _ _).symm
  have rest : (state.remainder : Int) - ((state.remainder / state.next : Nat) : Int) * state.next =
      ((state.remainder % state.next : Nat) : Int) := by
    rw [Int.natCast_emod, Int.emod_def, Int.natCast_ediv, mul_comm]
  have top := holds.remainder_le positive
  have quotientFits := Exact.signed_natCast q
    (Nat.le_trans (Nat.div_le_self state.remainder state.next) top)
  have multipleFits := Exact.signed_natCast q
    (Nat.le_trans (Nat.div_mul_le_self state.remainder state.next) top)
  have restFits := Exact.signed_natCast q
    (Nat.le_trans (Nat.mod_le state.remainder state.next) top)
  have coefficientLe : (state.coefficient -
      ((state.remainder / state.next : Nat) : Int) * state.nextCoefficient).natAbs ≤ q.toNat :=
    (holds.step more).natAbs_le.2
  have coefficientFits := Exact.signed_of_le q coefficientLe
  have scaledLe : (((state.remainder / state.next : Nat) : Int) * state.nextCoefficient).natAbs ≤
      q.toNat := by
    rw [Euclid.natAbs_sub_mul_of_opposite holds.alternate] at coefficientLe
    rw [Int.natAbs_mul, Int.natAbs_natCast]
    omega
  have scaledFits := Exact.signed_of_le q scaledLe
  rw [Nat.cast_mul] at multipleFits
  simp only [step?, ofEuclid, Option.bind_eq_bind]
  rw [divided, quotientFits, Option.bind_some, scaledFits, Option.bind_some, coefficientFits,
    Option.bind_some, multipleFits, Option.bind_some, rest, restFits, Option.bind_some, Euclid.step]

theorem run?_ofEuclid : (ofEuclid state).run? = some (ofEuclid state.run) := by
  fun_induction Euclid.run state with
  | case1 state done => exact run?_of_done (Int.natCast_eq_zero.mpr done)
  | case2 state more ih =>
    rw [run?_of_more (mt Int.natCast_eq_zero.mp more) (step?_ofEuclid positive holds more)]
    exact ih (holds.step more)

end Relations

/-! ## What the algorithm passes -/

section Reached

variable {word q : UInt64} (positive : 0 < q.toNat) {state : SignedEuclid}
  (reached : Reached word q state)
include positive reached

/-- Every state that the algorithm passes has the numbers of one for which the relations hold. -/
theorem Reached.exists_bezout :
    ∃ natural, state = ofEuclid natural ∧ Euclid.Bezout word.toNat q.toNat natural := by
  induction reached with
  | start => exact ⟨_, start_eq word q, Euclid.bezout_start positive⟩
  | step _ more divided ih =>
    obtain ⟨natural, rfl, holds⟩ := ih
    have remains : natural.next ≠ 0 := mt Int.natCast_eq_zero.mpr more
    rw [step?_ofEuclid positive holds remains] at divided
    exact ⟨natural.step, (Option.some.inj divided).symm, holds.step remains⟩

/-- The coefficients stay within the modulus, and no division is refused. -/
theorem Reached.bounds :
    state.coefficient.natAbs ≤ q.toNat ∧ state.nextCoefficient.natAbs ≤ q.toNat ∧
      (state.next ≠ 0 → ∃ after, state.step? = some after) := by
  obtain ⟨natural, rfl, holds⟩ := reached.exists_bezout positive
  exact ⟨holds.natAbs_le.1, holds.natAbs_le.2, fun more =>
    ⟨_, step?_ofEuclid positive holds (mt Int.natCast_eq_zero.mpr more)⟩⟩

end Reached

end SignedEuclid

/-! ## The inverse -/

/-- A coefficient as a word, corrected by the modulus if it is negative, with its ranges. -/
def corrected? (coefficient : Int) (q : UInt64) : Option UInt64 :=
  if coefficient < 0 then do
    Exact.unsigned (← Exact.signed (coefficient + q.toNat))
  else
    Exact.unsigned coefficient

/-- The inverse of a word modulo `q`, with the ranges of the algorithm.  Outside of the answer stands
an operation that leaves its range. -/
def inverseSigned? (word q : UInt64) : Option (Option UInt64) := do
  let last ← (SignedEuclid.start word q).run?
  if last.remainder = 1 then
    (corrected? last.coefficient q).map some
  else
    some none

/-- One correction brings a coefficient within the modulus to a word. -/
theorem corrected?_eq {coefficient : Int} {q : UInt64} (small : coefficient.natAbs < q.toNat) :
    corrected? coefficient q =
      some (if coefficient < 0 then coefficient + q.toNat else coefficient).toNat.toUInt64 := by
  have word : q.toNat < UInt64.size := q.toNat_lt
  rw [corrected?]
  split
  next negative =>
    rw [Exact.signed_of_le q (by omega), Option.bind_eq_bind, Option.bind_some]
    exact if_pos (by omega)
  next nonnegative => exact if_pos (by omega)

section Inverse

variable {q : UInt64} (positive : 0 < q.toNat)
include positive

/-- No operation leaves its range, and the last coefficient is corrected to the inverse. -/
theorem inverseSigned?_eq (word : UInt64) : inverseSigned? word q = some (inverse? word q) := by
  have relations := @Euclid.bezout_start word q positive
  rw [inverseSigned?, SignedEuclid.start_eq, SignedEuclid.run?_ofEuclid positive relations,
    inverse?]
  simp only [Option.bind_eq_bind, Option.bind_some, SignedEuclid.ofEuclid, Nat.cast_eq_one]
  split
  next coprime =>
    rw [corrected?_eq (Euclid.coefficient_run_start positive coprime).2, Option.map_some]
  next => rfl

/-- For a positive modulus the extended division algorithm keeps its coefficients within the modulus on
either side, and ends without leaving its ranges.  It finds nothing exactly for the words that are
not coprime to the modulus, and otherwise the reduced word whose product with the given one is one. -/
theorem inverts_exactly (word : UInt64) :
    (∀ state, SignedEuclid.Reached word q state →
      state.coefficient.natAbs ≤ q.toNat ∧ state.nextCoefficient.natAbs ≤ q.toNat ∧
        (state.next ≠ 0 → ∃ after, state.step? = some after)) ∧
    inverseSigned? word q = some (inverse? word q) ∧
    (inverse? word q = none ↔ Nat.gcd word.toNat q.toNat ≠ 1) ∧
    ∀ found, inverse? word q = some found ↔
      found < q ∧ word.toNat * found.toNat ≡ 1 [MOD q.toNat] :=
  ⟨fun _ reached => reached.bounds positive, inverseSigned?_eq positive word,
    inverse?_eq_none_iff positive, fun _ => inverse?_eq_some_iff positive⟩

end Inverse

/-- Modulo the greatest word, the inverse of two is found without leaving the ranges, and three has
none.  Modulo one, every word has the inverse zero. -/
theorem inverts_greatest :
    inverseSigned? 2 18446744073709551615 = some (some 9223372036854775808) ∧
      inverse? 3 18446744073709551615 = none ∧ inverse? 5 1 = some 0 := by
  have greatest : 0 < (18446744073709551615 : UInt64).toNat := by decide
  obtain ⟨_, answers, _, found⟩ := inverts_exactly greatest 2
  obtain ⟨_, _, none, _⟩ := inverts_exactly greatest 3
  obtain ⟨_, _, _, trivial⟩ := inverts_exactly (by decide : 0 < (1 : UInt64).toNat) 5
  refine ⟨?_, none.mpr (by decide), (trivial 0).mpr ⟨by decide, by decide⟩⟩
  rw [answers, (found 9223372036854775808).mpr ⟨by decide, by decide⟩]

end Residue

end RingLwe
