import RingLwe.Proofs.Modular.Search
import RingLwe.Proofs.Transform.Reduction
import RingLwe.Proofs.Transform.Reversal

/-!
# Filling the table of twiddle factors

The table of a root filled from the front, in place.  The entry of a power of
two is found by repeated multiplication with the root, and every other entry as
the product of two entries before it: those of the lowest bit of its number and
of the rest of the number (`Twiddle.entryOf?`).  The operations on numbers have
their ranges, the multiplications theirs, and every entry that is read or
written has to be inside of the table.

The lowest bit and the rest are disjoint and add up to the number, and unless
the number is a power of two both are positive and so come before it
(`lowestBit_spec`).  Reversal is additive over disjoint bits.  So each step
leaves one more entry with the power whose exponent is the reversed number
(`FilledTo.fillAt_spec`), and the whole table has them at every positive number
(`fills_reversed`), where they are the entries of the table made by doubling.
-/

set_option autoImplicit false

namespace RingLwe

/-! ## The lowest bit of a word -/

section LowestBit

open Residue

variable {number : UInt64} (positive : 0 < number.toNat)
include positive

/-- The negative of a word is found from its complement without a carry out of the word. -/
theorem complement_add_one : Exact.add (~~~number) 1 = some (~~~(number - 1)) := by
  have bound := number.toNat_lt
  have fits : (~~~number).toNat + (1 : UInt64).toNat < UInt64.size := by
    rw [UInt64.toNat_not, UInt64.toNat_one]
    simp only [UInt64.size]
    omega
  rw [Exact.add, if_pos fits, Option.some.injEq, ← UInt64.toNat_inj, UInt64.toNat_add,
    Nat.mod_eq_of_lt fits, UInt64.toNat_not, UInt64.toNat_not, toNat_sub_one positive, UInt64.toNat_one]
  simp only [UInt64.size]
  omega

omit positive in
/-- A word is cut by a mask into two words without a common bit. -/
theorem cut_spec (number mask : UInt64) :
    (number &&& mask).toNat &&& (number &&& ~~~mask).toNat = 0 ∧
      (number &&& mask).toNat + (number &&& ~~~mask).toNat = number.toNat := by
  have disjoint : (number &&& mask) &&& (number &&& ~~~mask) = 0 := by
    rw [UInt64.and_comm number (~~~mask), UInt64.and_assoc, ← UInt64.and_assoc mask,
      UInt64.and_not_self, UInt64.zero_and, UInt64.and_zero]
  have whole : (number &&& mask) ||| (number &&& ~~~mask) = number := by
    refine UInt64.toBitVec_inj.mp (BitVec.eq_of_getLsbD_eq fun index inside => ?_)
    simp [inside, ← Bool.and_or_distrib_left]
  constructor
  · rw [← UInt64.toNat_and, disjoint, UInt64.toNat_zero]
  · have bits : (number &&& mask).toBitVec &&& (number &&& ~~~mask).toBitVec = 0#64 := by
      rw [← UInt64.toBitVec_and, disjoint, UInt64.toBitVec_zero]
    rw [← UInt64.toNat_toBitVec, ← UInt64.toNat_toBitVec, ← BitVec.toNat_add_of_and_eq_zero bits,
      BitVec.add_eq_or_of_and_eq_zero _ _ bits, ← UInt64.toBitVec_or, whole, UInt64.toNat_toBitVec]

/-- The lowest bit of a word that is no power of two, and the rest of the word, come before the word. -/
theorem lowestBit_spec (composite : ¬isPowerOfTwo number.toNat = true) :
    0 < (number &&& (number - 1)).toNat ∧ (number &&& (number - 1)).toNat < number.toNat ∧
      0 < (number &&& ~~~(number - 1)).toNat ∧
      (number &&& ~~~(number - 1)).toNat < number.toNat := by
  have less := toNat_sub_one positive
  have rest : 0 < (number &&& (number - 1)).toNat := by
    rw [UInt64.toNat_and, less, Nat.pos_iff_ne_zero, ne_eq,
      Nat.and_sub_one_eq_zero_iff_isPowerOfTwo (Nat.pos_iff_ne_zero.mp positive)]
    exact fun power => composite (isPowerOfTwo_iff.mpr power)
  have smaller : (number &&& (number - 1)).toNat ≤ number.toNat - 1 := by
    rw [UInt64.toNat_and, less]
    exact Nat.and_le_right
  obtain ⟨_, sum⟩ := cut_spec number (number - 1)
  omega

end LowestBit

namespace Twiddle

open Residue Montgomery

/-! ## Filling -/

section Filling

variable (arithmetic : Montgomery)

/-- Multiplies a value by the root as often as is said, with the ranges of the products. -/
def scaleBy? (root : UInt64) : (times : Nat) → (value : UInt64) → Option UInt64
  | 0, value => some value
  | times + 1, value => do
    let product ← arithmetic.reduce? value root
    scaleBy? root times product

/-- The entry of a number, from the value of one for powers of two and from the entries of lower
numbers for the others. -/
def entryOf? (size root one : UInt64) (entries : Array UInt64) (number : UInt64) : Option UInt64 :=
  if isPowerOfTwo number.toNat then do
    let double ← Exact.narrow (2 * number.toNat)
    scaleBy? arithmetic root (size / double).toNat one
  else do
    let before ← Exact.sub number 1
    let negative ← Exact.add (~~~number) 1
    let rest ← entries[(number &&& before).toNat]?
    let bit ← entries[(number &&& negative).toNat]?
    arithmetic.reduce? rest bit

/-- Writes an entry, unless its number is outside of the table. -/
def write? (entries : Array UInt64) (number entry : UInt64) : Option (Array UInt64) :=
  if number.toNat < entries.size then some (entries.setIfInBounds number.toNat entry) else none

/-- Fills the entry of one number. -/
def fillAt? (size root one : UInt64) (entries : Array UInt64) (number : UInt64) :
    Option (Array UInt64) := do
  let entry ← entryOf? arithmetic size root one entries number
  write? entries number entry

/-- Fills as many entries as is said, from a number on. -/
def fillFrom? (size root one : UInt64) :
    (count : Nat) → (number : UInt64) → (entries : Array UInt64) → Option (Array UInt64)
  | 0, _, entries => some entries
  | count + 1, number, entries => do
    let filled ← fillAt? arithmetic size root one entries number
    fillFrom? size root one count (number + 1) filled

/-- A table that has only the entry of the number one, if it has that one. -/
def fresh? (size one : UInt64) : Option (Array UInt64) :=
  if 1 < size then
    write? (Array.replicate size.toNat 0) 1 one
  else
    some (Array.replicate size.toNat 0)

/-- The table of a root, filled from the front.  The entry of the number one is written twice, the
entry of zero never. -/
def filled? (size root : UInt64) : Option (Array UInt64) := do
  let one ← arithmetic.reduce? 1 arithmetic.radixSquared
  let start ← fresh? size one
  fillFrom? arithmetic size root one (size.toNat - 1) 1 start

theorem fresh_spec (size one : UInt64) :
    ∃ start, fresh? size one = some start ∧ start.size = size.toNat := by
  rw [fresh?]
  split
  next several =>
    have inside : (1 : UInt64).toNat < (Array.replicate size.toNat (0 : UInt64)).size := by
      rw [Array.size_replicate]
      exact UInt64.lt_iff_toNat_lt.mp several
    exact ⟨_, if_pos inside, by rw [Array.size_setIfInBounds, Array.size_replicate]⟩
  next => exact ⟨_, rfl, Array.size_replicate⟩

end Filling

/-! ## What is filled -/

/-- The entries below a number have been filled with the powers of the root whose exponents are the
reversed numbers. -/
structure FilledTo (q root : UInt64) (depth number : Nat) (entries : Array UInt64) : Prop where
  size : entries.size = 2 ^ depth
  filled : ∀ earlier, 0 < earlier → earlier < number →
    ∃ entry, entries[earlier]? = some entry ∧ entry < q ∧
      decode q entry = decode q root ^ bitReverse depth earlier

section Steps

variable {size : UInt64} {depth : Nat} (power : size.toNat = 2 ^ depth)
include power

/-- The exponent for a power of two that is the number of an entry is the reversed number. -/
theorem double_spec {number : UInt64} (inside : number.toNat < 2 ^ depth)
    (single : isPowerOfTwo number.toNat = true) :
    ∃ double, Exact.narrow (2 * number.toNat) = some double ∧
      (size / double).toNat = bitReverse depth number.toNat := by
  obtain ⟨position, value⟩ := isPowerOfTwo_iff.mp single
  have early : position < depth := by
    rw [value] at inside
    exact (Nat.pow_lt_pow_iff_right (by decide)).mp inside
  have total := size.toNat_lt
  have doubled : 2 * number.toNat = 2 ^ (position + 1) := by rw [value, pow_succ']
  have larger : 2 ^ (position + 1) ≤ 2 ^ depth := Nat.pow_le_pow_right (by decide) early
  obtain ⟨double, narrowed, doubleValue⟩ :=
    Exact.narrow_of_lt (by simp only [UInt64.size]; omega : 2 * number.toNat < UInt64.size)
  have reversed := bitReverse_two_pow_add early (Nat.two_pow_pos position)
  rw [Nat.add_zero, bitReverse_zero, Nat.add_zero, ← value] at reversed
  refine ⟨double, narrowed, ?_⟩
  rw [UInt64.toNat_div, power, doubleValue, doubled, Nat.pow_div early (by decide), reversed]
  congr 1
  omega

variable {q : UInt64} (odd : q.toNat % 2 = 1) (half : 2 * q.toNat < UInt64.size) {root : UInt64}
  (reduced : root < q)
include odd half reduced

omit power in
/-- Repeated multiplication with the root stays reduced and multiplies by a power of what the root
denotes. -/
theorem scaleBy_spec (times : Nat) {value : UInt64} (valueReduced : value < q) :
    ∃ scaled, scaleBy? (ofModulus q) root times value = some scaled ∧ scaled < q ∧
      decode q scaled = decode q value * decode q root ^ times := by
  induction times generalizing value with
  | zero => exact ⟨value, rfl, valueReduced, by rw [pow_zero, mul_one]⟩
  | succ times ih =>
    have bound := mul_bound value reduced
    obtain ⟨scaled, answers, scaledReduced, denoted⟩ := ih (mul_lt odd half bound)
    refine ⟨scaled, ?_, scaledReduced, ?_⟩
    · rw [scaleBy?, reduce?_eq odd half bound, Option.bind_eq_bind, Option.bind_some, answers]
    · rw [denoted, decode_mul odd half bound, mul_assoc, ← pow_succ']

/-- The entry of a number, where the entries below it have been filled. -/
theorem FilledTo.entryOf_spec {number : UInt64} {entries : Array UInt64}
    (positive : 0 < number.toNat) (inside : number.toNat < 2 ^ depth)
    (holds : FilledTo q root depth number.toNat entries) :
    ∃ entry, entryOf? (ofModulus q) size root ((ofModulus q).enter 1) entries number = some entry ∧
      entry < q ∧ decode q entry = decode q root ^ bitReverse depth number.toNat := by
  rw [entryOf?]
  by_cases single : isPowerOfTwo number.toNat = true
  · obtain ⟨oneReduced, oneDenotes⟩ := enter_spec odd half 1
    obtain ⟨double, narrowed, times⟩ := double_spec power inside single
    obtain ⟨entry, answers, entryReduced, denoted⟩ :=
      scaleBy_spec odd half reduced (size / double).toNat oneReduced
    refine ⟨entry, ?_, entryReduced, ?_⟩
    · rw [if_pos single, narrowed, Option.bind_eq_bind, Option.bind_some, answers]
    · rw [denoted, oneDenotes, classOf_one, one_mul, times]
  · -- the lowest bit and the rest come before the number, so that their entries are final
    obtain ⟨restPositive, restBefore, bitPositive, bitBefore⟩ := lowestBit_spec positive single
    obtain ⟨rest, restFound, _, restDenotes⟩ := holds.filled _ restPositive restBefore
    obtain ⟨bit, bitFound, bitReduced, bitDenotes⟩ := holds.filled _ bitPositive bitBefore
    obtain ⟨disjoint, sum⟩ := cut_spec number (number - 1)
    have before : Exact.sub number 1 = some (number - 1) := if_pos (one_le_of_pos positive)
    have bound := mul_bound rest bitReduced
    refine ⟨(ofModulus q).mul rest bit, ?_, mul_lt odd half bound, ?_⟩
    · rw [if_neg single, before, complement_add_one positive]
      simp only [Option.bind_eq_bind, Option.bind_some, restFound, bitFound]
      exact reduce?_eq odd half bound
    · rw [decode_mul odd half bound, restDenotes, bitDenotes, ← pow_add,
        ← bitReverse_add_of_disjoint depth disjoint, sum]

/-- Filling the entry of a number leaves the entries up to the number filled. -/
theorem FilledTo.fillAt_spec {number : UInt64} {entries : Array UInt64}
    (positive : 0 < number.toNat) (inside : number.toNat < 2 ^ depth)
    (holds : FilledTo q root depth number.toNat entries) :
    ∃ filled,
      fillAt? (ofModulus q) size root ((ofModulus q).enter 1) entries number = some filled ∧
      FilledTo q root depth (number.toNat + 1) filled := by
  obtain ⟨entry, answers, entryReduced, denoted⟩ :=
    holds.entryOf_spec power odd half reduced positive inside
  have present : number.toNat < entries.size := holds.size.symm ▸ inside
  refine ⟨entries.setIfInBounds number.toNat entry, ?_, ?_, fun earlier after before => ?_⟩
  · rw [fillAt?, answers, Option.bind_eq_bind, Option.bind_some, write?, if_pos present]
  · rw [Array.size_setIfInBounds, holds.size]
  · rcases Nat.lt_succ_iff_lt_or_eq.mp before with lower | rfl
    · rw [Array.getElem?_setIfInBounds_ne (Nat.ne_of_gt lower)]
      exact holds.filled earlier after lower
    · exact ⟨entry, Array.getElem?_setIfInBounds_self_of_lt present, entryReduced, denoted⟩

/-- Filling entries from a number on, up to the size of the table at most. -/
theorem FilledTo.fillFrom_spec (count : Nat) {number : UInt64} {entries : Array UInt64}
    (positive : 0 < number.toNat) (inside : number.toNat + count ≤ 2 ^ depth)
    (holds : FilledTo q root depth number.toNat entries) :
    ∃ filled,
      fillFrom? (ofModulus q) size root ((ofModulus q).enter 1) count number entries =
        some filled ∧
      FilledTo q root depth (number.toNat + count) filled := by
  induction count generalizing number entries with
  | zero => exact ⟨entries, rfl, holds⟩
  | succ count ih =>
    obtain ⟨next, answers, nextHolds⟩ :=
      holds.fillAt_spec power odd half reduced positive (by omega)
    have bound := size.toNat_lt
    have following : (number + 1).toNat = number.toNat + 1 := by
      rw [UInt64.toNat_add, UInt64.toNat_one, Nat.mod_eq_of_lt (by omega)]
    rw [← following] at nextHolds
    obtain ⟨filled, rest, filledHolds⟩ := ih (by omega) (by omega) nextHolds
    refine ⟨filled, ?_, ?_⟩
    · rw [fillFrom?, answers, Option.bind_eq_bind, Option.bind_some, rest]
    · rw [following, Nat.add_assoc, Nat.add_comm 1] at filledHolds
      exact filledHolds

/-- Filling the whole table. -/
theorem filled_spec : ∃ entries, filled? (ofModulus q) size root = some entries ∧
    FilledTo q root depth (2 ^ depth) entries := by
  have bound := mul_bound 1 (radixSquaredOf_spec (q := q) (by omega)).1
  have entered : (ofModulus q).reduce? 1 (ofModulus q).radixSquared = some ((ofModulus q).enter 1) :=
    reduce?_eq odd half bound
  have nonempty : 1 ≤ 2 ^ depth := Nat.one_le_two_pow
  obtain ⟨start, started, full⟩ := fresh_spec size ((ofModulus q).enter 1)
  have nothing : FilledTo q root depth (1 : UInt64).toNat start :=
    { size := full.trans power
      filled := fun _ after before => absurd after (Nat.not_lt.mpr (Nat.le_of_lt_succ before)) }
  obtain ⟨entries, answers, holds⟩ := nothing.fillFrom_spec power odd half reduced
    (2 ^ depth - 1) (by decide) (by rw [UInt64.toNat_one]; omega)
  refine ⟨entries, ?_, ?_⟩
  · rw [filled?, entered, Option.bind_eq_bind, Option.bind_some, started, Option.bind_eq_bind,
      Option.bind_some, power, answers]
  · rwa [UInt64.toNat_one, Nat.add_sub_cancel' nonempty] at holds

end Steps

/-! ## Correctness -/

/-- For an odd modulus below half of the radix and the Montgomery form of a number, filling a table whose
size is a power of two loses and overflows nothing and stays inside of the table.  Every entry but the
first is reduced, and is the Montgomery form of the power of the number whose exponent is the reversed
number of the entry.  The table made by doubling has the same entries. -/
theorem fills_reversed {q size root : UInt64} {depth number : Nat} (odd : q.toNat % 2 = 1)
    (small : q.toNat < 2 ^ 63) (power : size.toNat = 2 ^ depth)
    (form : root.toNat = number * UInt64.size % q.toNat) :
    ∃ entries, filled? (ofModulus q) size root = some entries ∧ entries.size = 2 ^ depth ∧
      ∀ index, 1 ≤ index → index < 2 ^ depth → ∃ entry, entries[index]? = some entry ∧ entry < q ∧
        entry.toNat = number ^ bitReverse depth index * UInt64.size % q.toNat ∧
        (table (ofModulus q) depth root).getD index 0 = entry := by
  have half : 2 * q.toNat < UInt64.size := by
    simp only [UInt64.size]
    omega
  have reduced : root < q := lt_of_toNat_eq_mod (by omega) form
  have denoted := decode_of_toNat_eq odd form
  obtain ⟨entries, answers, holds⟩ := filled_spec power odd half reduced
  refine ⟨entries, answers, holds.size, fun index after before => ?_⟩
  obtain ⟨entry, found, entryReduced, entryDenotes⟩ := holds.filled index after before
  have doubled := (powers_table odd half depth reduced).eq_pow_bitReverse before
  have doubledReduced := getD_table_lt odd half depth reduced index
  rw [denoted, ← Nat.cast_pow] at entryDenotes doubled
  have value := toNat_of_decode_eq odd entryReduced entryDenotes
  refine ⟨entry, found, entryReduced, value, UInt64.toNat_inj.mp ?_⟩
  rw [value, toNat_of_decode_eq odd doubledReduced doubled]

/-- The table of four powers of three modulo seven, where the radix leaves two: nine, three and 27
doubled, behind an entry that is not used. -/
theorem fills_reversed_seven : ∃ entries, filled? (ofModulus 7) 4 6 = some entries ∧
    entries[1]? = some 4 ∧ entries[2]? = some 6 ∧ entries[3]? = some 5 := by
  obtain ⟨entries, answers, _, filled⟩ :=
    @fills_reversed 7 4 6 2 3 (by decide) (by decide) rfl (by decide)
  have entry {index : Nat} (after : 1 ≤ index) (before : index < 2 ^ 2) {word : UInt64}
      (value : word.toNat = 3 ^ bitReverse 2 index * UInt64.size % (7 : UInt64).toNat) :
      entries[index]? = some word := by
    obtain ⟨entry, found, _, here, _⟩ := filled index after before
    rw [found, UInt64.toNat_inj.mp (here.trans value.symm)]
  exact ⟨entries, answers, entry (by decide) (by decide) (by decide),
    entry (by decide) (by decide) (by decide), entry (by decide) (by decide) (by decide)⟩

-- The two tables differ in the first entry, which filling never sets.
example : filled? (ofModulus 7) 1 6 = some #[0] ∧ table (ofModulus 7) 0 6 = #[2] := by decide

end Twiddle

end RingLwe
