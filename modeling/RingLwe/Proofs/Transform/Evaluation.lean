import RingLwe.Proofs.Transform.Overflow
import RingLwe.Proofs.Transform.Reversal

/-!
# Values at the odd powers of the root

A channel that is built for a prime has the root that the search for it finds,
and its twiddle factors are the powers of that root (`Channel.Rooted`).  So its
forward transform evaluates a polynomial at the odd powers of the root, in
bit-reversed order (`Channel.Rooted.forward_eq_values`).

For buffers this says what every word of a transform is (`HoldsValues`): it is
reduced, and it is the value of the polynomial of its run times the radix
`2^64` of the Montgomery form.  It holds for arbitrary words, reduced or not,
and in place no operation on the way leaves its range
(`Transform.forward_evaluates`).
-/

set_option autoImplicit false

namespace RingLwe

open Residue

/-! ## One prime -/

namespace Channel

/-- What holds of the root of a channel of size `2^depth` that was built for a prime. -/
structure Rooted (channel : Channel) (depth : Nat) : Prop extends channel.Sound depth where
  found : Root.primitive? (2 * 2 ^ depth : Nat).toUInt64 channel.modulus = some channel.root
  negative : classOf channel.modulus channel.root ^ 2 ^ depth = -1
  powers : Twiddle.Powers channel.factor (classOf channel.modulus channel.root) depth

theorem rooted_of_ofModulus {q : UInt64} {depth : Nat} {channel : Channel}
    (prime : Nat.Prime q.toNat) (half : 2 * q.toNat < UInt64.size)
    (built : ofModulus depth q = .ok channel) : channel.Rooted depth := by
  have sound := (sound_of_ofModulus prime half built).1
  obtain ⟨congruent, root, found, rfl⟩ := ofModulus_eq_ok built
  have odd := odd_of_congruent congruent
  obtain ⟨enteredLt, entered⟩ := Montgomery.enter_spec odd half root
  have powers := Twiddle.powers_table odd half depth enteredLt
  rw [entered] at powers
  exact
    { toSound := sound
      found
      negative := pow_eq_neg_one_of_primitive? prime congruent found
      powers }

namespace Rooted

variable {channel : Channel} {depth : Nat} (rooted : channel.Rooted depth) {words : List UInt64}
  (full : words.length = 2 ^ depth)
include rooted full

/-- The forward transform denotes the values at the odd powers of the root. -/
theorem forward_eq_values : channel.decodeList (channel.forward depth words) =
    (List.range (2 ^ depth)).map fun position => Negacyclic.evaluate (channel.classes words)
      (classOf channel.modulus channel.root ^ (2 * bitReverse depth position + 1)) := by
  have classesFull : (channel.classes words).length = 2 ^ depth := by
    rw [classes, List.length_map, full]
  rw [(rooted.forward_spec words).2, Negacyclic.ringForward_eq_leaves rooted.roots classesFull,
    rooted.powers.leaves_eq rooted.negative, List.map_map]
  rfl

/-- The class of a word of the forward transform. -/
theorem classOf_forward {position : Nat} (inside : position < 2 ^ depth) :
    classOf channel.modulus ((channel.forward depth words).getD position 0) =
      UInt64.size * ∑ index ∈ Finset.range (2 ^ depth),
        classOf channel.modulus (words.getD index 0) *
          classOf channel.modulus channel.root ^ ((2 * bitReverse depth position + 1) * index) := by
  have image : (channel.decodeList (channel.forward depth words)).getD position 0 =
      Montgomery.decode channel.modulus ((channel.forward depth words).getD position 0) :=
    getD_map _ _ (by rw [Sound.length_forward full]; exact inside) 0 0
  have radix := Montgomery.size_mul_inv rooted.odd
  have items : channel.classes words = (List.range (2 ^ depth)).map fun index =>
      classOf channel.modulus (words.getD index 0) := by
    conv_lhs => rw [classes, Negacyclic.eq_map_getD words 0, full, List.map_map]
    rfl
  rw [rooted.forward_eq_values full, getD_map_range _ inside, items,
    Negacyclic.evaluate_map_range] at image
  have value : ∑ index ∈ Finset.range (2 ^ depth), classOf channel.modulus (words.getD index 0) *
        classOf channel.modulus channel.root ^ ((2 * bitReverse depth position + 1) * index) =
      Montgomery.decode channel.modulus ((channel.forward depth words).getD position 0) := by
    rw [← image]
    refine Finset.sum_congr rfl fun index _ => ?_
    rw [pow_mul, mul_comm]
  rw [value, Montgomery.decode]
  linear_combination
    -classOf channel.modulus ((channel.forward depth words).getD position 0) * radix

end Rooted

end Channel

/-! ## Buffers -/

/-- Whether a buffer holds the values of the polynomials of another buffer at the odd powers of the
roots that are found for the moduli, in bit-reversed order and Montgomery form. -/
def HoldsValues (depth : Nat) (moduli coefficients values : List UInt64) : Prop :=
  ∀ index q, moduli[index]? = some q →
    ∃ root, Root.primitive? (2 * 2 ^ depth : Nat).toUInt64 q = some root ∧
      ∀ position < 2 ^ depth,
        values.getD (index * 2 ^ depth + position) 0 < q ∧
          (values.getD (index * 2 ^ depth + position) 0).toNat ≡
            2 ^ 64 * ∑ power ∈ Finset.range (2 ^ depth),
              (coefficients.getD (index * 2 ^ depth + power) 0).toNat *
                root.toNat ^ ((2 * bitReverse depth position + 1) * power) [MOD q.toNat]

namespace Transform

/-- A transform whose channels have the roots that are found for their moduli. -/
def Rooted (transform : Transform) : Prop :=
  ∀ channel ∈ transform.channels, channel.Rooted transform.depth

theorem rooted_of_ofModuli {n : Nat} {moduli : List UInt64} {transform : Transform}
    (primes : ∀ q ∈ moduli, Nat.Prime q.toNat) (halves : ∀ q ∈ moduli, 2 * q.toNat < UInt64.size)
    (built : ofModuli n moduli = .ok transform) : transform.Rooted := by
  intro channel member
  obtain ⟨q, inside, found⟩ := exists_of_mem_of_forall₂ (ofModuli_eq_ok built).2 member
  exact Channel.rooted_of_ofModulus (primes q inside) (halves q inside) found

theorem Rooted.sound {transform : Transform} (rooted : transform.Rooted) : transform.Sound :=
  fun channel member => (rooted channel member).toSound

/-- The forward transform of a buffer holds the values of its polynomials. -/
theorem Rooted.holdsValues_forward {transform : Transform} (rooted : transform.Rooted)
    {buffer : List UInt64} (full : buffer.length = transform.bufferLength) :
    HoldsValues transform.depth transform.moduli buffer (transform.forward buffer) := by
  intro index q present
  have inModuli := present
  rw [moduli, List.getElem?_map] at present
  obtain ⟨channel, found, rfl⟩ := Option.map_eq_some_iff.mp present
  have channelRooted := rooted channel (List.mem_of_getElem? found)
  refine ⟨channel.root, channelRooted.found, ?_⟩
  intro position inside
  rw [← size_eq] at inside
  have reduced := (rooted.sound.reduced_forward full).getD_lt (length_forward full) inModuli
    (index_lt found) inside
  have value := channelRooted.classOf_forward (length_run_pow full found) (size_eq ▸ inside)
  rw [← run_forward full found, getD_run _ _ inside, classOf] at value
  rw [← size_eq]
  refine ⟨reduced, (ZMod.natCast_eq_natCast_iff _ _ _).mp ?_⟩
  rw [value, ← size_eq]
  push_cast
  refine congrArg _ (Finset.sum_congr rfl fun power member => ?_)
  rw [getD_run _ _ (Finset.mem_range.mp member)]
  rfl

/-- What holds of a transform of the size `2^depth` that is built for primes below `2^63`. -/
theorem spec_of_ofModuli {depth : Nat} {moduli : List UInt64} {transform : Transform}
    (primes : ∀ q ∈ moduli, Nat.Prime q.toNat) (bounded : ∀ q ∈ moduli, q.toNat < 2 ^ 63)
    (built : ofModuli (2 ^ depth) moduli = .ok transform) :
    transform.Rooted ∧ transform.depth = depth ∧ transform.moduli = moduli ∧
      transform.bufferLength = 2 ^ depth * moduli.length := by
  have halves : ∀ q ∈ moduli, 2 * q.toNat < UInt64.size := by
    intro q member
    have small := bounded q member
    simp only [UInt64.size]
    omega
  obtain ⟨_, size, same⟩ := sound_of_ofModuli primes halves built
  refine ⟨rooted_of_ofModuli primes halves built, ?_, same, ?_⟩
  · exact Nat.pow_right_injective (Nat.le_refl 2) (size_eq.symm.trans size)
  · rw [bufferLength, size, count, ← same, Transform.moduli, List.length_map]

/-- For primes below `2^63` that are one more than a multiple of twice a power of two there is a
transform of that size.  It takes every buffer of words, reduced or not, to reduced words that are,
times the radix of the Montgomery form, the values of its polynomials at the odd powers of the
roots in bit-reversed order.  In place, stage by stage, no operation on the way leaves its range and
every position and factor exists. -/
theorem forward_evaluates {depth : Nat} {moduli : List UInt64}
    (primes : ∀ q ∈ moduli, Nat.Prime q.toNat) (bounded : ∀ q ∈ moduli, q.toNat < 2 ^ 63)
    (congruent : ∀ q ∈ moduli, q.toNat % (2 * 2 ^ depth) = 1) :
    (moduli ≠ [] → ∃ transform, ofModuli (2 ^ depth) moduli = .ok transform) ∧
      ∀ transform, ofModuli (2 ^ depth) moduli = .ok transform →
        ∀ buffer : List UInt64, buffer.length = 2 ^ depth * moduli.length →
          transform.checkedForward buffer = .ok (transform.forward buffer) ∧
            transform.forward? buffer = some (transform.forward buffer) ∧
            (transform.forward buffer).length = buffer.length ∧
            HoldsValues depth moduli buffer (transform.forward buffer) := by
  refine ⟨fun nonempty => exists_ofModuli nonempty primes congruent, ?_⟩
  intro transform built buffer full
  obtain ⟨rooted, depths, same, length⟩ := spec_of_ofModuli primes bounded built
  rw [← length] at full
  have holds := rooted.holdsValues_forward full
  rw [depths, same] at holds
  refine ⟨checked_eq_ok _ (List.forall_mem_singleton.mpr full), rooted.sound.forward?_eq full, ?_,
    holds⟩
  rw [length_forward full, full]

theorem prime_of_mem_five_thirteen : ∀ q ∈ [(5 : UInt64), 13], Nat.Prime q.toNat :=
  List.forall_mem_cons.mpr
    ⟨Nat.prime_five, List.forall_mem_singleton.mpr (by norm_num : Nat.Prime 13)⟩

/-- Two runs of two words, of which only two are reduced. -/
theorem forward_evaluates_unreduced : ∃ transform, ofModuli (2 ^ 1) [5, 13] = .ok transform ∧
    transform.checkedForward [7, 3, 20, 1] = .ok (transform.forward [7, 3, 20, 1]) ∧
    transform.forward? [7, 3, 20, 1] = some (transform.forward [7, 3, 20, 1]) ∧
    HoldsValues 1 [5, 13] [7, 3, 20, 1] (transform.forward [7, 3, 20, 1]) := by
  obtain ⟨usable, each⟩ :=
    @forward_evaluates 1 [5, 13] prime_of_mem_five_thirteen (by simp) (by simp)
  obtain ⟨transform, built⟩ := usable (by decide)
  obtain ⟨answered, inRange, _, holds⟩ := each transform built [7, 3, 20, 1] rfl
  exact ⟨transform, built, answered, inRange, holds⟩

end Transform

end RingLwe
