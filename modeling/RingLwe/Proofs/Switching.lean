import RingLwe.Proofs.Context.Presets
import RingLwe.Proofs.Word.Lwe
import RingLwe.Switching

/-!
# Accuracy of modulus switching

The term of a prime is the rounded quotient of its weight times the hybrid
modulus `Q` by the prime (`term_eq`), so a sum of terms is near `Q / q` times
the weighted sum from which a number is composed (`sumOfTerms_near`).  The
weighted sum is the composed number up to a multiple of `q`, and that multiple
disappears modulo `Q`: a switched word is within half a unit for each prime of
`Q · x / q` (`switch_near`), and exactly rounded for a single prime
(`switch_single`).

No value on the way leaves its word (`Fits`, `fits_ofLimb`, `sumOfTerms_le`).
-/

set_option autoImplicit false

namespace RingLwe

/-! ## One term -/

namespace SwitchLimb

variable (width : Width) {limb : Basis.Limb}

section Constants

variable (above : 2 ≤ limb.modulus.toNat)
include above

theorem toNat_quotient :
    (ofLimb width limb).quotient.toNat = width.modulus / limb.modulus.toNat := by
  have bound := width.modulus_le
  have half : width.modulus / limb.modulus.toNat ≤ width.modulus / 2 :=
    Nat.div_le_div_left above (by decide)
  rw [ofLimb, Nat.toUInt64_eq, UInt64.toNat_ofNat']
  exact Nat.mod_eq_of_lt (by omega)

theorem toNat_remainder :
    (ofLimb width limb).remainder.toNat = width.modulus % limb.modulus.toNat :=
  Residue.toNat_toUInt64_of_lt (Nat.mod_lt _ (by omega))

/-- The term of a residue is its weight times the hybrid modulus, divided by the prime and
rounded. -/
theorem term_eq (residue : UInt64) :
    (ofLimb width limb).term residue =
      (2 * limb.weight residue * width.modulus + limb.modulus.toNat) /
        (2 * limb.modulus.toNat) := by
  have quotient := toNat_quotient width above
  have remainder := toNat_remainder width above
  have divided := Nat.div_add_mod width.modulus limb.modulus.toNat
  have scaled : residue.toNat * (ofLimb width limb).puncturedInverse.toNat %
      (ofLimb width limb).modulus.toNat = limb.weight residue := rfl
  have modulus : (ofLimb width limb).modulus = limb.modulus := rfl
  have whole : 2 * limb.weight residue * width.modulus + limb.modulus.toNat =
      2 * limb.modulus.toNat * (limb.weight residue * (width.modulus / limb.modulus.toNat)) +
        (2 * limb.weight residue * (width.modulus % limb.modulus.toNat) + limb.modulus.toNat) := by
    conv_lhs => rw [← divided]
    ring
  simp only [term]
  rw [scaled, modulus, quotient, remainder, whole, Nat.mul_add_div (by omega)]

theorem weight_lt (residue : UInt64) : limb.weight residue < limb.modulus.toNat :=
  Nat.mod_lt _ (by omega)

/-- A term is at most the hybrid modulus. -/
theorem term_le (residue : UInt64) : (ofLimb width limb).term residue ≤ width.modulus := by
  have small := weight_lt above residue
  rw [term_eq width above]
  refine Nat.le_of_lt_succ (Nat.div_lt_of_lt_mul ?_)
  have product : 2 * limb.weight residue * width.modulus ≤
      2 * limb.modulus.toNat * width.modulus :=
    Nat.mul_le_mul_right _ (Nat.mul_le_mul_left 2 (Nat.le_of_lt small))
  rw [Nat.succ_eq_add_one, Nat.mul_add]
  omega

/-- A term is within half a unit of its exact value. -/
theorem term_near (residue : UInt64) :
    |2 * (limb.modulus.toNat : Int) * (ofLimb width limb).term residue -
      2 * width.modulus * limb.weight residue| ≤ limb.modulus.toNat := by
  have rounded := Nat.div_add_mod
    (2 * limb.weight residue * width.modulus + limb.modulus.toNat) (2 * limb.modulus.toNat)
  have rest := Nat.mod_lt (2 * limb.weight residue * width.modulus + limb.modulus.toNat)
    (by omega : 0 < 2 * limb.modulus.toNat)
  rw [← term_eq width above] at rounded
  generalize (2 * limb.weight residue * width.modulus + limb.modulus.toNat) %
    (2 * limb.modulus.toNat) = excess at rounded rest
  have nonnegative := Int.natCast_nonneg excess
  zify at rounded rest
  rw [abs_le]
  constructor
  · linarith
  · linarith

end Constants

/-- Whether the constants of a limb are exact and no value on the way to a term leaves 128 bits. -/
structure Fits (width : Width) (limb : SwitchLimb) (residue : UInt64) : Prop where
  quotient : limb.quotient.toNat = width.modulus / limb.modulus.toNat
  remainder : limb.remainder.toNat = width.modulus % limb.modulus.toNat
  product : residue.toNat * limb.puncturedInverse.toNat < 2 ^ 128
  scaled : residue.toNat * limb.puncturedInverse.toNat % limb.modulus.toNat < limb.modulus.toNat
  whole : residue.toNat * limb.puncturedInverse.toNat % limb.modulus.toNat *
    limb.quotient.toNat < 2 ^ 128
  dividend : 2 * (residue.toNat * limb.puncturedInverse.toNat % limb.modulus.toNat) *
    limb.remainder.toNat + limb.modulus.toNat < 2 ^ 128
  divisor : 2 * limb.modulus.toNat < 2 ^ 128
  term : limb.term residue < 2 ^ 128

theorem fits_ofLimb (above : 2 ≤ limb.modulus.toNat) (below : limb.modulus.toNat < 2 ^ 33)
    (residue : UInt64) : Fits width (ofLimb width limb) residue := by
  have remainder := toNat_remainder width above
  have small : width.modulus % limb.modulus.toNat < 2 ^ 33 :=
    Nat.lt_trans (Nat.mod_lt _ (by omega)) below
  have scaled : limb.weight residue < 2 ^ 33 := Nat.lt_trans (weight_lt above residue) below
  have wide : ∀ left right : Nat, left < 2 ^ 64 → right < 2 ^ 64 → left * right < 2 ^ 128 :=
    fun left right leftBound rightBound =>
      Nat.lt_of_lt_of_eq (Nat.mul_lt_mul'' leftBound rightBound) (by norm_num)
  refine
    { quotient := toNat_quotient width above
      remainder
      product := wide _ _ residue.toNat_lt limb.puncturedInverse.toNat_lt
      scaled := weight_lt above residue
      whole := ?_
      dividend := ?_
      divisor := ?_
      term := ?_ }
  · exact wide _ _ (Nat.lt_trans scaled (by norm_num)) (ofLimb width limb).quotient.toNat_lt
  · rw [remainder]
    have product : 2 * limb.weight residue * (width.modulus % limb.modulus.toNat) <
        2 ^ 34 * 2 ^ 33 := Nat.mul_lt_mul'' (by omega) small
    have modulus : (ofLimb width limb).modulus.toNat = limb.modulus.toNat := rfl
    have weight : residue.toNat * (ofLimb width limb).puncturedInverse.toNat %
        (ofLimb width limb).modulus.toNat = limb.weight residue := rfl
    rw [modulus] at weight ⊢
    rw [weight]
    omega
  · change 2 * limb.modulus.toNat < 2 ^ 128
    omega
  · have := term_le width above residue
    have := width.modulus_le
    omega

end SwitchLimb

/-! ## Sums of terms -/

namespace Basis

variable (width : Width)

/-- The sum of the terms of pairs of limbs and residues. -/
def sumOfTerms (pairs : List (Limb × UInt64)) : Nat :=
  (pairs.map fun pair => (SwitchLimb.ofLimb width pair.1).term pair.2).sum

theorem foldr_term_eq (basis : Basis) (residues : List UInt64) :
    (List.zipWith SwitchLimb.term (SwitchTables.ofBasis width basis).limbs residues).foldr (· + ·) 0 =
      sumOfTerms width (basis.limbs.zip residues) := by
  rw [SwitchTables.ofBasis, List.zipWith_map_left, ← List.map_uncurry_zip_eq_zipWith]
  rfl

/-- A sum of terms is near the exact multiple of the weighted sum. -/
theorem sumOfTerms_near {whole : Nat} (pairs : List (Limb × UInt64))
    (above : ∀ pair ∈ pairs, 2 ≤ pair.1.modulus.toNat)
    (punctured : ∀ pair ∈ pairs, pair.1.modulus.toNat * pair.1.punctured = whole) :
    |2 * (whole : Int) * sumOfTerms width pairs - 2 * width.modulus * sumOfPairs pairs| ≤
      pairs.length * whole := by
  induction pairs with
  | nil => simp [sumOfTerms, sumOfPairs]
  | cons pair pairs ih =>
    have rest := ih (fun other member => above other (List.mem_cons_of_mem _ member))
      (fun other member => punctured other (List.mem_cons_of_mem _ member))
    have product := punctured pair (List.mem_cons_self ..)
    have near := SwitchLimb.term_near width (above pair (List.mem_cons_self ..)) pair.2
    have sums : sumOfTerms width (pair :: pairs) =
        (SwitchLimb.ofLimb width pair.1).term pair.2 + sumOfTerms width pairs := rfl
    have weights : sumOfPairs (pair :: pairs) =
        pair.1.punctured * pair.1.weight pair.2 + sumOfPairs pairs := rfl
    have scaled := mul_le_mul_of_nonneg_left near (Int.natCast_nonneg pair.1.punctured)
    rw [← Nat.abs_cast pair.1.punctured, ← abs_mul, Nat.abs_cast] at scaled
    rw [sums, weights, List.length_cons]
    push_cast
    have whole : (whole : Int) = pair.1.modulus.toNat * pair.1.punctured := by
      rw [← product]
      push_cast
      rfl
    rw [whole] at rest ⊢
    calc _ = |(pair.1.punctured : Int) *
            (2 * pair.1.modulus.toNat * (SwitchLimb.ofLimb width pair.1).term pair.2 -
              2 * width.modulus * pair.1.weight pair.2) +
          (2 * (pair.1.modulus.toNat * pair.1.punctured) * sumOfTerms width pairs -
            2 * width.modulus * sumOfPairs pairs)| := by
          congr 1
          ring
      _ ≤ _ := abs_add_le _ _
      _ ≤ (pair.1.punctured : Int) * pair.1.modulus.toNat +
          pairs.length * (pair.1.modulus.toNat * pair.1.punctured) := add_le_add scaled rest
      _ = _ := by ring

theorem sumOfTerms_le (pairs : List (Limb × UInt64))
    (above : ∀ pair ∈ pairs, 2 ≤ pair.1.modulus.toNat) :
    sumOfTerms width pairs ≤ pairs.length * width.modulus := by
  refine (List.sum_le_card_nsmul _ width.modulus fun term member => ?_).trans_eq ?_
  · obtain ⟨pair, inside, rfl⟩ := List.mem_map.mp member
    exact SwitchLimb.term_le width (above pair inside) pair.2
  · rw [List.length_map, smul_eq_mul]

namespace Sound

variable {width} {basis : Basis} (sound : basis.Sound)
include sound

omit sound in
theorem length_zip {residues : List UInt64} (full : residues.length = basis.size) :
    (basis.limbs.zip residues).length = basis.size := by
  rw [List.length_zip, full, size, Nat.min_self]

/-- A switched word is the composed number times `Q / q`, up to half a unit for each prime. -/
theorem switch_near {residues : List UInt64} (full : residues.length = basis.size) :
    ∃ exact : Int,
      exact ≡ ((SwitchTables.ofBasis width basis).switch width residues).toNat
        [ZMOD width.modulus] ∧
      |2 * (basis.modulus : Int) * exact - 2 * width.modulus * basis.compose residues| ≤
        basis.size * basis.modulus := by
  have near := sumOfTerms_near width (basis.limbs.zip residues)
    (fun pair member => sound.two_le _ (List.of_mem_zip member).1)
    (fun pair member => sound.punctured _ (List.of_mem_zip member).1)
  have divided := Nat.div_add_mod (basis.weightedSum residues) basis.modulus
  rw [← sound.compose_eq] at divided
  have weights : sumOfPairs (basis.limbs.zip residues) = basis.weightedSum residues := rfl
  rw [length_zip full, weights, ← divided] at near
  refine ⟨sumOfTerms width (basis.limbs.zip residues) -
    width.modulus * (basis.weightedSum residues / basis.modulus : Nat), ?_, ?_⟩
  · rw [SwitchTables.switch, LweWord.toNat_ofNat, foldr_term_eq]
    push_cast
    exact (Int.sub_modulus_mul_modEq_iff.mpr (Int.ModEq.refl _)).trans (Int.mod_modEq _ _).symm
  · convert near using 2
    push_cast
    ring

/-- For a single prime a switched word is the rounded quotient. -/
theorem switch_single (single : basis.size = 1) {residues : List UInt64}
    (full : residues.length = basis.size) :
    ((SwitchTables.ofBasis width basis).switch width residues).toNat =
      (2 * width.modulus * basis.compose residues + basis.modulus) / (2 * basis.modulus) %
        width.modulus := by
  obtain ⟨limb, limbs⟩ := List.length_eq_one_iff.mp single
  obtain ⟨residue, rfl⟩ := List.length_eq_one_iff.mp (full.trans single)
  have member : limb ∈ basis.limbs := by
    rw [limbs]
    exact List.mem_cons_self ..
  have above := sound.two_le limb member
  have whole : basis.modulus = limb.modulus.toNat := by
    rw [sound.product, moduli, limbs]
    exact Nat.mul_one _
  have punctured : limb.punctured = 1 := by
    have product := sound.punctured limb member
    rw [whole] at product
    exact Nat.eq_of_mul_eq_mul_left (by omega) (product.trans (Nat.mul_one _).symm)
  have weight : basis.compose [residue] = limb.weight residue := by
    have sum : basis.weightedSum [residue] = limb.weight residue := by
      rw [weightedSum, limbs]
      simp [sumOfPairs, punctured]
    rw [sound.compose_eq, sum, whole]
    exact Nat.mod_eq_of_lt (SwitchLimb.weight_lt above residue)
  have sum : sumOfTerms width (basis.limbs.zip [residue]) =
      (SwitchLimb.ofLimb width limb).term residue := by
    rw [limbs]
    exact Nat.add_zero _
  rw [SwitchTables.switch, LweWord.toNat_ofNat, foldr_term_eq, sum, SwitchLimb.term_eq width above,
    weight, whole, Nat.mul_right_comm]

end Sound

end Basis

/-! ## Lists of values -/

namespace Context.Lawful

variable {context : Context} (lawful : context.Lawful)
include lawful

/-- The switching tables of a context are those of its basis, for its width. -/
theorem switchTables_spec {width : Width} {tables : SwitchTables}
    (prepared : context.switchTables width = .ok tables) :
    width = context.width ∧ tables = SwitchTables.ofBasis width context.basis ∧
      2 * context.plaintextModulus.toNat ≤ width.modulus := by
  unfold switchTables at prepared
  rw [lawful.switching] at prepared
  by_cases enabled : context.parameters.switching = true
  · rw [if_pos enabled] at prepared
    split at prepared
    next absent => cases absent
    next found present =>
      split at prepared
      next same =>
        cases present
        cases prepared
        subst same
        exact ⟨rfl, rfl, lawful.switchBound enabled⟩
      next => cases prepared
  · rw [if_neg enabled] at prepared
    cases prepared

end Context.Lawful

namespace Switching

/-- The residues of the value at a position of a component-major list. -/
def residuesAt (count stride : Nat) (values : List UInt64) (position : Nat) : List UInt64 :=
  (List.range count).map fun index => values.getD (index * stride + position) 0

theorem length_residuesAt (count stride : Nat) (values : List UInt64) (position : Nat) :
    (residuesAt count stride values position).length = count := by
  rw [residuesAt, List.length_map, List.length_range]

theorem getD_residuesAt {count index : Nat} (stride : Nat) (values : List UInt64) (position : Nat)
    (inside : index < count) :
    (residuesAt count stride values position).getD index 0 =
      values.getD (index * stride + position) 0 :=
  getD_map_range _ inside 0

theorem switchRuns_components (tables : SwitchTables) (width : Width) {samples stride count : Nat}
    {values : List UInt64} (full : values.length = stride * count) (fits : samples ≤ stride) :
    switchRuns tables width samples (components stride count values) =
      (List.range samples).map fun position =>
        tables.switch width (residuesAt count stride values position) := by
  rw [switchRuns, columns_components count values 0 full fits, List.map_map]
  rfl

section Outcome

variable {context : Context} {width : Width} {tables : SwitchTables}
  (prepared : context.switchTables width = .ok tables) (values : List UInt64)
  (stride samples : Nat)
include prepared

/-- Switching succeeds for a list of the right length that a memory can hold. -/
theorem switch_eq_ok (full : values.length = stride * context.primeCount)
    (addressable : values.length < UInt64.size) (fits : samples ≤ stride) :
    switch context width values stride samples =
      .ok ((List.range samples).map fun position =>
        tables.switch width (residuesAt context.primeCount stride values position)) := by
  simp only [switch, prepared, ok_bind]
  rw [if_neg (by omega), if_neg (by omega), if_neg (by omega), switchRuns_components tables width
    full fits]
  rfl

/-- The residues of a single value switch to its word. -/
theorem switch_residues {residues : List UInt64} (full : residues.length = context.primeCount)
    (few : context.primeCount ≤ 3) :
    switch context width residues 1 1 = .ok [tables.switch width residues] := by
  have small : residues.length < UInt64.size := by
    rw [full]
    exact Nat.lt_of_le_of_lt few (by decide)
  have same : residuesAt context.primeCount 1 residues 0 = residues := by
    refine List.ext_getElem ?_ fun index _ inside => ?_
    · rw [length_residuesAt, full]
    · simp [residuesAt, inside]
  rw [switch_eq_ok prepared residues 1 1 (by rw [full, Nat.one_mul]) small (Nat.le_refl _)]
  exact congrArg (fun values => Except.ok [tables.switch width values]) same

/-- Switching fails for every other list. -/
theorem switch_eq_error (unfit : ¬(values.length = stride * context.primeCount ∧
    values.length < UInt64.size ∧ samples ≤ stride)) :
    ∃ failure, switch context width values stride samples = .error failure := by
  simp only [switch, prepared, ok_bind]
  split
  next => exact ⟨_, rfl⟩
  next small =>
    split
    next => exact ⟨_, rfl⟩
    next same =>
      split
      next => exact ⟨_, rfl⟩
      next short => exact absurd ⟨by omega, by omega, by omega⟩ unfit

end Outcome

theorem round_eq_ok {context : Context} {width : Width} {tables : SwitchTables}
    (prepared : context.switchTables width = .ok tables) (words : List (LweWord width)) :
    round context words = .ok (words.map (roundWord context.plaintextModulus.toNat)) := by
  rw [round, prepared, ok_bind]
  rfl

/-- Whether a word is a number times `Q / q`, up to half a unit for each prime and a multiple of
`Q`. -/
def WithinRounding (context : Context) {width : Width} (number : Nat) (word : LweWord width) : Prop :=
  ∃ exact : Int, exact ≡ word.toNat [ZMOD width.modulus] ∧
    |2 * (context.basis.modulus : Int) * exact - 2 * width.modulus * number| ≤
      context.primeCount * context.basis.modulus

/-- What is asked of the word to which the value at a position switches. -/
structure Accurate (context : Context) {width : Width} (tables : SwitchTables) (stride : Nat)
    (values : List UInt64) (position : Nat) (word : LweWord width) : Prop where
  /-- No residue is read beyond the end of the list. -/
  inside : ∀ index < context.primeCount, index * stride + position < values.length
  rounded : ∃ number < context.basis.modulus,
    (∀ index q, context.moduli[index]? = some q →
      number ≡ (values.getD (index * stride + position) 0).toNat [MOD q.toNat]) ∧
    WithinRounding context number word ∧
    (context.primeCount = 1 → word.toNat =
      (2 * width.modulus * number + context.basis.modulus) / (2 * context.basis.modulus) %
        width.modulus)
  fits : ∀ (index : Nat) (limb : SwitchLimb), tables.limbs[index]? = some limb →
    limb.Fits width (values.getD (index * stride + position) 0)
  sum : (List.zipWith SwitchLimb.term tables.limbs
    (residuesAt context.primeCount stride values position)).foldr (· + ·) 0 < 2 ^ 128

/-- The word of a value is accurate. -/
theorem accurate_switch {context : Context} (lawful : context.Lawful) {width : Width}
    {values : List UInt64} {stride position : Nat}
    (full : values.length = stride * context.primeCount) (within : position < stride) :
    Accurate context (SwitchTables.ofBasis width context.basis) stride values position
      ((SwitchTables.ofBasis width context.basis).switch width
        (residuesAt context.primeCount stride values position)) := by
  have sound := lawful.basis_sound
  have length : (residuesAt context.primeCount stride values position).length =
      context.basis.size := length_residuesAt _ _ _ _
  have bounds : ∀ limb ∈ context.basis.limbs,
      2 ≤ limb.modulus.toNat ∧ limb.modulus.toNat < 2 ^ 33 :=
    fun limb member => ⟨sound.two_le limb member, (lawful.bounds (List.mem_map_of_mem member)).2⟩
  refine
    { inside := fun index present => ?_
      rounded := ⟨context.basis.compose (residuesAt context.primeCount stride values position),
        sound.compose_lt _, fun index q present => ?_, sound.switch_near length,
        fun single => sound.switch_single single length⟩
      fits := fun index limb present => ?_
      sum := ?_ }
  · have rows : (index + 1) * stride ≤ context.primeCount * stride :=
      Nat.mul_le_mul_right _ present
    rw [Nat.succ_mul] at rows
    rw [full, Nat.mul_comm stride]
    omega
  · have inside := (List.getElem?_eq_some_iff.mp present).1
    rw [Context.Lawful.length_moduli] at inside
    rw [← getD_residuesAt stride values position inside]
    exact sound.compose_modEq_getD length present
  · rw [SwitchTables.ofBasis, List.getElem?_map] at present
    obtain ⟨origin, found, rfl⟩ := Option.map_eq_some_iff.mp present
    obtain ⟨above, below⟩ := bounds origin (List.mem_of_getElem? found)
    exact SwitchLimb.fits_ofLimb width above below _
  · have total := Basis.sumOfTerms_le width (context.basis.limbs.zip
      (residuesAt context.primeCount stride values position))
      (fun pair member => (bounds _ (List.of_mem_zip member).1).1)
    have few := lawful.primeCount_le
    have bound := width.modulus_le
    have product : context.primeCount * width.modulus ≤ 3 * 2 ^ 64 := Nat.mul_le_mul few bound
    rw [Basis.Sound.length_zip length] at total
    rw [Basis.foldr_term_eq]
    exact Nat.lt_of_le_of_lt (total.trans product) (by norm_num)

/-- Switching a list of the right length is accurate at every position, and every other list is
refused. -/
theorem switch_accurate_or_refused {parameters : Parameters} {context : Context} {width : Width}
    {tables : SwitchTables} (built : Context.ofParameters parameters = .ok context)
    (prepared : context.switchTables width = .ok tables) (values : List UInt64)
    (stride samples : Nat) :
    if values.length = stride * context.primeCount ∧ values.length < UInt64.size ∧
        samples ≤ stride then
      ∃ words, switch context width values stride samples = .ok words ∧ words.length = samples ∧
        ∀ position < samples,
          Accurate context tables stride values position (words.getD position 0)
    else ∃ failure, switch context width values stride samples = .error failure := by
  have lawful := Context.lawful_of_ofParameters built
  obtain ⟨_, rfl, _⟩ := lawful.switchTables_spec prepared
  split
  next fit =>
    obtain ⟨full, addressable, fits⟩ := fit
    refine ⟨_, switch_eq_ok prepared values stride samples full addressable fits, ?_, ?_⟩
    · rw [List.length_map, List.length_range]
    · intro position inside
      rw [getD_map_range _ inside]
      exact accurate_switch lawful full (Nat.lt_of_lt_of_le inside fits)
  next unfit => exact switch_eq_error prepared values stride samples unfit

/-- The preset of 64 bits switches the first two values of a list whose three runs hold three. -/
theorem switch_preset : ∃ context tables,
    Context.ofParameters (Parameters.preset .bits64) = .ok context ∧
    context.switchTables .bits64 = .ok tables ∧
    ∃ words, switch context .bits64 [1, 4294828032, 7, 8589852672, 3, 7, 0, 8589844480, 7] 3 2 =
        .ok words ∧ words.length = 2 ∧
      ∀ position < 2, Accurate context tables 3
        [1, 4294828032, 7, 8589852672, 3, 7, 0, 8589844480, 7] position
        (words.getD position 0) := by
  obtain ⟨context, built⟩ := Context.exists_preset .bits64
  have prepared := Context.switchTables_preset built
  have three := (Context.wide_preset_spec built).2.2.1
  have outcome := switch_accurate_or_refused built prepared
    [1, 4294828032, 7, 8589852672, 3, 7, 0, 8589844480, 7] 3 2
  rw [three, if_pos (by decide)] at outcome
  exact ⟨context, _, built, prepared, outcome⟩

end Switching

end RingLwe
