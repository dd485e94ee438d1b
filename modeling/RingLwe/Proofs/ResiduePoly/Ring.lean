import RingLwe.Proofs.ResiduePoly

/-!
# The transformed domain as an image of the ring

Every list of primes below `2^63` that are one more than a multiple of `2 n`
has a transform of size `n`, and its transformed domain is a faithful image of
the polynomials modulo `X^n + 1`: the pointwise product of two transforms is
transformed back to the schoolbook product, and their sum and difference to the
sum and the difference (`toCoefficient_of_transformed`).

A combination of residues is carried back by any of its channels
(`inverse_combine`), since the network is linear.  The results are compared as
whole polynomials, with one whose residues are those of lists of integers
(`ofRows`).
-/

set_option autoImplicit false

namespace RingLwe

open Residue

/-! ## Linear combinations of residues -/

/-- An operation on residues that adds a multiple of the right class to the left one, and keeps
residues reduced. -/
structure Combines (operation : UInt64 → UInt64 → UInt64 → UInt64) (factor : Int) : Prop where
  reduced : ∀ {q left right : UInt64}, left < q → right < q → operation left right q < q
  denotes : ∀ {q left right : UInt64}, left < q → right < q →
    classOf q (operation left right q) = classOf q left + classOf q right * (factor : ZMod q.toNat)

theorem combines_add : Combines add 1 where
  reduced leftLt _ := add_lt (pos_of_lt leftLt) _ _
  denotes leftLt _ := by
    rw [classOf_add (pos_of_lt leftLt), Int.cast_one, mul_one]

theorem combines_sub : Combines sub (-1) where
  reduced leftLt rightLt := sub_lt leftLt rightLt
  denotes leftLt rightLt := by
    rw [classOf_sub leftLt rightLt, Int.cast_neg, Int.cast_one]
    ring

section Combined

variable {operation : UInt64 → UInt64 → UInt64 → UInt64} {factor : Int}
  (combines : Combines operation factor)
include combines

theorem Combines.decode {q left right : UInt64} (leftLt : left < q) (rightLt : right < q) :
    Montgomery.decode q (operation left right q) =
      Montgomery.decode q left + Montgomery.decode q right * (factor : ZMod q.toNat) := by
  rw [Montgomery.decode, combines.denotes leftLt rightLt, Montgomery.decode, Montgomery.decode]
  ring

theorem Combines.map_classOf {q : UInt64} {left right : List UInt64}
    (leftReduced : ∀ word ∈ left, word < q) (rightReduced : ∀ word ∈ right, word < q) :
    (∀ word ∈ List.zipWith (operation · · q) left right, word < q) ∧
      (List.zipWith (operation · · q) left right).map (classOf q) =
        List.zipWith (fun low high => low + high * (factor : ZMod q.toNat))
          (left.map (classOf q)) (right.map (classOf q)) :=
  Network.zipWith_reading (fun _ _ => combines.reduced) (fun _ _ => combines.denotes) leftReduced
    rightReduced

theorem Combines.map_decode {q : UInt64} {left right : List UInt64}
    (leftReduced : ∀ word ∈ left, word < q) (rightReduced : ∀ word ∈ right, word < q) :
    (∀ word ∈ List.zipWith (operation · · q) left right, word < q) ∧
      (List.zipWith (operation · · q) left right).map (Montgomery.decode q) =
        List.zipWith (fun low high => low + high * (factor : ZMod q.toNat))
          (left.map (Montgomery.decode q)) (right.map (Montgomery.decode q)) :=
  Network.zipWith_reading (fun _ _ => combines.reduced) (fun _ _ => combines.decode) leftReduced
    rightReduced

/-- The inverse transform takes a combination of transforms back to the combination. -/
theorem Combines.inverse_combine {channel : Channel} {depth : Nat}
    (sound : channel.Sound depth) {left right : List UInt64} (leftFull : left.length = 2 ^ depth)
    (rightFull : right.length = 2 ^ depth) (leftReduced : ∀ word ∈ left, word < channel.modulus)
    (rightReduced : ∀ word ∈ right, word < channel.modulus) :
    channel.inverse depth (List.zipWith (operation · · channel.modulus)
        (channel.forward depth left) (channel.forward depth right)) =
      List.zipWith (operation · · channel.modulus) left right := by
  obtain ⟨leftForward, leftDenoted⟩ := sound.forward_spec left
  obtain ⟨rightForward, rightDenoted⟩ := sound.forward_spec right
  obtain ⟨reduced, decoded⟩ := combines.map_decode leftForward rightForward
  obtain ⟨combinedReduced, combined⟩ := combines.map_classOf leftReduced rightReduced
  have leftClasses : (channel.classes left).length = 2 ^ depth := by
    rw [Channel.classes, List.length_map, leftFull]
  have rightClasses : (channel.classes right).length = 2 ^ depth := by
    rw [Channel.classes, List.length_map, rightFull]
  apply eq_of_map_classOf_eq (sound.inverse_spec reduced).1 combinedReduced
  rw [combined]
  apply sound.classes_inverse reduced
  · rw [List.length_zipWith, List.length_map, List.length_map, leftFull, rightFull, Nat.min_self]
  · have linear := Negacyclic.ringForward_combine sound.roots
      (factor : ZMod channel.modulus.toNat) leftClasses rightClasses
    rw [← leftDenoted, ← rightDenoted] at linear
    exact decoded.trans linear.symm

end Combined

theorem Transform.Sound.positive {transform : Transform} (sound : transform.Sound) :
    ∀ q ∈ transform.moduli, 0 < q.toNat := by
  intro q member
  obtain ⟨channel, inside, rfl⟩ := List.mem_map.mp member
  exact (sound channel inside).modulus_pos

/-! ## Polynomials over a list of moduli -/

namespace ResiduePoly

/-- Whether a polynomial has the given number of coefficients, with a reduced residue of each of
them for every modulus, and is in the given domain. -/
structure Shaped (n : Nat) (moduli : List UInt64) (kind : Domain) (poly : ResiduePoly) : Prop where
  size : poly.size = n
  domain : poly.domain = kind
  full : poly.residues.length = n * moduli.length
  reduced : Reduced n moduli poly.residues

/-- The residues modulo the prime of the given number, as integers. -/
def integersAt (poly : ResiduePoly) (index : Nat) : List Int :=
  (poly.component index).map fun word => (word.toNat : Int)

/-- The polynomial whose coefficients modulo each prime are the residues of the integers in the row
of the prime. -/
def ofRows (size : Nat) (moduli : List UInt64) (rows : Nat → List Int) : ResiduePoly :=
  ⟨moduli.zipIdx.flatMap fun (q, index) => (rows index).map (ofInt · q), size, .coefficient⟩

section Rows

variable {size : Nat} {moduli : List UInt64} {rows : Nat → List Int}
  (long : ∀ index < moduli.length, (rows index).length = size)
include long

theorem length_of_mem_rows {words : List UInt64}
    (member : words ∈ moduli.zipIdx.map fun (q, index) => (rows index).map (ofInt · q)) :
    words.length = size := by
  obtain ⟨⟨q, index⟩, inside, rfl⟩ := List.mem_map.mp member
  have bound : index < moduli.length := List.snd_lt_of_mem_zipIdx inside
  rw [List.length_map, long index bound]

theorem run_ofRows {index : Nat} {q : UInt64} (present : moduli[index]? = some q) :
    run size (ofRows size moduli rows).residues index = (rows index).map (ofInt · q) := by
  rw [ofRows, List.flatMap_def]
  apply run_flatten (fun _ => length_of_mem_rows long)
  rw [List.getElem?_map, List.getElem?_zipIdx, present, Option.map_some, Option.map_some,
    Nat.zero_add]

theorem shaped_ofRows (positive : ∀ q ∈ moduli, 0 < q.toNat) :
    (ofRows size moduli rows).Shaped size moduli .coefficient where
  size := rfl
  domain := rfl
  full := by
    rw [ofRows, List.flatMap_def, length_flatten_of_even _ fun _ => length_of_mem_rows long,
      List.length_map, List.length_zipIdx]
  reduced := by
    intro index q present word member
    rw [run_ofRows long present] at member
    obtain ⟨integer, _, rfl⟩ := List.mem_map.mp member
    exact ofInt_lt (positive q (List.mem_of_getElem? present)) integer

/-- A polynomial is determined by the classes of its residues. -/
theorem Shaped.eq_ofRows {poly : ResiduePoly} (shaped : poly.Shaped size moduli .coefficient)
    (positive : ∀ q ∈ moduli, 0 < q.toNat)
    (classes : ∀ index q, moduli[index]? = some q →
      classesAt q size poly.residues index = (rows index).map (Int.castRingHom (ZMod q.toNat))) :
    poly = ofRows size moduli rows := by
  have made := shaped_ofRows long positive
  have residues : poly.residues = (ofRows size moduli rows).residues := by
    apply eq_of_run_eq shaped.full made.full
    intro index inside
    have present : moduli[index]? = some moduli[index] := List.getElem?_eq_getElem inside
    apply eq_of_map_classOf_eq (shaped.reduced index _ present) (made.reduced index _ present)
    refine (classes index _ present).trans ?_
    rw [run_ofRows long present, List.map_map]
    refine List.map_congr_left ?_
    intro integer _
    exact (classOf_ofInt (positive _ (List.mem_of_getElem? present)) integer).symm
  obtain ⟨words, count, domain⟩ := poly
  obtain rfl : count = size := shaped.size
  obtain rfl : domain = .coefficient := shaped.domain
  exact congrArg (fun residues => (⟨residues, count, .coefficient⟩ : ResiduePoly)) residues

end Rows

section Shapes

variable {size : Nat} {moduli : List UInt64} {left right : ResiduePoly} {domain : Domain}
  (leftShaped : left.Shaped size moduli domain) (rightShaped : right.Shaped size moduli domain)
include leftShaped

theorem Shaped.classesAt_eq (q : UInt64) (index : Nat) :
    classesAt q size left.residues index =
      (left.integersAt index).map (Int.castRingHom (ZMod q.toNat)) := by
  rw [integersAt, List.map_map, component, leftShaped.size, classesAt]
  refine List.map_congr_left ?_
  intro word _
  rw [Function.comp_apply, classOf, eq_intCast, Int.cast_natCast]

theorem Shaped.length_integersAt {index : Nat} (inside : index < moduli.length) :
    (left.integersAt index).length = size := by
  rw [integersAt, List.length_map, component, leftShaped.size]
  exact length_run leftShaped.full inside

include rightShaped

/-- A combination of two polynomials is one of the same shape. -/
theorem Shaped.combine {operation : UInt64 → UInt64 → UInt64 → UInt64} {factor : Int}
    (combines : Combines operation factor) :
    (ResiduePoly.combine operation moduli left right).Shaped size moduli domain where
  size := leftShaped.size
  domain := leftShaped.domain
  full := by
    rw [ResiduePoly.combine, leftShaped.size]
    exact length_combineRuns leftShaped.full rightShaped.full
  reduced := by
    intro index q present
    rw [ResiduePoly.combine, leftShaped.size,
      run_combineRuns leftShaped.full rightShaped.full present]
    exact (combines.map_classOf (leftShaped.reduced index q present)
      (rightShaped.reduced index q present)).1

/-- The classes of a combination are the combined classes. -/
theorem Shaped.classesAt_combine {operation : UInt64 → UInt64 → UInt64 → UInt64} {factor : Int}
    (combines : Combines operation factor) {index : Nat} {q : UInt64}
    (present : moduli[index]? = some q) :
    classesAt q size (ResiduePoly.combine operation moduli left right).residues index =
      (List.zipWith (fun low high => low + high * factor) (left.integersAt index)
        (right.integersAt index)).map (Int.castRingHom (ZMod q.toNat)) := by
  have combined := (combines.map_classOf (leftShaped.reduced index q present)
    (rightShaped.reduced index q present)).2
  rw [classesAt, ResiduePoly.combine, leftShaped.size,
    run_combineRuns leftShaped.full rightShaped.full present, combined, List.map_zipWith]
  have leftClasses := leftShaped.classesAt_eq q index
  have rightClasses := rightShaped.classesAt_eq q index
  rw [classesAt] at leftClasses rightClasses
  rw [leftClasses, rightClasses, List.zipWith_map]
  simp only [map_add, map_mul, eq_intCast]

end Shapes

/-! ## Checked operations -/

section Checked

variable {transform : Transform} {left right : ResiduePoly} {domain : Domain}

variable (leftShaped : left.Shaped transform.size transform.moduli domain)
  (rightShaped : right.Shaped transform.size transform.moduli domain)
include leftShaped

theorem Shaped.full_buffer : left.residues.length = transform.bufferLength := by
  rw [leftShaped.full, Transform.moduli, List.length_map, Transform.bufferLength, Transform.count]

include rightShaped

theorem checkedCombine_eq_ok
    (combination : List UInt64 → ResiduePoly → ResiduePoly → ResiduePoly) :
    checkedCombine combination transform.moduli left right =
      .ok (combination transform.moduli left right) := by
  have sameDomain : ¬ left.domain ≠ right.domain := by
    rw [leftShaped.domain, rightShaped.domain]
    exact fun differ => differ rfl
  simp only [checkedCombine]
  rw [if_neg sameDomain, leftShaped.full, rightShaped.full, leftShaped.size, Nat.mul_comm]
  simp

theorem checkedAdd_eq_ok (positive : ∀ q ∈ transform.moduli, 0 < q.toNat) :
    left.checkedAdd transform.moduli right = .ok (left.add transform.moduli right) := by
  have nonzero : transform.moduli.contains 0 = false := by
    rw [List.contains_eq_any_beq, List.any_eq_false]
    intro q member zero
    have above := positive q member
    rw [← beq_iff_eq.mp zero] at above
    exact absurd above (Nat.lt_irrefl 0)
  rw [checkedAdd, nonzero]
  exact checkedCombine_eq_ok leftShaped rightShaped add

end Checked

/-! ## Through the transformed domain -/

/-- The schoolbook product of two polynomials modulo `X^n + 1` and every modulus. -/
def schoolbookProduct (moduli : List UInt64) (left right : ResiduePoly) : ResiduePoly :=
  ofRows left.size moduli fun index =>
    Negacyclic.product left.size (left.integersAt index) (right.integersAt index)

/-- The coefficientwise sum of two polynomials modulo every modulus. -/
def schoolbookSum (moduli : List UInt64) (left right : ResiduePoly) : ResiduePoly :=
  ofRows left.size moduli fun index =>
    List.zipWith (· + ·) (left.integersAt index) (right.integersAt index)

/-- The coefficientwise difference of two polynomials modulo every modulus. -/
def schoolbookDifference (moduli : List UInt64) (left right : ResiduePoly) : ResiduePoly :=
  ofRows left.size moduli fun index =>
    List.zipWith (· - ·) (left.integersAt index) (right.integersAt index)

/-- Whether a polynomial in the transformed domain is transformed back to one in the coefficient
domain, all residues of both being reduced. -/
structure TransformsBack (transform : Transform) (image original : ResiduePoly) : Prop where
  imageShaped : image.Shaped transform.size transform.moduli .transformed
  originalShaped : original.Shaped transform.size transform.moduli .coefficient
  back : image.checkedToCoefficient transform = .ok original

section Transformed

variable {transform : Transform} (sound : transform.Sound) {left right : ResiduePoly}
  (leftShaped : left.Shaped transform.size transform.moduli .coefficient)
  (rightShaped : right.Shaped transform.size transform.moduli .coefficient)
include leftShaped

theorem checkedToTransformed_eq_ok :
    left.checkedToTransformed transform = .ok (left.toTransformed transform) := by
  rw [checkedToTransformed, leftShaped.domain]
  apply Transform.checked_eq_ok
  intro buffer member
  rw [List.mem_singleton.mp member, leftShaped.full_buffer]

theorem residues_toTransformed :
    (left.toTransformed transform).residues = transform.forward left.residues := by
  rw [toTransformed, leftShaped.domain]

include sound

theorem shaped_toTransformed :
    (left.toTransformed transform).Shaped transform.size transform.moduli .transformed := by
  have full := leftShaped.full_buffer
  rw [toTransformed, leftShaped.domain]
  refine ⟨leftShaped.size, rfl, ?_, sound.reduced_forward full⟩
  rw [Transform.length_forward full, ← full, leftShaped.full]

omit leftShaped in
/-- What a polynomial in the transformed domain is transformed back to. -/
theorem transformsBack {image : ResiduePoly}
    (shaped : image.Shaped transform.size transform.moduli .transformed) :
    TransformsBack transform image
      ⟨transform.inverse image.residues, transform.size, .coefficient⟩ := by
  have full := shaped.full_buffer
  refine ⟨shaped, ⟨rfl, rfl, ?_, sound.reduced_inverse full shaped.reduced⟩, ?_⟩
  · rw [Transform.length_inverse full, ← full, shaped.full]
  · rw [checkedToCoefficient, shaped.domain]
    refine (Transform.checked_eq_ok _ (by simpa using full)).trans ?_
    rw [toCoefficient, shaped.domain, shaped.size]

include rightShaped

/-- The pointwise product of two transforms is transformed back to the schoolbook product. -/
theorem transformsBack_mul :
    ∃ product, (left.toTransformed transform).checkedMul transform (right.toTransformed transform) =
        .ok product ∧
      TransformsBack transform product (schoolbookProduct transform.moduli left right) := by
  have leftImage := shaped_toTransformed sound leftShaped
  have rightImage := shaped_toTransformed sound rightShaped
  have full := Transform.length_pointwise leftImage.full_buffer rightImage.full_buffer
  have shaped : ((left.toTransformed transform).mul transform
      (right.toTransformed transform)).Shaped transform.size transform.moduli .transformed := by
    refine ⟨leftImage.size, rfl, ?_, ?_⟩
    · rw [mul, full, ← leftImage.full_buffer, leftImage.full]
    · exact sound.reduced_pointwise leftImage.full_buffer rightImage.full_buffer rightImage.reduced
  refine ⟨(left.toTransformed transform).mul transform (right.toTransformed transform), ?_, ?_⟩
  · rw [checkedMul, if_pos ⟨leftImage.domain, rightImage.domain⟩]
    apply Transform.checked_eq_ok
    simp [leftImage.full_buffer, rightImage.full_buffer]
  · have back := transformsBack sound shaped
    have same := back.originalShaped.eq_ofRows
      (fun index _ => Negacyclic.length_product transform.size (left.integersAt index)
        (right.integersAt index)) sound.positive ?_
    · rw [schoolbookProduct, leftShaped.size, ← same]
      exact back
    · intro index q present
      have classes := sound.classes_inverse_pointwise leftShaped.full_buffer
        rightShaped.full_buffer present
      rw [← leftShaped.size, ← Negacyclic.product_map, ← leftShaped.classesAt_eq,
        ← rightShaped.classesAt_eq, leftShaped.size, ← classes, mul,
        residues_toTransformed leftShaped, residues_toTransformed rightShaped]

variable {operation : UInt64 → UInt64 → UInt64 → UInt64} {factor : Int}
  (combines : Combines operation factor)
include combines

/-- A combination of two transforms is transformed back to the combination. -/
theorem transformsBack_combine :
    TransformsBack transform
      (combine operation transform.moduli (left.toTransformed transform)
        (right.toTransformed transform))
      (combine operation transform.moduli left right) := by
  have leftImage := shaped_toTransformed sound leftShaped
  have rightImage := shaped_toTransformed sound rightShaped
  have image := leftImage.combine rightImage combines
  have original := leftShaped.combine rightShaped combines
  have back := transformsBack sound image
  have same : transform.inverse (combine operation transform.moduli (left.toTransformed transform)
      (right.toTransformed transform)).residues =
        (combine operation transform.moduli left right).residues := by
    apply eq_of_run_eq back.originalShaped.full original.full
    intro index inside
    have present : index < transform.count := by
      rwa [Transform.moduli, List.length_map] at inside
    obtain ⟨channel, found⟩ := Transform.channel_present present
    have modulus := Transform.modulus_present found
    rw [Transform.run_inverse image.full_buffer found, combine, leftImage.size,
      run_combineRuns leftImage.full rightImage.full modulus, residues_toTransformed leftShaped,
      residues_toTransformed rightShaped, Transform.run_forward leftShaped.full_buffer found,
      Transform.run_forward rightShaped.full_buffer found, combine, leftShaped.size,
      run_combineRuns leftShaped.full rightShaped.full modulus]
    exact combines.inverse_combine (sound.channel found)
      (Transform.length_run_pow leftShaped.full_buffer found)
      (Transform.length_run_pow rightShaped.full_buffer found)
      (leftShaped.reduced index _ modulus) (rightShaped.reduced index _ modulus)
  refine ⟨image, original, back.back.trans ?_⟩
  rw [same, combine, leftShaped.size, leftShaped.domain]

/-- A combination has the residues of the combination of the integers. -/
theorem combine_eq_ofRows :
    combine operation transform.moduli left right = ofRows left.size transform.moduli fun index =>
      List.zipWith (fun low high => low + high * factor) (left.integersAt index)
        (right.integersAt index) := by
  rw [leftShaped.size]
  apply (leftShaped.combine rightShaped combines).eq_ofRows
  · intro index inside
    rw [List.length_zipWith, leftShaped.length_integersAt inside,
      rightShaped.length_integersAt inside, Nat.min_self]
  · exact sound.positive
  · intro index q present
    exact leftShaped.classesAt_combine rightShaped combines present

end Transformed

/-- The transformed domain is a faithful image of the polynomials modulo `X^n + 1`.  Primes below
`2^63` that are one more than a multiple of `2 n` have a transform of size `n`.  The product of two
polynomials in its transformed domain is transformed back to their schoolbook product, and so are
the sum and the difference, which are those in the coefficient domain.  All residues on the way are
reduced. -/
theorem toCoefficient_of_transformed {depth : Nat} {moduli : List UInt64} (nonempty : moduli ≠ [])
    (primes : ∀ q ∈ moduli, Nat.Prime q.toNat) (bounded : ∀ q ∈ moduli, q.toNat < 2 ^ 63)
    (congruent : ∀ q ∈ moduli, q.toNat % (2 * 2 ^ depth) = 1) :
    ∃ transform, Transform.ofModuli (2 ^ depth) moduli = .ok transform ∧
      transform.size = 2 ^ depth ∧ transform.moduli = moduli ∧
      ∀ left right, left.Shaped (2 ^ depth) moduli .coefficient →
        right.Shaped (2 ^ depth) moduli .coefficient →
        ∃ leftImage rightImage, left.checkedToTransformed transform = .ok leftImage ∧
          right.checkedToTransformed transform = .ok rightImage ∧
          (∃ product, leftImage.checkedMul transform rightImage = .ok product ∧
            TransformsBack transform product (schoolbookProduct moduli left right)) ∧
          (∃ sum, leftImage.checkedAdd moduli rightImage = .ok sum ∧
            TransformsBack transform sum (schoolbookSum moduli left right) ∧
            left.checkedAdd moduli right = .ok (schoolbookSum moduli left right)) ∧
          ∃ difference, leftImage.checkedSub moduli rightImage = .ok difference ∧
            TransformsBack transform difference (schoolbookDifference moduli left right) ∧
            left.checkedSub moduli right = .ok (schoolbookDifference moduli left right) := by
  have halves : ∀ q ∈ moduli, 2 * q.toNat < UInt64.size := by
    intro q member
    have small := bounded q member
    simp only [UInt64.size]
    omega
  obtain ⟨transform, built⟩ := Transform.exists_ofModuli nonempty primes congruent
  obtain ⟨sound, size, same⟩ := Transform.sound_of_ofModuli primes halves built
  refine ⟨transform, built, size, same, ?_⟩
  intro left right leftShaped rightShaped
  rw [← size, ← same] at leftShaped rightShaped
  rw [← same]
  have leftImage := shaped_toTransformed sound leftShaped
  have rightImage := shaped_toTransformed sound rightShaped
  have sum : schoolbookSum transform.moduli left right = left.add transform.moduli right := by
    have combined := combine_eq_ofRows sound leftShaped rightShaped combines_add
    simp only [mul_one] at combined
    exact combined.symm
  have difference : schoolbookDifference transform.moduli left right =
      left.sub transform.moduli right := by
    have combined := combine_eq_ofRows sound leftShaped rightShaped combines_sub
    simp only [mul_neg, mul_one, ← sub_eq_add_neg] at combined
    exact combined.symm
  refine ⟨left.toTransformed transform, right.toTransformed transform,
    checkedToTransformed_eq_ok leftShaped, checkedToTransformed_eq_ok rightShaped,
    transformsBack_mul sound leftShaped rightShaped,
    ⟨(left.toTransformed transform).add transform.moduli (right.toTransformed transform), ?_, ?_, ?_⟩,
    ⟨(left.toTransformed transform).sub transform.moduli (right.toTransformed transform), ?_, ?_, ?_⟩⟩
  · exact checkedAdd_eq_ok leftImage rightImage sound.positive
  · rw [sum]
    exact transformsBack_combine sound leftShaped rightShaped combines_add
  · rw [sum]
    exact checkedAdd_eq_ok leftShaped rightShaped sound.positive
  · exact checkedCombine_eq_ok leftImage rightImage sub
  · rw [difference]
    exact transformsBack_combine sound leftShaped rightShaped combines_sub
  · rw [difference]
    exact checkedCombine_eq_ok leftShaped rightShaped sub

/-- Modulo 5 and 13 the polynomials `1 + 2 X` and `3 + 4 X` have the product `-5 + 10 X` modulo
`X^2 + 1`. -/
theorem toCoefficient_of_transformed_two :
    ([5, 13] : List UInt64) ≠ [] ∧ (∀ q ∈ ([5, 13] : List UInt64), Nat.Prime q.toNat) ∧
    (∀ q ∈ ([5, 13] : List UInt64), q.toNat < 2 ^ 63) ∧
    (∀ q ∈ ([5, 13] : List UInt64), q.toNat % (2 * 2 ^ 1) = 1) ∧
    ∃ transform leftImage rightImage product,
      Transform.ofModuli (2 ^ 1) [5, 13] = .ok transform ∧
      (⟨[1, 2, 1, 2], 2, .coefficient⟩ : ResiduePoly).checkedToTransformed transform =
        .ok leftImage ∧
      (⟨[3, 4, 3, 4], 2, .coefficient⟩ : ResiduePoly).checkedToTransformed transform =
        .ok rightImage ∧
      leftImage.checkedMul transform rightImage = .ok product ∧
      product.checkedToCoefficient transform = .ok ⟨[0, 0, 8, 10], 2, .coefficient⟩ := by
  have nonempty : ([5, 13] : List UInt64) ≠ [] := by simp
  have primes : ∀ q ∈ ([5, 13] : List UInt64), Nat.Prime q.toNat := by
    simp only [List.mem_cons, List.not_mem_nil, or_false, forall_eq_or_imp, forall_eq]
    exact ⟨Nat.prime_five, (by norm_num : Nat.Prime 13)⟩
  have bounded : ∀ q ∈ ([5, 13] : List UInt64), q.toNat < 2 ^ 63 := by simp
  have congruent : ∀ q ∈ ([5, 13] : List UInt64), q.toNat % (2 * 2 ^ 1) = 1 := by simp
  have shaped : ∀ words : List UInt64, words.length = 4 → (∀ word ∈ words, word < 5) →
      (⟨words, 2, .coefficient⟩ : ResiduePoly).Shaped (2 ^ 1) [5, 13] .coefficient := by
    intro words full below
    refine ⟨rfl, rfl, full, ?_⟩
    intro index q present word member
    have first : word < 5 := below word (List.mem_of_mem_drop (List.mem_of_mem_take member))
    have least : ∀ q ∈ ([5, 13] : List UInt64), 5 ≤ q := by simp
    exact UInt64.lt_of_lt_of_le first (least q (List.mem_of_getElem? present))
  have value : schoolbookProduct [5, 13] ⟨[1, 2, 1, 2], 2, .coefficient⟩
      ⟨[3, 4, 3, 4], 2, .coefficient⟩ = ⟨[0, 0, 8, 10], 2, .coefficient⟩ := by
    simp [schoolbookProduct, ofRows, integersAt, component, Negacyclic.product,
      Negacyclic.productAt, Negacyclic.entry, List.range_succ, Finset.sum_range_succ, ofInt]
  obtain ⟨transform, built, _, _, operations⟩ :=
    toCoefficient_of_transformed nonempty primes bounded congruent
  obtain ⟨leftImage, rightImage, leftMade, rightMade, ⟨product, multiplied, back⟩, _⟩ :=
    operations ⟨[1, 2, 1, 2], 2, .coefficient⟩ ⟨[3, 4, 3, 4], 2, .coefficient⟩
      (shaped _ rfl (by simp)) (shaped _ rfl (by simp))
  have restored := back.back
  rw [value] at restored
  exact ⟨nonempty, primes, bounded, congruent, transform, leftImage, rightImage, product, built,
    leftMade, rightMade, multiplied, restored⟩

end ResiduePoly

end RingLwe
