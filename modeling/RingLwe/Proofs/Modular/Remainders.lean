import RingLwe.Proofs.Modular.Basis

/-!
# Numbers and their residues

Every list of pairwise coprime moduli from two on has a basis, whether they are
primes or not: the product of the other moduli is coprime to each
(`coprime_punctured`), so all inverses exist (`exists_ofModuli?`).

In a basis the numbers below the product of the moduli and the lists of reduced
residues determine each other.  The composed number is the only one below the
product that has the given residues (`eq_compose_iff`), the residues of a number
are its remainders (`map_toNat_decompose`), and each way undoes the other one up
to reduction (`compose_decompose`, `decompose_compose`).
-/

set_option autoImplicit false

namespace RingLwe.Basis

/-! ## Lists that have a basis -/

/-- Of pairwise coprime moduli, each is coprime to the product of the others. -/
theorem coprime_punctured {moduli : List UInt64}
    (coprime : (moduli.map UInt64.toNat).Pairwise Nat.Coprime) {q : UInt64} (member : q ∈ moduli)
    (positive : 0 < q.toNat) : Nat.Coprime (product moduli / q.toNat) q.toNat := by
  obtain ⟨front, back, rfl⟩ := List.append_of_mem member
  rw [List.map_append, List.map_cons, List.pairwise_append, List.pairwise_cons] at coprime
  obtain ⟨_, ⟨behind, _⟩, across⟩ := coprime
  have before : Nat.Coprime (front.map UInt64.toNat).prod q.toNat :=
    Nat.coprime_list_prod_left_iff.mpr fun modulus inside =>
      across modulus inside _ (List.mem_cons_self ..)
  have after : Nat.Coprime (back.map UInt64.toNat).prod q.toNat :=
    Nat.coprime_list_prod_left_iff.mpr fun modulus inside => (behind modulus inside).symm
  have quotient : product (front ++ q :: back) / q.toNat =
      (front.map UInt64.toNat).prod * (back.map UInt64.toNat).prod := by
    apply Nat.div_eq_of_eq_mul_left positive
    rw [product_eq_prod, List.map_append, List.prod_append, List.map_cons, List.prod_cons]
    ring
  rw [quotient]
  exact before.mul_left after

/-- Pairwise coprime moduli from two on have a basis. -/
theorem exists_ofModuli? {moduli : List UInt64} (nonempty : moduli ≠ [])
    (two_le : ∀ q ∈ moduli, 2 ≤ q.toNat)
    (coprime : (moduli.map UInt64.toNat).Pairwise Nat.Coprime) :
    ∃ basis, ofModuli? moduli = some basis := by
  have usable : (moduli.isEmpty || moduli.any (· < 2)) = false := by
    rw [Bool.or_eq_false_iff, List.isEmpty_eq_false_iff, List.any_eq_false]
    refine ⟨nonempty, ?_⟩
    intro q member below
    have above := two_le q member
    have less := UInt64.lt_iff_toNat_lt.mp (of_decide_eq_true below)
    exact absurd above (Nat.not_le.mpr less)
  have limbs : ∃ limbs, moduli.mapM (Limb.ofModulus? (product moduli)) = some limbs := by
    apply exists_mapM_eq_some
    intro q member
    have above := two_le q member
    have positive : 0 < q.toNat := by omega
    have remainder : (product moduli / q.toNat % q.toNat).toUInt64.toNat =
        product moduli / q.toNat % q.toNat :=
      Residue.toNat_toUInt64_of_lt (Nat.mod_lt _ positive)
    have unit : Nat.gcd (product moduli / q.toNat % q.toNat).toUInt64.toNat q.toNat = 1 := by
      rw [remainder, ← Nat.gcd_rec, Nat.gcd_comm]
      exact coprime_punctured coprime member positive
    have invertible : Residue.inverse? (product moduli / q.toNat % q.toNat).toUInt64 q ≠ none :=
      fun none => (Residue.inverse?_eq_none_iff positive).mp none unit
    obtain ⟨inverse, found⟩ := Option.ne_none_iff_exists'.mp invertible
    exact ⟨_, by rw [Limb.ofModulus?, found, Option.map_some]⟩
  obtain ⟨limbs, made⟩ := limbs
  refine ⟨⟨limbs, product moduli⟩, ?_⟩
  rw [ofModuli?, usable, made]
  rfl

/-! ## Residues of numbers -/

/-- Whether a number has the given residues modulo the moduli, one for each. -/
def HasResidues (moduli residues : List UInt64) (number : Nat) : Prop :=
  List.Forall₂ (fun q residue => number ≡ residue.toNat [MOD q.toNat]) moduli residues

section HasResidues

variable {moduli residues : List UInt64} {number : Nat}
  (has : HasResidues moduli residues number)
include has

/-- Numbers with the same residues are congruent modulo every modulus. -/
theorem HasResidues.modEq {other : Nat} (otherHas : HasResidues moduli residues other) :
    ∀ q ∈ moduli, number ≡ other [MOD q.toNat] := by
  induction has with
  | nil =>
    intro q member
    cases member
  | cons here _ ih =>
    cases otherHas with
    | cons otherHere otherRest =>
      exact List.forall_mem_cons.mpr ⟨here.trans otherHere.symm, ih otherRest⟩

/-- The remainders of a number are its residues, reduced. -/
theorem HasResidues.map_remainder (positive : ∀ q ∈ moduli, 0 < q.toNat) :
    moduli.map (fun q => (number % q.toNat).toUInt64) = List.zipWith (· % ·) residues moduli := by
  induction has with
  | nil => rfl
  | cons here _ ih =>
    obtain ⟨first, others⟩ := List.forall_mem_cons.mp positive
    rw [List.map_cons, List.zipWith_cons_cons, ih others]
    congr 1
    apply UInt64.toNat_inj.mp
    rw [Residue.toNat_toUInt64_of_lt (Nat.mod_lt _ first), UInt64.toNat_mod]
    exact here

end HasResidues

namespace Sound

variable {basis : Basis} (sound : basis.Sound)
include sound

theorem hasResidues_compose {residues : List UInt64}
    (full : residues.length = basis.moduli.length) :
    HasResidues basis.moduli residues (basis.compose residues) := by
  have size : basis.moduli.length = basis.size := List.length_map _
  refine List.forall₂_iff_get.mpr ⟨full.symm, ?_⟩
  intro index inside enough
  have residue := sound.compose_modEq_getD (full.trans size) (List.getElem?_eq_getElem inside)
  rwa [List.getD_eq_getElem _ _ enough] at residue

/-- The composed number is the only one below the product that has the residues of which it is
composed. -/
theorem eq_compose_iff {residues : List UInt64} (full : residues.length = basis.moduli.length)
    (number : Nat) :
    number < basis.modulus ∧ HasResidues basis.moduli residues number ↔
      number = basis.compose residues := by
  have composed := sound.hasResidues_compose full
  constructor
  · rintro ⟨below, has⟩
    have same : number ≡ basis.compose residues [MOD basis.modulus] := by
      apply sound.modEq_of_modEq
      intro limb member
      exact has.modEq composed _ (List.mem_map_of_mem member)
    exact same.eq_of_lt_of_lt below (sound.compose_lt residues)
  · rintro rfl
    exact ⟨sound.compose_lt residues, composed⟩

theorem map_toNat_decompose (number : Nat) :
    (basis.decompose number).map UInt64.toNat = basis.moduli.map (number % ·.toNat) := by
  rw [decompose, List.map_map]
  refine List.map_congr_left ?_
  intro q member
  have above := sound.modulus_two_le member
  exact Residue.toNat_toUInt64_of_lt (Nat.mod_lt _ (by omega))

theorem decompose_compose {residues : List UInt64}
    (full : residues.length = basis.moduli.length) :
    basis.decompose (basis.compose residues) = List.zipWith (· % ·) residues basis.moduli := by
  apply (sound.hasResidues_compose full).map_remainder
  intro q member
  have above := sound.modulus_two_le member
  omega

/-- The number composed of the residues of a number is its remainder by the product. -/
theorem compose_decompose (number : Nat) :
    basis.compose (basis.decompose number) = number % basis.modulus := by
  have full : (basis.decompose number).length = basis.moduli.length := List.length_map _
  refine ((sound.eq_compose_iff full _).mp ⟨Nat.mod_lt _ sound.modulus_pos, ?_⟩).symm
  apply List.forall₂_map_right_iff.mpr
  apply List.forall₂_same.mpr
  intro q member
  have above := sound.modulus_two_le member
  rw [Residue.toNat_toUInt64_of_lt (Nat.mod_lt _ (by omega))]
  exact ((Nat.mod_modEq number _).of_dvd (sound.dvd_modulus member)).trans
    (Nat.mod_modEq number _).symm

end Sound

/-- Every list of pairwise coprime moduli from two on has a basis.  In every basis that a list of
moduli has, the number composed of as many residues is the only one below the product of the moduli
that has them, whether they are reduced or not, the residues of a number are its remainders, and
composition and decomposition undo each other up to reduction. -/
theorem compose_and_decompose (moduli : List UInt64) :
    (moduli ≠ [] → (∀ q ∈ moduli, 2 ≤ q.toNat) →
      (moduli.map UInt64.toNat).Pairwise Nat.Coprime → ∃ basis, ofModuli? moduli = some basis) ∧
    ∀ basis, ofModuli? moduli = some basis →
      (∀ residues, residues.length = moduli.length →
        basis.checkedCompose residues = .ok (basis.compose residues) ∧
        (∀ number, number < (moduli.map UInt64.toNat).prod ∧ HasResidues moduli residues number ↔
          number = basis.compose residues) ∧
        basis.decompose (basis.compose residues) = List.zipWith (· % ·) residues moduli) ∧
      ∀ number,
        (basis.decompose number).map UInt64.toNat = moduli.map (number % ·.toNat) ∧
        basis.compose (basis.decompose number) = number % (moduli.map UInt64.toNat).prod := by
  refine ⟨exists_ofModuli?, ?_⟩
  intro basis accepted
  obtain ⟨sound, rfl, _⟩ := sound_of_ofModuli? accepted
  have product : (basis.moduli.map UInt64.toNat).prod = basis.modulus := by
    rw [← product_eq_prod, sound.product]
  rw [product]
  refine ⟨?_, fun number => ⟨sound.map_toNat_decompose number, sound.compose_decompose number⟩⟩
  intro residues full
  refine ⟨?_, sound.eq_compose_iff full, sound.decompose_compose full⟩
  have size : residues.length = basis.size := full.trans (List.length_map _)
  rw [checkedCompose, size, Checked.unless, bne_self_eq_false, if_neg Bool.false_ne_true]

/-- The largest word, half of the number of words and 77 are coprime and none of them is a prime.
The first two residues below are not reduced. -/
theorem compose_and_decompose_composite : ∃ basis,
    ofModuli? [18446744073709551615, 9223372036854775808, 77] = some basis ∧
    basis.compose [18446744073709551615, 9223372036854775809, 23] =
      2892400118827976939263440094469789057025 ∧
    basis.decompose (basis.compose [18446744073709551615, 9223372036854775809, 23]) = [0, 1, 23] ∧
    basis.compose (basis.decompose (2 ^ 200)) =
      2 ^ 200 % 13100871126456130842629722739285258403840 := by
  obtain ⟨usable, each⟩ := compose_and_decompose [18446744073709551615, 9223372036854775808, 77]
  obtain ⟨basis, accepted⟩ := usable (by simp) (by simp) (by decide +kernel)
  obtain ⟨composed, decomposed⟩ := each basis accepted
  obtain ⟨_, unique, back⟩ := composed [18446744073709551615, 9223372036854775809, 23] rfl
  refine ⟨basis, accepted, ?_, back, (decomposed (2 ^ 200)).2⟩
  refine ((unique _).mp ⟨by decide, ?_⟩).symm
  exact .cons (by decide) (.cons (by decide) (.cons (by decide) .nil))

end RingLwe.Basis
