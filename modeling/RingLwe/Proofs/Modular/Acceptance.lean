import RingLwe.Proofs.Modular.Remainders

/-!
# Which lists of moduli have a basis

Whether moduli are pairwise coprime is never tested.  A basis is made of the
inverses of the quotients `q / q_j` of the whole product, and these exist exactly
for moduli that are pairwise coprime.  So a list has a basis exactly when it is
usable, and the basis is the only one whose limbs hold the constants of the
moduli (`Basis.accepts_usable`): an inverse below the modulus is unique
(`Basis.Limb.Holds.unique`).

Moduli need not be primes, and a modulus that is listed twice is refused.
-/

set_option autoImplicit false

namespace RingLwe.Basis

/-- Whether a residue number system has the given moduli: there are some, each of them is at least
two, and they are pairwise coprime. -/
structure Usable (moduli : List UInt64) : Prop where
  nonempty : moduli ≠ []
  two_le : ∀ q ∈ moduli, 2 ≤ q.toNat
  coprime : (moduli.map UInt64.toNat).Pairwise Nat.Coprime

/-- Whether a limb holds the constants of a modulus of a list with the given product. -/
structure Limb.Holds (whole : Nat) (q : UInt64) (limb : Limb) : Prop where
  modulus : limb.modulus = q
  punctured : limb.punctured = whole / q.toNat
  reduced : limb.puncturedInverse < q
  inverse : whole / q.toNat * limb.puncturedInverse.toNat ≡ 1 [MOD q.toNat]

/-- The constants of a modulus determine its limb. -/
theorem Limb.Holds.unique (whole : Nat) : Relator.RightUnique (Limb.Holds whole) := by
  intro q left right leftHolds rightHolds
  have unit := Nat.coprime_of_mul_modEq_one _ leftHolds.inverse
  have congruent : left.puncturedInverse.toNat ≡ right.puncturedInverse.toNat [MOD q.toNat] :=
    Nat.ModEq.cancel_left_of_coprime unit.symm
      (leftHolds.inverse.trans rightHolds.inverse.symm)
  have same : left.puncturedInverse = right.puncturedInverse :=
    UInt64.toNat_inj.mp (congruent.eq_of_lt_of_lt
      (UInt64.lt_iff_toNat_lt.mp leftHolds.reduced) (UInt64.lt_iff_toNat_lt.mp rightHolds.reduced))
  cases left
  cases right
  simp only at same
  rw [Limb.mk.injEq]
  exact ⟨leftHolds.modulus.trans rightHolds.modulus.symm,
    leftHolds.punctured.trans rightHolds.punctured.symm, same⟩

theorem Sound.forall₂_holds {basis : Basis} (sound : basis.Sound) :
    List.Forall₂ (Limb.Holds basis.modulus) basis.moduli basis.limbs := by
  refine List.forall₂_map_left_iff.mpr (List.forall₂_same.mpr fun limb member => ?_)
  have positive : 0 < limb.modulus.toNat := Nat.zero_lt_of_lt (sound.two_le limb member)
  have punctured : limb.punctured = basis.modulus / limb.modulus.toNat :=
    (Nat.div_eq_of_eq_mul_right positive (sound.punctured limb member).symm).symm
  exact ⟨rfl, punctured, sound.inverse_lt limb member, punctured ▸ sound.inverse limb member⟩

/-- A list that has a basis is usable, and the basis has its product and its constants. -/
theorem spec_of_ofModuli? {moduli : List UInt64} {basis : Basis}
    (built : ofModuli? moduli = some basis) :
    Usable moduli ∧ basis.modulus = (moduli.map UInt64.toNat).prod ∧
      List.Forall₂ (Limb.Holds (moduli.map UInt64.toNat).prod) moduli basis.limbs := by
  obtain ⟨sound, rfl, nonempty⟩ := sound_of_ofModuli? built
  have product : basis.modulus = (basis.moduli.map UInt64.toNat).prod := by
    rw [← product_eq_prod, sound.product]
  exact ⟨⟨nonempty, fun _ => sound.modulus_two_le, sound.pairwise_coprime⟩, product,
    product ▸ sound.forall₂_holds⟩

/-- A list of moduli has a basis exactly when it is usable.  Its basis is the one with the product of
the moduli whose limbs hold, for each modulus in order, the quotient of the product and the reduced
inverse of that quotient. -/
theorem accepts_usable (moduli : List UInt64) :
    ((ofModuli? moduli).isSome ↔ Usable moduli) ∧
    ∀ basis, ofModuli? moduli = some basis ↔
      Usable moduli ∧ basis.modulus = (moduli.map UInt64.toNat).prod ∧
        List.Forall₂ (Limb.Holds (moduli.map UInt64.toNat).prod) moduli basis.limbs := by
  have accepted : Usable moduli → ∃ basis, ofModuli? moduli = some basis := fun usable =>
    exists_ofModuli? usable.nonempty usable.two_le usable.coprime
  refine ⟨⟨fun found => ?_, fun usable => ?_⟩, fun basis => ⟨spec_of_ofModuli?, ?_⟩⟩
  · obtain ⟨basis, built⟩ := Option.isSome_iff_exists.mp found
    exact (spec_of_ofModuli? built).1
  · exact Option.isSome_iff_exists.mpr (accepted usable)
  · rintro ⟨usable, product, limbs⟩
    obtain ⟨other, built⟩ := accepted usable
    obtain ⟨_, otherProduct, otherLimbs⟩ := spec_of_ofModuli? built
    have same : other = basis := by
      cases other
      cases basis
      rw [Basis.mk.injEq]
      exact ⟨List.right_unique_forall₂' (Limb.Holds.unique _) otherLimbs limbs,
        otherProduct.trans product.symm⟩
    rw [built, same]

example : (ofModuli? [4, 9, 25]).isSome ∧ ofModuli? [6, 9] = none ∧ ofModuli? [7, 7] = none := by
  decide +kernel

end RingLwe.Basis
