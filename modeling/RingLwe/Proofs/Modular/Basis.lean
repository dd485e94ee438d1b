import RingLwe.Modular.Basis
import RingLwe.Proofs.Modular.Classes
import RingLwe.Proofs.Modular.Euclid
import RingLwe.Proofs.Outcomes

/-!
# The Chinese remainder theorem for a basis

In a basis that was built (`Basis.Sound`), the number composed of residues is
below the product of the moduli (`compose_lt`) and has them (`compose_modEq`),
and it is congruent modulo the product to every integer that has them
(`compose_modEq_of_classes`).

Composition and switching both start from the weights `x_j · (q / q_j)⁻¹` of
the residues.  The sum of the weights times the quotients `q / q_j` has the
given residues before it is reduced (`weightedSum_modEq`).
-/

set_option autoImplicit false

namespace RingLwe.Basis

/-- What holds of a basis of a list of moduli. -/
structure Sound (basis : Basis) : Prop where
  two_le : ∀ limb ∈ basis.limbs, 2 ≤ limb.modulus.toNat
  product : basis.modulus = product basis.moduli
  punctured : ∀ limb ∈ basis.limbs, limb.modulus.toNat * limb.punctured = basis.modulus
  inverse_lt : ∀ limb ∈ basis.limbs, limb.puncturedInverse < limb.modulus
  inverse : ∀ limb ∈ basis.limbs,
    limb.punctured * limb.puncturedInverse.toNat ≡ 1 [MOD limb.modulus.toNat]

/-- The larger one of two words is the larger one of their numbers. -/
instance : Std.LawfulOrderMax UInt64 where
  max_eq_or left right := by
    change (if left ≤ right then right else left) = left ∨
      (if left ≤ right then right else left) = right
    split
    · exact Or.inr rfl
    · exact Or.inl rfl
  max_le_iff left right bound := by
    change (if left ≤ right then right else left) ≤ bound ↔ _
    simp only [UInt64.le_iff_toNat_le]
    split
    next ordered =>
      constructor
      · intro small
        exact ⟨Nat.le_trans ordered small, small⟩
      · exact And.right
    next reversed =>
      constructor
      · intro small
        exact ⟨small, by omega⟩
      · exact And.left

theorem le_maxModulus {basis : Basis} {q : UInt64} (member : q ∈ basis.moduli) :
    q.toNat ≤ basis.maxModulus.toNat := by
  obtain ⟨greatest, found⟩ := Option.isSome_iff_exists.mp (List.isSome_max?_of_mem member)
  have order := UInt64.le_iff_toNat_le.mp ((List.max?_eq_some_iff.mp found).2 q member)
  rw [maxModulus, found, Option.getD_some]
  exact order

theorem minModulus_spec {basis : Basis} (nonempty : basis.moduli ≠ []) :
    basis.minModulus ∈ basis.moduli ∧ ∀ q ∈ basis.moduli, basis.minModulus ≤ q := by
  obtain ⟨q, member⟩ := List.exists_mem_of_ne_nil _ nonempty
  obtain ⟨least, found⟩ := Option.isSome_iff_exists.mp (List.isSome_min?_of_mem member)
  rw [minModulus, found, Option.getD_some]
  exact List.min?_eq_some_iff.mp found

theorem product_eq_prod (moduli : List UInt64) :
    product moduli = (moduli.map UInt64.toNat).prod := by
  induction moduli with
  | nil => rfl
  | cons modulus moduli ih =>
    rw [List.map_cons, List.prod_cons, ← ih]
    rfl

/-! ## Construction -/

/-- One modulus of a list and the constants made for it. -/
theorem Limb.ofModulus?_sound {whole : Nat} {modulus : UInt64} {limb : Limb}
    (above : 2 ≤ modulus.toNat) (found : Limb.ofModulus? whole modulus = some limb) :
    limb.modulus = modulus ∧ limb.punctured = whole / modulus.toNat ∧
      limb.puncturedInverse < modulus ∧
      limb.punctured * limb.puncturedInverse.toNat ≡ 1 [MOD modulus.toNat] := by
  obtain ⟨inverse, inverted, rfl⟩ := Option.map_eq_some_iff.mp found
  obtain ⟨reduced, unit⟩ := Residue.inverse?_sound (by omega) inverted
  have remainder : (whole / modulus.toNat % modulus.toNat).toUInt64.toNat =
      whole / modulus.toNat % modulus.toNat :=
    Residue.toNat_toUInt64_of_lt (Nat.mod_lt _ (by omega))
  rw [remainder] at unit
  exact ⟨rfl, rfl, reduced, ((Nat.mod_modEq _ _).symm.mul_right _).trans unit⟩

theorem dvd_product {moduli : List UInt64} {modulus : UInt64} (member : modulus ∈ moduli) :
    modulus.toNat ∣ product moduli := by
  rw [product_eq_prod]
  exact List.dvd_prod (List.mem_map_of_mem member)

/-- A basis that was built is sound, and its moduli are those that were given. -/
theorem sound_of_ofModuli? {moduli : List UInt64} {basis : Basis}
    (built : ofModuli? moduli = some basis) :
    basis.Sound ∧ basis.moduli = moduli ∧ moduli ≠ [] := by
  unfold ofModuli? at built
  split at built
  next => cases built
  next usable =>
    simp only [Bool.or_eq_true, List.isEmpty_iff, List.any_eq_true, decide_eq_true_eq, not_or,
      not_exists, not_and] at usable
    obtain ⟨nonempty, above⟩ := usable
    have two_le : ∀ modulus ∈ moduli, 2 ≤ modulus.toNat := fun modulus member =>
      UInt64.le_iff_toNat_le.mp (UInt64.not_lt.mp (above modulus member))
    obtain ⟨limbs, found, rfl⟩ := Option.map_eq_some_iff.mp built
    have pairs := forall₂_of_mapM_eq_some found
    have same : limbs.map Limb.modulus = moduli :=
      map_eq_of_forall₂ pairs fun modulus member limb made =>
        (Limb.ofModulus?_sound (two_le modulus member) made).1
    have origin : ∀ limb ∈ limbs, limb.modulus ∈ moduli ∧
        limb.punctured = product moduli / limb.modulus.toNat ∧
        limb.puncturedInverse < limb.modulus ∧
        limb.punctured * limb.puncturedInverse.toNat ≡ 1 [MOD limb.modulus.toNat] := by
      intro limb member
      obtain ⟨modulus, inside, made⟩ := exists_of_mem_of_forall₂ pairs member
      obtain ⟨rfl, constants⟩ := Limb.ofModulus?_sound (two_le modulus inside) made
      exact ⟨inside, constants⟩
    refine ⟨?_, same, nonempty⟩
    exact
      { two_le := fun limb member => two_le _ (origin limb member).1
        product := congrArg product same.symm
        punctured := fun limb member => by
          rw [(origin limb member).2.1]
          exact Nat.mul_div_cancel' (dvd_product (origin limb member).1)
        inverse_lt := fun limb member => (origin limb member).2.2.1
        inverse := fun limb member => (origin limb member).2.2.2 }

/-! ## Pairs of moduli -/

namespace Sound

variable {basis : Basis} (sound : basis.Sound)
include sound

theorem modulus_two_le {q : UInt64} (member : q ∈ basis.moduli) : 2 ≤ q.toNat := by
  obtain ⟨limb, inside, rfl⟩ := List.mem_map.mp member
  exact sound.two_le limb inside

theorem dvd_modulus {q : UInt64} (member : q ∈ basis.moduli) : q.toNat ∣ basis.modulus := by
  rw [sound.product]
  exact dvd_product member

theorem modulus_pos : 0 < basis.modulus := by
  rw [sound.product, product_eq_prod]
  refine Nat.pos_of_ne_zero (List.prod_ne_zero fun zero => ?_)
  obtain ⟨modulus, member, vanishes⟩ := List.mem_map.mp zero
  have := sound.modulus_two_le member
  omega

/-- Of two limbs at different places, each modulus divides the punctured product of the other. -/
theorem pairwise_dvd : basis.limbs.Pairwise fun earlier later =>
    earlier.modulus.toNat ∣ later.punctured ∧ later.modulus.toNat ∣ earlier.punctured := by
  refine List.pairwise_iff_forall_sublist.mpr fun {earlier later} pair => ?_
  have both : earlier.modulus.toNat * later.modulus.toNat ∣ basis.modulus := by
    have divides := (pair.map (UInt64.toNat ∘ Limb.modulus)).prod_dvd_prod
    rw [List.map_cons, List.map_cons, List.map_nil, List.prod_cons, List.prod_cons,
      List.prod_nil, mul_one] at divides
    rw [sound.product, product_eq_prod, moduli, List.map_map]
    exact divides
  have earlierWhole := sound.punctured earlier (pair.subset (by simp))
  have laterWhole := sound.punctured later (pair.subset (by simp))
  have earlierAbove := sound.two_le earlier (pair.subset (by simp))
  have laterAbove := sound.two_le later (pair.subset (by simp))
  constructor
  · rw [← laterWhole, mul_comm] at both
    exact Nat.dvd_of_mul_dvd_mul_left (by omega) both
  · rw [← earlierWhole] at both
    exact Nat.dvd_of_mul_dvd_mul_left (by omega) both

theorem pairwise_coprime :
    (basis.moduli.map UInt64.toNat).Pairwise Nat.Coprime := by
  rw [moduli, List.map_map, List.pairwise_map]
  refine sound.pairwise_dvd.imp_of_mem fun {earlier later} _ inside divides => ?_
  have unit := sound.inverse later inside
  have coprime : Nat.Coprime later.punctured later.modulus.toNat :=
    Nat.coprime_of_mul_modEq_one _ unit
  exact coprime.coprime_dvd_left divides.1

/-- Numbers with the same residues are congruent modulo the product. -/
theorem modEq_of_modEq {left right : Nat}
    (same : ∀ limb ∈ basis.limbs, left ≡ right [MOD limb.modulus.toNat]) :
    left ≡ right [MOD basis.modulus] := by
  have everywhere : ∀ modulus ∈ basis.moduli.map UInt64.toNat, left ≡ right [MOD modulus] := by
    intro modulus member
    obtain ⟨word, inside, rfl⟩ := List.mem_map.mp member
    obtain ⟨limb, present, rfl⟩ := List.mem_map.mp inside
    exact same limb present
  rw [sound.product, product_eq_prod]
  exact (Nat.modEq_list_prod_iff sound.pairwise_coprime).mpr fun index =>
    everywhere _ (List.get_mem _ _)

/-- Integers of the same classes are congruent modulo the product. -/
theorem intModEq_of_classes {left right : Int}
    (same : ∀ (index : Nat) q, basis.moduli[index]? = some q →
      (left : ZMod q.toNat) = (right : ZMod q.toNat)) : left ≡ right [ZMOD basis.modulus] := by
  have difference : (right - left).natAbs ≡ 0 [MOD basis.modulus] := by
    refine sound.modEq_of_modEq ?_
    intro limb member
    obtain ⟨index, present⟩ := List.getElem?_of_mem (List.mem_map_of_mem member)
    have congruent := (ZMod.intCast_eq_intCast_iff _ _ _).mp (same index _ present)
    exact Nat.modEq_zero_iff_dvd.mpr (Int.natCast_dvd.mp congruent.dvd)
  exact Int.modEq_iff_dvd.mpr (Int.natCast_dvd.mpr (Nat.modEq_zero_iff_dvd.mp difference))


end Sound

/-! ## Composition -/

theorem sublist_map_fst_zip {α β : Type} (left : List α) (right : List β) :
    ((left.zip right).map Prod.fst).Sublist left := by
  induction left generalizing right with
  | nil => exact .slnil
  | cons first left ih =>
    cases right with
    | nil => exact List.nil_sublist _
    | cons second right => exact (ih right).cons_cons first

/-- The weight of a residue: its product with the inverse of the punctured product. -/
def Limb.weight (limb : Limb) (residue : UInt64) : Nat :=
  residue.toNat * limb.puncturedInverse.toNat % limb.modulus.toNat

/-- The sum of the weighted punctured products of pairs of limbs and residues. -/
def sumOfPairs (pairs : List (Limb × UInt64)) : Nat :=
  (pairs.map fun pair => pair.1.punctured * pair.1.weight pair.2).sum

/-- The sum from which a number is composed, before it is reduced. -/
def weightedSum (basis : Basis) (residues : List UInt64) : Nat :=
  sumOfPairs (basis.limbs.zip residues)

theorem sumOfPairs_eq_foldr (pairs : List (Limb × UInt64))
    (above : ∀ pair ∈ pairs, 2 ≤ pair.1.modulus.toNat) :
    pairs.foldr (fun (limb, residue) sum =>
      limb.punctured * (Residue.mul residue limb.puncturedInverse limb.modulus).toNat + sum) 0 =
      sumOfPairs pairs := by
  induction pairs with
  | nil => rfl
  | cons pair pairs ih =>
    obtain ⟨limb, residue⟩ := pair
    have first : 2 ≤ limb.modulus.toNat := above (limb, residue) (List.mem_cons_self ..)
    have others := ih fun other member => above other (List.mem_cons_of_mem _ member)
    simp only [List.foldr_cons]
    rw [others, Residue.toNat_mul (by omega)]
    rfl

theorem sumOfPairs_modEq_zero {modulus : Nat} (pairs : List (Limb × UInt64))
    (divides : ∀ pair ∈ pairs, modulus ∣ pair.1.punctured) :
    sumOfPairs pairs ≡ 0 [MOD modulus] := by
  refine Nat.modEq_zero_iff_dvd.mpr (List.dvd_sum fun term inside => ?_)
  obtain ⟨pair, present, rfl⟩ := List.mem_map.mp inside
  exact (divides pair present).mul_right _

namespace Sound

variable {basis : Basis} (sound : basis.Sound)
include sound

theorem compose_eq (residues : List UInt64) :
    basis.compose residues = basis.weightedSum residues % basis.modulus := by
  rw [compose, sumOfPairs_eq_foldr _ fun pair member =>
    sound.two_le _ (List.of_mem_zip member).1]
  rfl

theorem weight_modEq {limb : Limb} (member : limb ∈ basis.limbs) (residue : UInt64) :
    limb.punctured * limb.weight residue ≡ residue.toNat [MOD limb.modulus.toNat] := by
  calc limb.punctured * limb.weight residue
      ≡ limb.punctured * (residue.toNat * limb.puncturedInverse.toNat)
        [MOD limb.modulus.toNat] := (Nat.mod_modEq _ _).mul_left _
    _ = residue.toNat * (limb.punctured * limb.puncturedInverse.toNat) := by ring
    _ ≡ residue.toNat * 1 [MOD limb.modulus.toNat] := (sound.inverse limb member).mul_left _
    _ = residue.toNat := mul_one _

/-- The weighted sum has every residue from which it is made: of the other terms, each has the
modulus in its punctured product. -/
theorem weightedSum_modEq {residues : List UInt64} {limb : Limb} {residue : UInt64}
    (member : (limb, residue) ∈ basis.limbs.zip residues) :
    basis.weightedSum residues ≡ residue.toNat [MOD limb.modulus.toNat] := by
  have distinct := List.pairwise_map.mp
    (sound.pairwise_dvd.sublist (sublist_map_fst_zip basis.limbs residues))
  obtain ⟨front, back, whole⟩ := List.append_of_mem member
  rw [whole, List.pairwise_append, List.pairwise_cons] at distinct
  obtain ⟨_, ⟨behind, _⟩, across⟩ := distinct
  have before : sumOfPairs front ≡ 0 [MOD limb.modulus.toNat] :=
    sumOfPairs_modEq_zero front fun pair inside =>
      (across pair inside _ (List.mem_cons_self ..)).2
  have after : sumOfPairs back ≡ 0 [MOD limb.modulus.toNat] :=
    sumOfPairs_modEq_zero back fun pair inside => (behind pair inside).1
  have here := sound.weight_modEq (List.of_mem_zip member).1 residue
  have parts : basis.weightedSum residues =
      sumOfPairs front + (limb.punctured * limb.weight residue + sumOfPairs back) := by
    rw [weightedSum, whole, sumOfPairs, List.map_append, List.map_cons, List.sum_append,
      List.sum_cons]
    rfl
  rw [parts]
  simpa using before.add (here.add after)

theorem compose_lt (residues : List UInt64) : basis.compose residues < basis.modulus := by
  rw [sound.compose_eq]
  exact Nat.mod_lt _ sound.modulus_pos

theorem weightedSum_modEq_compose (residues : List UInt64) :
    basis.weightedSum residues ≡ basis.compose residues [MOD basis.modulus] := by
  rw [sound.compose_eq]
  exact (Nat.mod_modEq _ _).symm

theorem compose_modEq {residues : List UInt64} {limb : Limb} {residue : UInt64}
    (member : (limb, residue) ∈ basis.limbs.zip residues) :
    basis.compose residues ≡ residue.toNat [MOD limb.modulus.toNat] := by
  have divides : limb.modulus.toNat ∣ basis.modulus :=
    Dvd.intro _ (sound.punctured limb (List.of_mem_zip member).1)
  exact ((sound.weightedSum_modEq_compose residues).symm.of_dvd divides).trans
    (sound.weightedSum_modEq member)

omit sound in
theorem exists_limb {index : Nat} {q : UInt64} (present : basis.moduli[index]? = some q) :
    ∃ limb, basis.limbs[index]? = some limb ∧ limb.modulus = q := by
  rw [moduli, List.getElem?_map] at present
  exact Option.map_eq_some_iff.mp present

/-- The composed number has the residue at every position. -/
theorem compose_modEq_getD {residues : List UInt64} (full : residues.length = basis.size)
    {index : Nat} {q : UInt64} (present : basis.moduli[index]? = some q) :
    basis.compose residues ≡ (residues.getD index 0).toNat [MOD q.toNat] := by
  obtain ⟨limb, found, rfl⟩ := exists_limb present
  obtain ⟨inside, _⟩ := List.getElem?_eq_some_iff.mp found
  have here : residues[index]? = some (residues.getD index 0) := by
    have enough : index < residues.length := full ▸ inside
    rw [List.getD_eq_getElem _ _ enough, List.getElem?_eq_getElem enough]
  exact sound.compose_modEq
    (List.mem_of_getElem? (List.getElem?_zip_eq_some.mpr ⟨found, here⟩))

/-- The composed number is congruent to every integer that has its residues. -/
theorem compose_modEq_of_classes {residues : List UInt64} (full : residues.length = basis.size)
    {number : Int} (same : ∀ index q, basis.moduli[index]? = some q →
      Residue.classOf q (residues.getD index 0) = (number : ZMod q.toNat)) :
    (basis.compose residues : Int) ≡ number [ZMOD basis.modulus] := by
  refine sound.intModEq_of_classes ?_
  intro index q present
  rw [← same index q present, Int.cast_natCast]
  exact (ZMod.natCast_eq_natCast_iff _ _ _).mpr (sound.compose_modEq_getD full present)

end Sound

end RingLwe.Basis
