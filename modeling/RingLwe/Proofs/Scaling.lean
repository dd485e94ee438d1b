import RingLwe.Proofs.Context

/-!
# Scaling and descaling

The two parts from which a plaintext value is scaled add up to the rounded
quotient of `q · m` by `p` (`scaled`, `classOf_scaleResidue`), which is within
half a unit of the exact one (`scaled_near`).

Rounding back recovers a message from a number that is near its multiple of
the modulus (`round_of_near`).  So descaling recovers a value from the residues
of its scaled value with noise, as long as `p · (2 · |e| + 1)` is below `q`
(`descale_of_noise`).
-/

set_option autoImplicit false

namespace RingLwe

/-- Rounding the quotient of a multiple of the modulus, up to less than half of it. -/
theorem round_of_near {modulus p number message : Nat} (below : message < p) (shift error : Int)
    (exact : (number : Int) * p = modulus * (message + p * shift) + error)
    (small : |2 * error| < modulus) : (number * p + modulus / 2) / modulus % p = message := by
  obtain ⟨lower, upper⟩ := abs_lt.mp small
  have positive : (0 : Int) < modulus := lt_of_le_of_lt (abs_nonneg _) small
  have rounded : (((number * p + modulus / 2) / modulus : Nat) : Int) = message + p * shift := by
    push_cast
    rw [exact, Int.add_assoc, Int.mul_add_ediv_left _ _ (Int.ne_of_gt positive),
      Int.ediv_eq_zero_of_lt (by omega) (by omega), add_zero]
  have residue : (((number * p + modulus / 2) / modulus % p : Nat) : Int) = message := by
    rw [Int.natCast_emod, rounded, Int.add_mul_emod_self_left]
    exact Int.emod_eq_of_lt (Int.natCast_nonneg _) (Int.ofNat_lt.mpr below)
  exact Int.ofNat_inj.mp residue

/-- A quotient that is rounded to the nearest integer is within half a unit of the exact one. -/
theorem quotient_near {p : Nat} (positive : 0 < p) (product : Nat) :
    |2 * ((p : Int) * ((product + p / 2) / p : Nat) - product)| ≤ p := by
  have divided := Nat.div_add_mod (product + p / 2) p
  have rest := Nat.mod_lt (product + p / 2) positive
  generalize (product + p / 2) % p = excess at divided rest
  generalize (product + p / 2) / p = quotient at divided ⊢
  zify at divided
  rw [abs_le]
  constructor
  · omega
  · omega

namespace Context

/-- The scaled value of a plaintext value: its product with the modulus, divided by the plaintext
modulus and rounded. -/
def scaled (context : Context) (m : Nat) : Nat :=
  (context.basis.modulus * m + context.plaintextModulus.toNat / 2) / context.plaintextModulus.toNat

theorem SameRing.scaled {left right : Context} (same : SameRing left right)
    (leftLawful : left.Lawful) (rightLawful : right.Lawful) (m : Nat) :
    left.scaled m = right.scaled m := by
  rw [Context.scaled, same.basis leftLawful rightLawful, same.plaintextModulus, Context.scaled]

namespace Lawful

variable {context : Context} (lawful : context.Lawful)
include lawful

theorem scaled_near (m : Nat) :
    |2 * ((context.plaintextModulus.toNat : Int) * context.scaled m - context.basis.modulus * m)| ≤
      context.plaintextModulus.toNat := by
  have near := quotient_near lawful.plaintext_pos (context.basis.modulus * m)
  rw [Nat.cast_mul] at near
  exact near

/-- The scaled value is the multiple of the rounded down quotient and the carry. -/
theorem scaled_eq (m : Nat) : context.scaled m =
    context.basis.modulus / context.plaintextModulus.toNat * m +
      (context.remainder * m + context.plaintextModulus.toNat / 2) /
        context.plaintextModulus.toNat := by
  have divided := Nat.div_add_mod context.basis.modulus context.plaintextModulus.toNat
  have whole : context.basis.modulus * m + context.plaintextModulus.toNat / 2 =
      context.plaintextModulus.toNat *
          (context.basis.modulus / context.plaintextModulus.toNat * m) +
        (context.remainder * m + context.plaintextModulus.toNat / 2) := by
    rw [lawful.remainder]
    conv_lhs => rw [← divided]
    ring
  rw [scaled, whole, Nat.mul_add_div lawful.plaintext_pos]

theorem plaintext_lt_two_pow : context.plaintextModulus.toNat < 2 ^ 33 := by
  obtain ⟨q, member⟩ := List.exists_mem_of_ne_nil _ lawful.moduli_ne_nil
  exact Nat.lt_trans (lawful.plaintext_lt member) (lawful.bounds member).2

theorem remainder_lt : context.remainder < context.plaintextModulus.toNat := by
  rw [lawful.remainder]
  exact Nat.mod_lt _ lawful.plaintext_pos

/-- The carry of every word fits a word: the remainder is below `p`, and so are its halves. -/
theorem carry_lt_size (m : UInt64) :
    (context.remainder * m.toNat + context.plaintextModulus.toNat / 2) /
      context.plaintextModulus.toNat < UInt64.size := by
  have small := lawful.plaintext_lt_two_pow
  have product : context.remainder * m.toNat ≤ context.remainder * UInt64.size :=
    Nat.mul_le_mul_left _ (Nat.le_of_lt m.toNat_lt)
  have room : (context.remainder + 1) * UInt64.size ≤
      context.plaintextModulus.toNat * UInt64.size :=
    Nat.mul_le_mul_right _ lawful.remainder_lt
  refine Nat.div_lt_of_lt_mul ?_
  simp only [UInt64.size] at product room ⊢
  omega

theorem toNat_scaleCarry (m : UInt64) :
    (context.scaleCarry m).toNat =
      (context.remainder * m.toNat + context.plaintextModulus.toNat / 2) /
        context.plaintextModulus.toNat := by
  rw [scaleCarry]
  exact UInt64.toNat_ofNat_of_lt' (lawful.carry_lt_size m)

/-- The residues of `⌊q / p⌋` stand beside their moduli. -/
theorem delta_present {index : Nat} {q : UInt64} (present : context.moduli[index]? = some q) :
    ∃ delta, context.delta[index]? = some delta ∧ Residue.classOf q delta =
      ((context.basis.modulus / context.plaintextModulus.toNat : Nat) : ZMod q.toNat) := by
  have positive : 0 < q.toNat := by
    have := (lawful.bounds (List.mem_of_getElem? present)).1
    omega
  refine ⟨_, ?_, Residue.classOf_of_toNat_eq_mod
    (Residue.toNat_toUInt64_of_lt (Nat.mod_lt _ positive))⟩
  have moduli : context.basis.moduli[index]? = some q := present
  rw [lawful.delta, Basis.decompose, List.getElem?_map, moduli, Option.map_some]

/-- The residue of a scaled value has its class. -/
theorem classOf_scaleResidue {q delta : UInt64} (positive : 0 < q.toNat)
    (residue : Residue.classOf q delta =
      ((context.basis.modulus / context.plaintextModulus.toNat : Nat) : ZMod q.toNat))
    (m : UInt64) :
    Residue.classOf q (context.scaleResidue q delta m) =
      (context.scaled m.toNat : ZMod q.toNat) := by
  rw [scaleResidue, Residue.classOf_add positive, Residue.classOf_mul positive, residue,
    Residue.classOf_mod, Residue.classOf_mod, Residue.classOf, Residue.classOf,
    lawful.toNat_scaleCarry, lawful.scaled_eq, Nat.cast_add, Nat.cast_mul]

/-- A descaled value is the product of the composed number with `p`, divided by `q` and rounded,
modulo `p`. -/
theorem toNat_descale (residues : List UInt64) :
    (context.descale residues).toNat =
      (context.basis.compose residues * context.plaintextModulus.toNat +
        context.basis.modulus / 2) / context.basis.modulus % context.plaintextModulus.toNat :=
  Residue.toNat_toUInt64_of_lt (Nat.mod_lt _ lawful.plaintext_pos)

/-- Descaling recovers a value from the residues of its scaled value with noise. -/
theorem descale_of_noise {residues : List UInt64} {noise : Int} {m : Nat}
    (below : m < context.plaintextModulus.toNat)
    (congruent : (context.basis.compose residues : Int) ≡ noise + context.scaled m
      [ZMOD context.basis.modulus])
    (small : (context.plaintextModulus.toNat : Int) * (2 * |noise| + 1) < context.basis.modulus) :
    (context.descale residues).toNat = m := by
  obtain ⟨shift, shifted⟩ := Int.modEq_iff_dvd.mp congruent.symm
  have near := lawful.scaled_near m
  have word : (context.basis.compose residues * context.plaintextModulus.toNat +
      context.basis.modulus / 2) / context.basis.modulus % context.plaintextModulus.toNat = m := by
    refine round_of_near below shift
      (context.plaintextModulus.toNat * noise +
        (context.plaintextModulus.toNat * context.scaled m - context.basis.modulus * m)) ?_ ?_
    · linear_combination (context.plaintextModulus.toNat : Int) * shifted
    · have scaledNoise : |2 * ((context.plaintextModulus.toNat : Int) * noise)| =
          context.plaintextModulus.toNat * (2 * |noise|) := by
        rw [abs_mul, abs_mul, Nat.abs_cast, abs_two]
        ring
      calc _ = |2 * ((context.plaintextModulus.toNat : Int) * noise) +
              2 * (context.plaintextModulus.toNat * context.scaled m -
                context.basis.modulus * m)| := by
            congr 1
            ring
        _ ≤ _ := abs_add_le _ _
        _ ≤ (context.plaintextModulus.toNat : Int) * (2 * |noise|) +
            context.plaintextModulus.toNat := by rw [scaledNoise]; exact add_le_add_right near _
        _ < context.basis.modulus := by linarith
  rw [lawful.toNat_descale, word]

end Lawful

end Context

end RingLwe
