import RingLwe.Proofs.Context.Presets
import RingLwe.Proofs.Modular.Ranges
import RingLwe.Proofs.Scaling

/-!
# Scaling in two words

The residues of a scaled value are computed prime by prime, from the residue of
`⌊q / p⌋` and from the remainder of `q` by `p`, in numbers of two words at most
(`scale?`).  For every word, below the plaintext modulus or not, no number
leaves its range, and the residues are those of the rounded quotient of `q · m`
by `p`, which no step computes as a whole (`scale_rounds`).
-/

set_option autoImplicit false

namespace RingLwe.Context

/-! ## Scaling with its ranges -/

/-- What the remainder of `q` by `p` adds to the scaled value of `m`, with its ranges. -/
def scaleCarry? (context : Context) (m : UInt64) : Option UInt64 := do
  let p := context.plaintextModulus.toNat
  let remainder ← Exact.narrow context.remainder
  let product ← Exact.double (remainder.toNat * m.toNat)
  let sum ← Exact.double (product + p / 2)
  Exact.narrow (sum / p)

/-- The residues of the scaled value of `m`, with their ranges. -/
def scale? (context : Context) (m : UInt64) : Option (List UInt64) := do
  let carry ← context.scaleCarry? m
  (context.moduli.zip context.delta).mapM fun (q, delta) => do
    let multiple ← Residue.mul? delta (m % q) q
    Residue.add? multiple (carry % q) q

namespace Lawful

variable {context : Context} (lawful : context.Lawful)
include lawful

/-- Two words hold the product of the remainder with any word, and the half of `p` above it. -/
theorem product_lt_double (m : UInt64) :
    context.remainder * m.toNat + context.plaintextModulus.toNat / 2 <
      UInt64.size * UInt64.size := by
  have small := lawful.plaintext_lt_two_pow
  have product : context.remainder * m.toNat ≤ 2 ^ 33 * UInt64.size :=
    Nat.mul_le_mul (Nat.le_of_lt (Nat.lt_trans lawful.remainder_lt small))
      (Nat.le_of_lt m.toNat_lt)
  simp only [UInt64.size] at product ⊢
  omega

theorem scaleCarry?_eq (m : UInt64) : context.scaleCarry? m = some (context.scaleCarry m) := by
  have below : context.remainder < UInt64.size :=
    Nat.lt_trans lawful.remainder_lt context.plaintextModulus.toNat_lt
  have remainder : context.remainder.toUInt64.toNat = context.remainder :=
    UInt64.toNat_ofNat_of_lt' below
  have sum := lawful.product_lt_double m
  have product : context.remainder * m.toNat < UInt64.size * UInt64.size :=
    Nat.lt_of_le_of_lt (Nat.le_add_right _ _) sum
  simp only [scaleCarry?, Exact.narrow, Exact.double, if_pos below, Option.bind_eq_bind,
    Option.bind_some, remainder, if_pos product, if_pos sum, if_pos (lawful.carry_lt_size m)]
  rfl

/-- No number leaves its range, whatever the word. -/
theorem scale?_eq (m : UInt64) : context.scale? m = some (context.scale m) := by
  have residues : (context.moduli.zip context.delta).mapM (fun (q, delta) => do
        let multiple ← Residue.mul? delta (m % q) q
        Residue.add? multiple (context.scaleCarry m % q) q) =
      some ((context.moduli.zip context.delta).map fun pair =>
        context.scaleResidue pair.1 pair.2 m) := by
    refine mapM_eq_some_map ?_
    rintro ⟨q, delta⟩ member
    have positive := (lawful.prime (List.of_mem_zip member).1).pos
    dsimp only
    rw [Residue.mul?_eq positive, Option.bind_eq_bind, Option.bind_some, Residue.add?_eq positive,
      scaleResidue]
  rw [scale?, lawful.scaleCarry?_eq, Option.bind_eq_bind, Option.bind_some, residues, scale,
    ← List.map_uncurry_zip_eq_zipWith]
  rfl

/-! ## The residues of the rounded quotient -/

theorem toNat_scaleResidue {q delta : UInt64} (member : q ∈ context.moduli)
    (residue : Residue.classOf q delta =
      ((context.basis.modulus / context.plaintextModulus.toNat : Nat) : ZMod q.toNat))
    (m : UInt64) :
    (context.scaleResidue q delta m).toNat = context.scaled m.toNat % q.toNat := by
  have positive := (lawful.prime member).pos
  exact Residue.toNat_eq_mod_of_classOf_eq (Residue.add_lt positive _ _)
    (lawful.classOf_scaleResidue positive residue m)

theorem map_toNat_scale (m : UInt64) : (context.scale m).map UInt64.toNat =
    context.moduli.map (context.scaled m.toNat % ·.toNat) := by
  rw [scale, lawful.delta, Basis.decompose, List.zipWith_map_right, ← Context.moduli,
    List.zipWith_self, List.map_map]
  refine List.map_congr_left fun q member => lawful.toNat_scaleResidue member ?_ m
  exact Residue.classOf_of_toNat_eq_mod
    (Residue.toNat_toUInt64_of_lt (Nat.mod_lt _ (lawful.prime member).pos))

theorem map_toNat_delta : context.delta.map UInt64.toNat =
    context.moduli.map (context.basis.modulus / context.plaintextModulus.toNat % ·.toNat) := by
  rw [lawful.delta]
  exact lawful.basis_sound.map_toNat_decompose _

end Lawful

/-- Scaling rounds exactly.  The constants of every context are the residues of `⌊q / p⌋` and the
remainder of `q` by `p`, for `q` the product of its moduli.  For every word `m`, scaling computes
from them without leaving two words on the way or one word at the end of a step, and its residues
are those of the quotient of `q · m` by `p`, rounded to the nearest integer. -/
theorem scale_rounds {parameters : Parameters} {context : Context}
    (built : ofParameters parameters = .ok context) :
    context.basis.modulus = (context.moduli.map UInt64.toNat).prod ∧
    context.delta.map UInt64.toNat =
      context.moduli.map (context.basis.modulus / context.plaintextModulus.toNat % ·.toNat) ∧
    context.remainder = context.basis.modulus % context.plaintextModulus.toNat ∧
    ∀ m : UInt64,
      context.scale? m = some (context.scale m) ∧
      (context.scaleCarry m).toNat =
        (context.remainder * m.toNat + context.plaintextModulus.toNat / 2) /
          context.plaintextModulus.toNat ∧
      (context.scale m).map UInt64.toNat = context.moduli.map
        ((context.basis.modulus * m.toNat + context.plaintextModulus.toNat / 2) /
          context.plaintextModulus.toNat % ·.toNat) := by
  have lawful := lawful_of_ofParameters built
  refine ⟨?_, lawful.map_toNat_delta, lawful.remainder, fun m => ?_⟩
  · rw [lawful.basis_sound.product, Basis.product_eq_prod]
    rfl
  · exact ⟨lawful.scale?_eq m, lawful.toNat_scaleCarry m, lawful.map_toNat_scale m⟩

/-- The largest word is scaled in the preset of 32 bits, whose plaintext modulus is 128. -/
theorem scale_preset : ∃ context, ofParameters (Parameters.preset .bits32) = .ok context ∧
    context.scale? 18446744073709551615 = some (context.scale 18446744073709551615) ∧
    (context.scale 18446744073709551615).map UInt64.toNat = [8522797281] := by
  obtain ⟨context, built⟩ := exists_preset .bits32
  obtain ⟨_, modulus, _, product⟩ := preset_spec built
  obtain ⟨_, _, _, each⟩ := scale_rounds built
  obtain ⟨exact, _, residues⟩ := each 18446744073709551615
  rw [moduli_preset built, modulus, product] at residues
  exact ⟨context, built, exact, residues⟩

end RingLwe.Context
