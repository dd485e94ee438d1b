import RingLwe.Proofs.Decoding.Budget
import RingLwe.Proofs.Switching

/-!
# Rounding combinations of lifted values

A lifted value is within half a unit of its exact multiple of `Q / p`
(`lifted_near`).  An integer combination of lifted values with noise is then
off by half a unit for each unit of its coefficients, and by the noise.  As
long as `p · (Σ |c| + 2 · |e|)` is below `Q` this is less than half of a
plaintext step, so the combination rounds to the combination of the values
(`round_of_lifted`, `round_combination_of_lifted`).

In a context with switching tables the plaintext modulus is at most `Q / 2`,
which leaves room for a single value: rounding undoes lifting for every word.
-/

set_option autoImplicit false

namespace RingLwe.Switching

/-! ## Combinations of numbers -/

/-- The number to which a value is lifted, before it is taken modulo the hybrid modulus. -/
def liftedNumber (hybrid p value : Nat) : Nat :=
  (value * hybrid + p / 2) / p

theorem lifted_near {p : Nat} (positive : 0 < p) (hybrid value : Nat) :
    |2 * ((p : Int) * liftedNumber hybrid p value - hybrid * value)| ≤ p := by
  have near := quotient_near positive (value * hybrid)
  rw [mul_comm (hybrid : Int), ← Nat.cast_mul]
  exact near

section Combination

variable {hybrid p count : Nat} {value exact : Nat → Nat}
  (near : ∀ position < count,
    |2 * ((p : Int) * exact position - hybrid * value position)| ≤ p)
  (coefficient : Nat → Int) (noise : Int)
include near

/-- A combination is off by half a unit for each unit of its coefficients, and by the noise. -/
theorem combination_off :
    |2 * (∑ position ∈ Finset.range count, coefficient position *
          ((p : Int) * exact position - hybrid * value position) + p * noise)| ≤
      p * (∑ position ∈ Finset.range count, |coefficient position| + 2 * |noise|) := by
  have doubled : 2 * ∑ position ∈ Finset.range count, coefficient position *
        ((p : Int) * exact position - hybrid * value position) =
      ∑ position ∈ Finset.range count, coefficient position *
        (2 * ((p : Int) * exact position - hybrid * value position)) := by
    rw [Finset.mul_sum]
    exact Finset.sum_congr rfl fun position _ => mul_left_comm _ _ _
  have noisy : |2 * ((p : Int) * noise)| = p * (2 * |noise|) := by
    rw [abs_mul, abs_mul, Nat.abs_cast, abs_two]
    ring
  rw [mul_add, doubled, mul_add, ← noisy]
  exact (abs_add_le _ _).trans (add_le_add_left (abs_sum_mul_le count coefficient _ near) _)

/-- A word that is congruent to a combination within the budget rounds to the combination of the
values modulo the plaintext modulus. -/
theorem round_of_lifted (positive : 0 < p) {word : Nat}
    (congruent : (word : Int) ≡
      ∑ position ∈ Finset.range count, coefficient position * exact position + noise
      [ZMOD hybrid])
    (budget : (p : Int) * (∑ position ∈ Finset.range count, |coefficient position| + 2 * |noise|) <
      hybrid) :
    (((word * p + hybrid / 2) / hybrid % p : Nat) : Int) =
      (∑ position ∈ Finset.range count, coefficient position * value position) % p := by
  obtain ⟨wraps, wrapped⟩ := Int.modEq_iff_dvd.mp congruent
  have off := combination_off near coefficient noise
  have split : ∑ position ∈ Finset.range count, coefficient position *
        ((p : Int) * exact position - hybrid * value position) =
      p * ∑ position ∈ Finset.range count, coefficient position * exact position -
        hybrid * ∑ position ∈ Finset.range count, coefficient position * value position := by
    rw [Finset.mul_sum, Finset.mul_sum, ← Finset.sum_sub_distrib]
    refine Finset.sum_congr rfl ?_
    intro position _
    ring
  generalize ∑ position ∈ Finset.range count, coefficient position * value position = total at split ⊢
  generalize ∑ position ∈ Finset.range count, coefficient position * exact position = sum
    at split wrapped
  have residue : 0 ≤ total % p := Int.emod_nonneg _ (by omega)
  have below : total % p < p := Int.emod_lt_of_pos _ (by omega)
  have divided := Int.emod_add_mul_ediv total p
  have exactly : (word : Int) * p =
      hybrid * ((total % p).toNat + p * (total / p - wraps)) +
        (∑ position ∈ Finset.range count, coefficient position *
          ((p : Int) * exact position - hybrid * value position) + p * noise) := by
    rw [Int.toNat_of_nonneg residue]
    linear_combination -(p : Int) * wrapped - hybrid * divided - split
  have rounded := round_of_near (by omega : (total % p).toNat < p) _ _ exactly
    (lt_of_le_of_lt off budget)
  rw [rounded, Int.toNat_of_nonneg residue]

end Combination

/-! ## Words -/

/-- Whether no value on the way from a word to its rounded or lifted word leaves 128 bits. -/
structure Fits {width : Width} (p : Nat) (word : LweWord width) : Prop where
  product : word.toNat * p < 2 ^ 128
  rounded : word.toNat * p + width.modulus / 2 < 2 ^ 128
  shifted : word.toNat * width.modulus < 2 ^ 128
  lifted : word.toNat * width.modulus + p / 2 < 2 ^ 128

/-- The word of an integer combination of words with noise. -/
def combinationWord {width : Width} (coefficient : Nat → Int) (words : List (LweWord width))
    (noise : Int) : LweWord width :=
  BitVec.ofInt width.bits
    (∑ position ∈ Finset.range words.length,
      coefficient position * (words.getD position 0).toNat + noise)

theorem fits_of_lt {width : Width} {p : Nat} (small : p < 2 ^ 33) (word : LweWord width) :
    Fits p word := by
  have bound : word.toNat < width.modulus := by
    rw [← width.two_pow_bits]
    exact word.isLt
  have words : width.modulus ≤ 2 ^ 64 := width.modulus_le
  have scaled : word.toNat * p ≤ 2 ^ 64 * 2 ^ 33 := Nat.mul_le_mul (by omega) (by omega)
  have shifted : word.toNat * width.modulus ≤ (2 ^ 64 - 1) * 2 ^ 64 :=
    Nat.mul_le_mul (by omega) words
  constructor
  · omega
  · omega
  · omega
  · omega

theorem lift_eq_ok {context : Context} {width : Width} {tables : SwitchTables}
    (prepared : context.switchTables width = .ok tables) (words : List (LweWord width)) :
    lift context words = .ok (words.map (liftWord context.plaintextModulus.toNat)) := by
  rw [lift, prepared, ok_bind]
  rfl

section Rounding

variable {width : Width} {p : Nat} (positive : 0 < p)
include positive

/-- The word of a combination of lifted words within the budget rounds to the combination of the
values. -/
theorem toNat_roundWord_combination (room : p ≤ width.modulus) (words : List (LweWord width))
    {coefficient : Nat → Int} {noise : Int}
    (budget : (p : Int) * (∑ position ∈ Finset.range words.length, |coefficient position| +
      2 * |noise|) < width.modulus) :
    ((roundWord p (combinationWord coefficient (words.map (liftWord p)) noise)).toNat : Int) =
      (∑ position ∈ Finset.range words.length,
        coefficient position * (words.getD position 0).toNat) % p := by
  have congruent : ((combinationWord coefficient (words.map (liftWord p)) noise).toNat : Int) ≡
      ∑ position ∈ Finset.range words.length, coefficient position *
        (liftedNumber width.modulus p (words.getD position 0).toNat : Nat) + noise
      [ZMOD width.modulus] := by
    refine (LweWord.ofInt_modEq _ _).trans (Int.ModEq.add_right _ ?_)
    rw [List.length_map]
    refine Int.ModEq.sum ?_
    intro position member
    rw [getD_map (liftWord p) words (Finset.mem_range.mp member) 0]
    exact (LweWord.ofNat_modEq width _).mul_left _
  have rounded := round_of_lifted (fun position _ => lifted_near positive width.modulus _)
    coefficient noise positive congruent budget
  rw [roundWord, LweWord.toNat_ofNat, Nat.mod_eq_of_lt, rounded]
  exact (Nat.mod_lt _ positive).trans_le room

/-- A lifted word rounds to the residue of the word. -/
theorem toNat_roundWord_liftWord (room : 2 * p ≤ width.modulus) (word : LweWord width) :
    (roundWord p (liftWord p word)).toNat = word.toNat % p := by
  have budget : (p : Int) * (∑ _position ∈ Finset.range [word].length, |(1 : Int)| + 2 * |(0 : Int)|) <
      width.modulus := by
    simp
    omega
  have single : combinationWord (fun _ => 1) ([word].map (liftWord p)) 0 = liftWord p word := by
    simp [combinationWord]
  have rounded := toNat_roundWord_combination positive (by omega) [word] budget
  rw [single] at rounded
  have residue : ((roundWord p (liftWord p word)).toNat : Int) = (word.toNat : Int) % p := by
    simpa using rounded
  exact_mod_cast residue

end Rounding

/-- In a context with switching tables, an integer combination of lifted words with noise rounds to
the combination of the words modulo `p`, as long as `p · (Σ |c| + 2 · |e|)` is below the hybrid
modulus.  Rounding undoes lifting for every word, and no value on the way leaves 128 bits. -/
theorem round_combination_of_lifted {parameters : Parameters} {context : Context} {width : Width}
    {tables : SwitchTables} (built : Context.ofParameters parameters = .ok context)
    (prepared : context.switchTables width = .ok tables) :
    (2 ≤ context.plaintextModulus.toNat ∧ 2 * context.plaintextModulus.toNat ≤ width.modulus) ∧
    (∀ (words : List (LweWord width)) (coefficient : Nat → Int) (noise : Int),
      (context.plaintextModulus.toNat : Int) *
          (∑ position ∈ Finset.range words.length, |coefficient position| + 2 * |noise|) <
        width.modulus →
      ∃ images rounded, lift context words = .ok images ∧ images.length = words.length ∧
        round context [combinationWord coefficient images noise] = .ok [rounded] ∧
        (rounded.toNat : Int) =
          (∑ position ∈ Finset.range words.length,
            coefficient position * (words.getD position 0).toNat) %
              context.plaintextModulus.toNat) ∧
    (∀ words : List (LweWord width), ∃ images rounded, lift context words = .ok images ∧
      round context images = .ok rounded ∧
      rounded.map BitVec.toNat = words.map (·.toNat % context.plaintextModulus.toNat)) ∧
    ∀ word : LweWord width, Fits context.plaintextModulus.toNat word := by
  have lawful := Context.lawful_of_ofParameters built
  have above := lawful.two_le
  obtain ⟨_, _, room⟩ := lawful.switchTables_spec prepared
  have positive : 0 < context.plaintextModulus.toNat := by omega
  refine ⟨⟨above, room⟩, ?_, ?_, fits_of_lt lawful.plaintext_lt_two_pow⟩
  · intro words coefficient noise budget
    exact ⟨_, _, lift_eq_ok prepared words, List.length_map _, round_eq_ok prepared _,
      toNat_roundWord_combination positive (by omega) words budget⟩
  · intro words
    refine ⟨_, _, lift_eq_ok prepared words, round_eq_ok prepared _, ?_⟩
    rw [List.map_map, List.map_map]
    exact List.map_congr_left fun word _ => toNat_roundWord_liftWord positive room word

/-- In the preset of 32 bits `2 · 3 - 3 · 200` is 46 modulo 128, also with the largest noise that the
budget leaves. -/
theorem round_combination_preset : ∃ context tables,
    Context.ofParameters (Parameters.preset .bits32) = .ok context ∧
    context.switchTables .bits32 = .ok tables ∧
    (128 : Int) * ((|2| + |-3|) + 2 * |-16777213|) < Width.bits32.modulus ∧
    ∃ images rounded, lift context [(3 : LweWord .bits32), 200] = .ok images ∧
      round context [combinationWord (fun position => if position = 0 then 2 else -3) images
        (-16777213)] = .ok [rounded] ∧ rounded.toNat = 46 := by
  obtain ⟨context, built⟩ := Context.exists_preset .bits32
  have prepared := Context.switchTables_preset built
  have modulus : context.plaintextModulus.toNat = 128 := by
    rw [(Context.preset_spec built).2.1]
    rfl
  have budget : (128 : Int) * ((|2| + |-3|) + 2 * |-16777213|) < Width.bits32.modulus := by
    norm_num [Width.modulus, UInt32.size]
  obtain ⟨_, combinations, _⟩ := round_combination_of_lifted built prepared
  rw [modulus] at combinations
  obtain ⟨images, rounded, made, _, back, value⟩ := combinations [3, 200]
    (fun position => if position = 0 then 2 else -3) (-16777213)
    (by simpa [Finset.sum_range_succ] using budget)
  refine ⟨context, _, built, prepared, budget, images, rounded, made, back, ?_⟩
  have residue : (rounded.toNat : Int) = 46 := by
    rw [value]
    decide
  exact_mod_cast residue

end RingLwe.Switching
