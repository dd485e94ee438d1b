import Mathlib
import RingLwe.Modular.Residue

/-!
# Residue classes of words

The class of a word modulo `q` is its image in `ZMod q`.  The operations on
residues become the operations of that ring (`classOf_add`, `classOf_mul`,
`classOf_sub`, `classOf_neg`, `classOf_ofInt`), their answers are reduced, and
a reduced word is determined by its class (`eq_of_classOf_eq`).
-/

set_option autoImplicit false

namespace RingLwe.Residue

/-- The residue class of a word modulo `q`. -/
def classOf (q word : UInt64) : ZMod q.toNat :=
  (word.toNat : ZMod q.toNat)

variable {q : UInt64}

/-! ## Classes and words -/

@[simp]
theorem classOf_zero : classOf q 0 = 0 := by
  simp [classOf]

@[simp]
theorem classOf_one : classOf q 1 = 1 := by
  simp [classOf]

theorem classOf_eq_iff (left right : UInt64) :
    classOf q left = classOf q right ↔ left.toNat ≡ right.toNat [MOD q.toNat] :=
  ZMod.natCast_eq_natCast_iff _ _ _

theorem classOf_of_toNat_eq_mod {word : UInt64} {number : Nat}
    (reduced : word.toNat = number % q.toNat) : classOf q word = (number : ZMod q.toNat) := by
  rw [classOf, reduced, ZMod.natCast_mod]

theorem eq_of_classOf_eq {left right : UInt64} (leftReduced : left < q) (rightReduced : right < q)
    (same : classOf q left = classOf q right) : left = right := by
  have congruent := (classOf_eq_iff left right).mp same
  exact UInt64.toNat_inj.mp (Nat.ModEq.eq_of_lt_of_lt congruent
    (UInt64.lt_iff_toNat_lt.mp leftReduced) (UInt64.lt_iff_toNat_lt.mp rightReduced))

/-- Reduced words are determined by their classes. -/
theorem eq_of_map_classOf_eq {left right : List UInt64} (leftReduced : ∀ word ∈ left, word < q)
    (rightReduced : ∀ word ∈ right, word < q)
    (same : left.map (classOf q) = right.map (classOf q)) : left = right := by
  induction left generalizing right with
  | nil => exact (List.map_eq_nil_iff.mp same.symm).symm
  | cons first left ih =>
    cases right with
    | nil => cases same
    | cons second right =>
      obtain ⟨firstLt, leftRest⟩ := List.forall_mem_cons.mp leftReduced
      obtain ⟨secondLt, rightRest⟩ := List.forall_mem_cons.mp rightReduced
      obtain ⟨head, tail⟩ := List.cons.inj same
      rw [eq_of_classOf_eq firstLt secondLt head, ih leftRest rightRest tail]

theorem toNat_eq_mod_of_classOf_eq {word : UInt64} {number : Nat} (reduced : word < q)
    (same : classOf q word = (number : ZMod q.toNat)) : word.toNat = number % q.toNat := by
  have congruent := (ZMod.natCast_eq_natCast_iff' _ _ _).mp same
  rwa [Nat.mod_eq_of_lt (UInt64.lt_iff_toNat_lt.mp reduced)] at congruent

theorem pos_of_lt {word : UInt64} (reduced : word < q) : 0 < q.toNat :=
  Nat.zero_lt_of_lt (UInt64.lt_iff_toNat_lt.mp reduced)

theorem lt_of_toNat_eq_mod (positive : 0 < q.toNat) {word : UInt64} {number : Nat}
    (reduced : word.toNat = number % q.toNat) : word < q :=
  UInt64.lt_iff_toNat_lt.mpr (reduced ▸ Nat.mod_lt _ positive)

theorem one_le_of_pos {word : UInt64} (positive : 0 < word.toNat) : 1 ≤ word :=
  UInt64.le_iff_toNat_le.mpr positive

theorem toNat_sub_one {word : UInt64} (positive : 0 < word.toNat) :
    (word - 1).toNat = word.toNat - 1 :=
  UInt64.toNat_sub_of_le _ _ (one_le_of_pos positive)

/-! ## Operations -/

theorem classOf_mod (word : UInt64) : classOf q (word % q) = classOf q word :=
  (classOf_of_toNat_eq_mod (UInt64.toNat_mod word q)).trans rfl

theorem classOf_add (positive : 0 < q.toNat) (left right : UInt64) :
    classOf q (add left right q) = classOf q left + classOf q right := by
  rw [classOf_of_toNat_eq_mod (toNat_add positive left right), Nat.cast_add, classOf, classOf]

theorem add_lt (positive : 0 < q.toNat) (left right : UInt64) : add left right q < q :=
  lt_of_toNat_eq_mod positive (toNat_add positive left right)

theorem classOf_mul (positive : 0 < q.toNat) (left right : UInt64) :
    classOf q (mul left right q) = classOf q left * classOf q right := by
  rw [classOf_of_toNat_eq_mod (toNat_mul positive left right), Nat.cast_mul, classOf, classOf]

theorem mul_lt (positive : 0 < q.toNat) (left right : UInt64) : mul left right q < q :=
  lt_of_toNat_eq_mod positive (toNat_mul positive left right)

section Reduced

variable {left right : UInt64} (leftReduced : left < q) (rightReduced : right < q)
include leftReduced rightReduced

theorem classOf_addReduced (half : 2 * q.toNat < UInt64.size) :
    classOf q (addReduced left right q) = classOf q left + classOf q right := by
  rw [classOf_of_toNat_eq_mod (toNat_addReduced half leftReduced rightReduced), Nat.cast_add,
    classOf, classOf]

theorem addReduced_lt (half : 2 * q.toNat < UInt64.size) : addReduced left right q < q :=
  lt_of_toNat_eq_mod (pos_of_lt leftReduced) (toNat_addReduced half leftReduced rightReduced)

theorem classOf_sub : classOf q (sub left right q) = classOf q left - classOf q right := by
  have bound := Nat.le_of_lt (UInt64.lt_iff_toNat_lt.mp rightReduced)
  rw [classOf_of_toNat_eq_mod (toNat_sub leftReduced rightReduced), Nat.cast_add,
    Nat.cast_sub bound, ZMod.natCast_self, zero_sub, classOf, classOf, sub_eq_add_neg]

theorem sub_lt : sub left right q < q :=
  lt_of_toNat_eq_mod (pos_of_lt leftReduced) (toNat_sub leftReduced rightReduced)

end Reduced

section Negative

variable {word : UInt64} (reduced : word < q)
include reduced

theorem classOf_neg : classOf q (neg word q) = -classOf q word := by
  have bound := Nat.le_of_lt (UInt64.lt_iff_toNat_lt.mp reduced)
  rw [classOf_of_toNat_eq_mod (toNat_neg reduced), Nat.cast_sub bound, ZMod.natCast_self,
    zero_sub, classOf]

theorem neg_lt : neg word q < q :=
  lt_of_toNat_eq_mod (pos_of_lt reduced) (toNat_neg reduced)

theorem neg_neg_of_lt : neg (neg word q) q = word := by
  have once := neg_lt reduced
  apply eq_of_classOf_eq (neg_lt once) reduced
  rw [classOf_neg once, classOf_neg reduced, neg_neg]

end Negative

/-! ## Integers -/

theorem classOf_ofInt (positive : 0 < q.toNat) (number : Int) :
    classOf q (ofInt number q) = (number : ZMod q.toNat) := by
  have cast : ((ofInt number q).toNat : ZMod q.toNat) =
      (((ofInt number q).toNat : Int) : ZMod q.toNat) := by
    rw [Int.cast_natCast]
  rw [classOf, cast, toNat_ofInt positive, ZMod.intCast_mod]

theorem ofInt_lt (positive : 0 < q.toNat) (number : Int) : ofInt number q < q := by
  have upper := Int.emod_lt_of_pos number (b := (q.toNat : Int)) (by omega)
  rw [← toNat_ofInt positive number] at upper
  exact UInt64.lt_iff_toNat_lt.mpr (by omega)

theorem intCast_toInt (word : UInt64) : ((toInt word q : Int) : ZMod q.toNat) = classOf q word := by
  unfold toInt
  split
  · rw [Int.cast_natCast, classOf]
  · rw [Int.cast_sub, Int.cast_natCast, Int.cast_natCast, ZMod.natCast_self, sub_zero, classOf]

/-- An integer from minus half of the modulus to half of what is below it is the centred
representative of its residue. -/
theorem toInt_ofInt_of_centred (positive : 0 < q.toNat) {number : Int}
    (lower : -(q.toNat / 2 : Int) ≤ number) (upper : number ≤ (q.toNat - 1 : Int) / 2) :
    toInt (ofInt number q) q = number := by
  have residue := toNat_ofInt positive number
  unfold toInt
  rcases lt_or_ge number 0 with negative | natural
  · have shifted : number % (q.toNat : Int) = number + q.toNat := by
      rw [← Int.add_emod_right]
      exact Int.emod_eq_of_lt (by omega) (by omega)
    rw [shifted] at residue
    rw [if_neg (by omega)]
    omega
  · rw [Int.emod_eq_of_lt natural (by omega)] at residue
    rw [if_pos (by omega), residue]

theorem toInt_ofInt {number : Int} (small : 2 * number.natAbs < q.toNat) :
    toInt (ofInt number q) q = number :=
  toInt_ofInt_of_centred (by omega) (by omega) (by omega)

theorem ofInt_toInt {word : UInt64} (reduced : word < q) : ofInt (toInt word q) q = word := by
  have positive := pos_of_lt reduced
  refine eq_of_classOf_eq (ofInt_lt positive _) reduced ?_
  rw [classOf_ofInt positive, intCast_toInt]

end RingLwe.Residue
