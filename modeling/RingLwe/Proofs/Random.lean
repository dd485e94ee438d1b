import Mathlib
import RingLwe.Random.Gaussian

/-!
# What draws give

Whatever a stream holds, a list that is drawn has the wanted length and every
value in it is one that its draw can give (`times_spec`), a number drawn below
a range is below it (`below_lt`), and a sample of a Gaussian is at most its
tail cut in absolute value (`sample_le`).  A float is usable as a deviation
when it is finite and positive (`usable_iff`).
-/

set_option autoImplicit false

namespace RingLwe

namespace Stream

/-! ## Draws -/

variable {α β : Type}

/-- A property of every value that a draw can give. -/
def Gives (draw : Draw α) (holds : α → Prop) : Prop :=
  ∀ stream, holds (draw.run stream).1

theorem Gives.pure {holds : α → Prop} {value : α} (valid : holds value) :
    Gives (Pure.pure value : Draw α) holds :=
  fun _ => valid

theorem Gives.bind {draw : Draw α} {next : α → Draw β} {holds : α → Prop} {after : β → Prop}
    (first : Gives draw holds) (rest : ∀ value, holds value → Gives (next value) after) :
    Gives (draw >>= next) after :=
  fun stream => rest _ (first stream) _

theorem Gives.any (draw : Draw α) : Gives draw fun _ => True :=
  fun _ => trivial

theorem Gives.mono {draw : Draw α} {holds after : α → Prop} (gives : Gives draw holds)
    (weaker : ∀ value, holds value → after value) : Gives draw after :=
  fun stream => weaker _ (gives stream)

/-- A list of draws gives a value for each of them. -/
theorem Gives.repeatOnto {draw : Draw α} {holds : α → Prop} (gives : Gives draw holds) (count : Nat)
    {found : List α} (valid : ∀ value ∈ found, holds value) :
    Gives (repeatOnto draw count found) fun values =>
      values.length = found.length + count ∧ ∀ value ∈ values, holds value := by
  induction count generalizing found with
  | zero =>
    refine Gives.pure ⟨List.length_reverse, fun value member => valid value ?_⟩
    exact List.mem_reverse.mp member
  | succ count ih =>
    refine Gives.bind gives ?_
    intro value here
    refine (ih (List.forall_mem_cons.mpr ⟨here, valid⟩)).mono ?_
    intro values
    rw [List.length_cons]
    rintro ⟨length, all⟩
    exact ⟨by omega, all⟩

theorem times_spec {draw : Draw α} {holds : α → Prop} (gives : Gives draw holds) (count : Nat) :
    Gives (times count draw) fun values =>
      values.length = count ∧ ∀ value ∈ values, holds value := by
  refine (gives.repeatOnto count (List.forall_mem_nil _)).mono ?_
  intro values
  rintro ⟨length, all⟩
  exact ⟨by simpa using length, all⟩

/-- A draw for each item of a list gives a value beside each of them. -/
theorem Gives.mapM {items : List α} {draw : α → Draw β} {related : α → β → Prop}
    (gives : ∀ item ∈ items, Gives (draw item) (related item)) :
    Gives (items.mapM draw) (List.Forall₂ related items) := by
  induction items with
  | nil => exact Gives.pure .nil
  | cons item items ih =>
    obtain ⟨first, others⟩ := List.forall_mem_cons.mp gives
    rw [List.mapM_cons]
    refine Gives.bind first ?_
    intro value here
    refine Gives.bind (ih others) ?_
    intro values rest
    exact Gives.pure (.cons here rest)

/-! ## Ranges -/

/-- The high word of a product is below either factor. -/
theorem high_mul_lt (word range : UInt64) (positive : 0 < range.toNat) :
    (Wide.mul word range).high < range := by
  have product := Wide.toNat_mul word range
  have small : word.toNat < UInt64.size := word.toNat_lt
  have bound : word.toNat * range.toNat < UInt64.size * range.toNat :=
    Nat.mul_lt_mul_of_pos_right small positive
  refine UInt64.lt_iff_toNat_lt.mpr (Nat.lt_of_mul_lt_mul_right (a := UInt64.size) ?_)
  rw [← product, Wide.toNat, Nat.mul_comm UInt64.size] at bound
  exact Nat.lt_of_le_of_lt (Nat.le_add_right _ _) bound

theorem below64_lt {range : UInt64} (positive : 0 < range.toNat) (trials : Nat) :
    Gives (below64 range trials) (· < range) := by
  induction trials with
  | zero => exact Gives.pure (UInt64.lt_iff_toNat_lt.mpr positive)
  | succ trials ih =>
    refine Gives.bind (Gives.any word64) ?_
    intro word _
    dsimp only
    split
    · exact Gives.pure (high_mul_lt word range positive)
    · exact ih

theorem below_lt {range : UInt64} (positive : 0 < range.toNat) :
    Gives (below range) (· < range) := by
  unfold below
  exact below64_lt positive trials

theorem within_le {bound : Nat} (fits : 2 * bound + 1 < UInt64.size) :
    Gives (within bound) fun value => value.natAbs ≤ bound := by
  have range : (2 * bound + 1 : Nat).toUInt64.toNat = 2 * bound + 1 :=
    UInt64.toNat_ofNat_of_lt' fits
  refine Gives.bind (below_lt (by omega)) ?_
  intro offset small
  have order := UInt64.lt_iff_toNat_lt.mp small
  exact Gives.pure (by omega)

end Stream

namespace Gaussian

/-- A float is usable when it is finite and positive. -/
theorem usable_iff (sigma : Float) :
    usable sigma = true ↔ sigma.isFinite = true ∧ 0.0 < sigma := by
  have zero : (0.0 : Float).toModel.unpack = .zero .positive := rfl
  have less : 0.0 < sigma ↔ (0.0 : Float).toModel.unpack.lt sigma.toModel.unpack = true := by
    change decide _ = true ↔ _
    exact decide_eq_true_iff
  have notAbove : sigma ≤ 0.0 ↔ sigma.toModel.unpack.le (0.0 : Float).toModel.unpack = true := by
    change decide _ = true ↔ _
    exact decide_eq_true_iff
  rw [usable, Bool.and_eq_true, Bool.not_eq_true', decide_eq_false_iff_not, less, notAbove, zero,
    Float.isFinite, Float.Model.isFinite]
  rcases sigma.toModel.unpack with sign | _ | sign | ⟨sign, mantissa, exponent, positive⟩
  · simp [Float.Model.UnpackedFloat.isFinite]
  · simp [Float.Model.UnpackedFloat.isFinite]
  · cases sign <;> decide
  · cases sign with
    | negative =>
      exact ⟨fun ⟨_, above⟩ => absurd rfl above, fun ⟨_, below⟩ => absurd below Bool.false_ne_true⟩
    | positive => exact ⟨fun _ => ⟨rfl, rfl⟩, fun _ => ⟨rfl, Bool.false_ne_true⟩⟩

open RingLwe.Stream

theorem tailCutOf_fits (sigma : Float) : 2 * tailCutOf sigma + 1 < UInt64.size := by
  have bound : tailCutOf sigma ≤ UInt64.size / 2 - 1 := Nat.min_le_right _ _
  simp only [UInt64.size] at bound ⊢
  omega

theorem tailCut_of_ofSigma? {sigma : Float} {gaussian : Gaussian}
    (made : ofSigma? sigma = some gaussian) : gaussian.tailCut = tailCutOf sigma := by
  unfold ofSigma? at made
  split at made
  · cases made
    rfl
  · cases made

variable {gaussian : Gaussian} (fits : 2 * gaussian.tailCut + 1 < UInt64.size)
include fits

theorem sampleFrom_le (trials : Nat) :
    Gives (gaussian.sampleFrom trials) fun value => value.natAbs ≤ gaussian.tailCut := by
  induction trials with
  | zero => exact Gives.pure (Nat.zero_le _)
  | succ trials ih =>
    refine Gives.bind (within_le fits) ?_
    intro value small
    refine Gives.bind (Gives.any unitFloat) ?_
    intro threshold _
    split
    · exact Gives.pure small
    · exact ih

theorem sample_le : Gives gaussian.sample fun value => value.natAbs ≤ gaussian.tailCut := by
  unfold sample
  exact sampleFrom_le fits trials

theorem samples_spec (count : Nat) : Gives (gaussian.samples count) fun values =>
    values.length = count ∧ ∀ value ∈ values, value.natAbs ≤ gaussian.tailCut :=
  times_spec (sample_le fits) count

end Gaussian

end RingLwe
