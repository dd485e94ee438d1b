import RingLwe.Extraction
import RingLwe.Proofs.Ciphertext
import RingLwe.Proofs.SecretKey
import RingLwe.Proofs.Switching

/-!
# What extraction gives

The data of a ciphertext extract to the words to which its coefficients switch
(`ciphertext_of_le`).  A key that extracts has small integer coefficients that
all primes agree on (`smallCoefficients_spec`), and its words are theirs
(`key_eq_ok`).  A generated key extracts when its Gaussian is narrow enough
(`key_generate`).
-/

set_option autoImplicit false

namespace RingLwe

open Residue

/-! ## Ciphertexts -/

section Ciphertexts

variable {context other : Context} (lawful : context.Lawful)
  (same : Context.SameRing other context) {width : Width} {tables : SwitchTables}
  (prepared : context.switchTables width = .ok tables) {written : Ciphertext}
  (belongs : written.Belongs other)
include lawful same prepared belongs

/-- The data of a ciphertext of the same ring extract to the words of as many of its coefficients as
are asked for. -/
theorem Extraction.ciphertext_of_le {samples : Nat} (enough : samples ≤ written.count) :
    Extraction.ciphertext context written.dataBytes samples width =
      .ok ((List.range samples).map fun position => tables.switch width
        (Switching.residuesAt context.primeCount written.count written.residues position)) := by
  have full : written.residues.length = written.count * context.primeCount := by
    rw [belongs.full, same.primeCount]
  have short : written.count ≤ 32768 := by
    refine Nat.le_trans belongs.count ?_
    rw [same.dimension]
    exact lawful.dimension_le
  have small : written.residues.length < UInt64.size := by
    rw [full]
    exact Nat.lt_of_le_of_lt (Nat.mul_le_mul short lawful.primeCount_le) (by decide)
  simp only [Extraction.ciphertext, prepared, ok_bind,
    Ciphertext.loadData_dataBytes belongs same lawful, if_neg (Nat.not_lt.mpr enough)]
  exact Switching.switch_eq_ok prepared _ _ _ full small enough

theorem Extraction.ciphertext_eq_ok :
    Extraction.ciphertext context written.dataBytes written.count width =
      .ok ((List.range written.count).map fun position => tables.switch width
        (Switching.residuesAt context.primeCount written.count written.residues position)) :=
  Extraction.ciphertext_of_le lawful same prepared belongs (Nat.le_refl _)

end Ciphertexts

/-! ## Secret keys -/

namespace SecretKey

/-- A small integer is that of the first residue, and has every residue. -/
theorem smallInteger?_spec {moduli residues : List UInt64} {integer : Int}
    (positive : ∀ q ∈ moduli, 0 < q.toNat)
    (found : smallInteger? moduli residues = some integer) :
    integer = toInt (residues.getD 0 0) (moduli.headD 0) ∧
      ∀ (index : Nat) q residue, moduli[index]? = some q → residues[index]? = some residue →
        classOf q residue = (integer : ZMod q.toNat) := by
  cases moduli with
  | nil => cases found
  | cons q moduli =>
    cases residues with
    | nil => cases found
    | cons first residues =>
      simp only [smallInteger?] at found
      split at found
      next accepted =>
        obtain rfl := Option.some.inj found
        obtain ⟨_, agree⟩ := Bool.and_eq_true_iff.mp accepted
        refine ⟨rfl, ?_⟩
        intro index other residue present given
        cases index with
        | zero =>
          cases present
          cases given
          exact (intCast_toInt first).symm
        | succ index =>
          have pair : (moduli.zip residues)[index]? = some (other, residue) :=
            List.getElem?_zip_eq_some.mpr ⟨present, given⟩
          have equal : residue = ofInt (toInt first q) other :=
            beq_iff_eq.mp (List.all_eq_true.mp agree _ (List.mem_of_getElem? pair))
          rw [equal]
          exact classOf_ofInt (positive other
            (List.mem_cons_of_mem _ (List.mem_of_getElem? present))) _
      next => cases found

/-- A small integer is recovered from its residues. -/
theorem smallInteger?_ofInt {moduli : List UInt64} (nonempty : moduli ≠ []) (integer : Int)
    (large : ∀ q ∈ moduli, 2 * integer.natAbs < q.toNat) (small : integer.natAbs ≤ normBound) :
    smallInteger? moduli (moduli.map (ofInt integer)) = some integer := by
  cases moduli with
  | nil => exact absurd rfl nonempty
  | cons q moduli =>
    have recovered := toInt_ofInt (large q (List.mem_cons_self ..))
    simp only [smallInteger?, List.map_cons, recovered]
    refine if_pos (Bool.and_eq_true_iff.mpr ⟨decide_eq_true small, List.all_eq_true.mpr ?_⟩)
    rintro ⟨other, residue⟩ member
    obtain ⟨position, present⟩ := List.getElem?_of_mem member
    obtain ⟨left, right⟩ := List.getElem?_zip_eq_some.mp present
    rw [List.getElem?_map, left] at right
    exact beq_iff_eq.mpr (Option.some.inj right).symm

section Small

variable {context : Context} (lawful : context.Lawful) {key : SecretKey}
  (belongs : key.Belongs context) {integers : List Int}
  (small : key.smallCoefficients = .ok integers)
include lawful belongs small

omit lawful in
/-- The coefficients of a key whose coefficients are small, one by one. -/
theorem smallCoefficients_getElem : integers.length = context.dimension ∧
    ∀ position (inside : position < integers.length),
      smallInteger? context.moduli (Switching.residuesAt context.primeCount context.dimension
        key.coefficients.residues position) = some integers[position] := by
  rw [smallCoefficients, belongs.bound] at small
  have each := forall₂_of_mapM_eq_ok small
  rw [columns_components context.primeCount _ 0 belongs.coefficients.full (Nat.le_refl _)] at each
  have length : integers.length = context.dimension := by
    rw [← each.length_eq, List.length_zipIdx, List.length_map, List.length_range]
  refine ⟨length, ?_⟩
  intro position inside
  have enough : position < ((List.range context.dimension).map fun position =>
      (List.range context.primeCount).map fun index =>
        key.coefficients.residues.getD (index * context.dimension + position) 0).zipIdx.length := by
    rw [each.length_eq]
    exact inside
  have related := (List.forall₂_iff_get.mp each).2 position enough inside
  simp only [List.get_eq_getElem, List.getElem_zipIdx, List.getElem_map,
    List.getElem_range] at related
  split at related
  next integer found =>
    cases related
    exact found
  next => cases related

/-- The coefficients of a key whose coefficients are small are the signed ones, and every prime
agrees on them. -/
theorem smallCoefficients_spec :
    integers = key.signedCoefficients ∧ integers.length = context.dimension ∧
      ∀ index q position, context.moduli[index]? = some q → position < context.dimension →
        classOf q (key.coefficients.residues.getD (index * context.dimension + position) 0) =
          ((key.signedCoefficients.getD position 0 : Int) : ZMod q.toNat) := by
  obtain ⟨length, each⟩ := smallCoefficients_getElem belongs small
  have positive : ∀ q ∈ context.moduli, 0 < q.toNat := fun q member => (lawful.prime member).pos
  have first := lawful.primeCount_pos
  have signed : integers = key.signedCoefficients := by
    have whole : (key.coefficients.component 0).length = context.dimension := by
      rw [ResiduePoly.component, belongs.coefficients.size]
      exact length_run belongs.coefficients.full first
    refine List.ext_getElem ?_ fun position inside other => ?_
    · rw [length, signedCoefficients, List.length_map, whole]
    · have short : position < context.dimension := length ▸ inside
      have residue : (key.coefficients.component 0).getD position 0 =
          key.coefficients.residues.getD (0 * context.dimension + position) 0 := by
        rw [ResiduePoly.component, belongs.coefficients.size]
        exact getD_run _ 0 short 0
      rw [(smallInteger?_spec positive (each position inside)).1,
        Switching.getD_residuesAt _ _ _ first, ← residue,
        List.getD_eq_getElem _ _ (by rw [whole]; exact short)]
      simp only [signedCoefficients, List.getElem_map, firstModulus, belongs.bound]
  refine ⟨signed, length, ?_⟩
  intro index q position present short
  have inside : position < integers.length := length.symm ▸ short
  have given : (Switching.residuesAt context.primeCount context.dimension
      key.coefficients.residues position)[index]? =
        some (key.coefficients.residues.getD (index * context.dimension + position) 0) := by
    rw [Switching.residuesAt, List.getElem?_map,
      List.getElem?_range (Context.Lawful.index_lt present), Option.map_some]
  rw [(smallInteger?_spec positive (each position inside)).2 index q _ present given, ← signed,
    List.getD_eq_getElem _ _ inside]

end Small

section Integers

variable {context : Context} {integers : List Int} (many : integers.length = context.dimension)
include many

/-- The residues of a polynomial of integers at a position. -/
theorem residuesAt_ofIntegers {position : Nat} (inside : position < context.dimension) :
    Switching.residuesAt context.primeCount context.dimension
        (ResiduePoly.ofIntegers integers context.moduli).residues position =
      context.moduli.map (ofInt (integers.getD position 0)) := by
  refine List.ext_getElem? ?_
  intro index
  rcases Nat.lt_or_ge index context.primeCount with present | absent
  · obtain ⟨q, found⟩ : ∃ q, context.moduli[index]? = some q :=
      ⟨_, List.getElem?_eq_getElem (by rw [Context.Lawful.length_moduli]; exact present)⟩
    rw [Switching.residuesAt, List.getElem?_map, List.getElem?_range present, Option.map_some,
      ← getD_run _ index inside, ResiduePoly.run_ofIntegers many found,
      getD_map _ _ (by rw [many]; exact inside) 0 0, List.getElem?_map, found, Option.map_some]
  · rw [List.getElem?_eq_none (by rw [Switching.length_residuesAt]; exact absent),
      List.getElem?_eq_none (by rw [List.length_map, Context.Lawful.length_moduli]; exact absent)]

/-- The coefficients of a key of small integers are these. -/
theorem smallCoefficients_ofIntegers (lawful : context.Lawful)
    (small : ∀ integer ∈ integers, integer.natAbs ≤ normBound) :
    (ofIntegers context integers).smallCoefficients = .ok integers := by
  have belongs := ResiduePoly.belongs_ofIntegers many lawful
  refine mapM_eq_ok_of_forall₂ ?_
  change List.Forall₂ _ (columns context.dimension (components context.dimension context.primeCount
    (ResiduePoly.ofIntegers integers context.moduli).residues)).zipIdx integers
  rw [columns_components context.primeCount _ 0 belongs.full (Nat.le_refl _)]
  refine List.forall₂_iff_get.mpr ⟨?_, fun position _ inside => ?_⟩
  · rw [List.length_zipIdx, List.length_map, List.length_range, many]
  · have short : position < context.dimension := by
      rw [← many]
      exact inside
    have bounded := small _ (List.getElem_mem inside)
    have large : ∀ q ∈ context.moduli, 2 * integers[position].natAbs < q.toNat := by
      intro q member
      have wide := (lawful.bounds member).1
      simp only [normBound] at bounded
      omega
    have found := smallInteger?_ofInt lawful.moduli_ne_nil _ large bounded
    rw [← List.getD_eq_getElem _ 0 inside, ← residuesAt_ofIntegers many short,
      List.getD_eq_getElem _ _ inside, Switching.residuesAt] at found
    simp only [List.get_eq_getElem, List.getElem_zipIdx, List.getElem_map, List.getElem_range]
    have bound : (ofIntegers context integers).context = context := rfl
    simp only [bound, found]

end Integers

end SecretKey

/-- Without tables, a context refuses every key. -/
theorem Extraction.key_of_refused {context : Context} {width : Width} {failure : Failure}
    (refused : context.switchTables width = .error failure) (key : SecretKey) :
    Extraction.key context key width = .error failure := by
  rw [Extraction.key, refused]
  rfl

/-- With tables, a context leaves a key of its fingerprint to the key's own context. -/
theorem Extraction.key_of_prepared {context : Context} {width : Width} {tables : SwitchTables}
    (prepared : context.switchTables width = .ok tables) {key : SecretKey}
    (fingerprint : key.context.fingerprint = context.fingerprint) :
    Extraction.key context key width = key.extract width := by
  rw [Extraction.key, prepared, ok_bind, Context.checkFingerprint, if_pos fingerprint, ok_bind]

/-- The words of a key that extracts are those of its signed coefficients. -/
theorem Extraction.key_eq_ok {context other : Context} (lawful : other.Lawful) {key : SecretKey}
    (belongs : key.Belongs other) {width : Width} {secret : List (LweWord width)}
    (extracted : Extraction.key context key width = .ok secret) :
    secret = key.signedCoefficients.map (BitVec.ofInt width.bits) ∧
      secret.length = other.dimension ∧
      ∀ index q position, other.moduli[index]? = some q → position < other.dimension →
        classOf q (key.coefficients.residues.getD (index * other.dimension + position) 0) =
          ((key.signedCoefficients.getD position 0 : Int) : ZMod q.toNat) := by
  unfold Extraction.key at extracted
  obtain ⟨_, _, extracted⟩ := bind_eq_ok_iff.mp extracted
  obtain ⟨_, _, extracted⟩ := bind_eq_ok_iff.mp extracted
  unfold SecretKey.extract at extracted
  obtain ⟨_, _, extracted⟩ := bind_eq_ok_iff.mp extracted
  obtain ⟨integers, small, extracted⟩ := bind_eq_ok_iff.mp extracted
  obtain ⟨rfl, length, classes⟩ := SecretKey.smallCoefficients_spec lawful belongs small
  cases extracted
  exact ⟨rfl, by rw [List.length_map, length], classes⟩

/-- Keys whose coefficients are drawn below the bound extract. -/
theorem Extraction.key_generate {context : Context} (lawful : context.Lawful) {width : Width}
    {tables : SwitchTables} (prepared : context.switchTables width = .ok tables)
    (small : context.gaussian.tailCut ≤ SecretKey.normBound) :
    Stream.Gives (SecretKey.generate context) fun key =>
      (∃ secret, Extraction.key context key width = .ok secret) ∧
        ∀ coefficient ∈ key.signedCoefficients, coefficient.natAbs ≤ context.gaussian.tailCut := by
  refine Stream.Gives.bind (SecretKey.samples_spec lawful context.dimension)
    fun integers drawn => Stream.Gives.pure ?_
  obtain ⟨many, bounded⟩ := drawn
  have belongs : (SecretKey.ofIntegers context integers).Belongs context :=
    SecretKey.belongs_ofCoefficients (ResiduePoly.belongs_ofIntegers many lawful)
  have found := SecretKey.smallCoefficients_ofIntegers many lawful
    fun integer member => Nat.le_trans (bounded integer member) small
  refine ⟨⟨integers.map (BitVec.ofInt width.bits), ?_⟩, ?_⟩
  · rw [Extraction.key_of_prepared prepared (by rw [belongs.bound]), SecretKey.extract,
      belongs.bound, prepared, ok_bind, found]
    rfl
  · rw [← (SecretKey.smallCoefficients_spec lawful belongs found).1]
    exact bounded

end RingLwe
