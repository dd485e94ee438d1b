import RingLwe.Proofs.Extraction

/-!
# Which keys extract

An integer is the small coefficient of a key at a position when it is at most
the norm bound in absolute value and leaves, modulo every prime, the residue
that the key holds there (`SecretKey.IsSmallAt`).  Every prime is more than
twice the bound, so the first residue determines the integer, and extraction
finds it from there (`SecretKey.isSmallAt_iff`).

So the coefficients are read exactly when all of them are small, and otherwise
the key is refused for its first position that is not
(`SecretKey.smallCoefficients_eq_ok_iff`,
`SecretKey.smallCoefficients_eq_error_iff`).  The words are computed from the
first residues, which wrap below zero for negative integers
(`SecretKey.wrappedWord_eq`).  This holds of every key of a context, and a key
that is drawn from a narrow Gaussian has only small coefficients
(`SecretKey.extract_small_or_refused`).
-/

set_option autoImplicit false

namespace RingLwe

open Residue

namespace SecretKey

/-! ## Small coefficients -/

/-- Whether an integer is small and has the residues of a coefficient of a key modulo all primes. -/
def IsSmallAt (key : SecretKey) (position : Nat) (integer : Int) : Prop :=
  integer.natAbs ≤ normBound ∧ ∀ index q, key.context.moduli[index]? = some q →
    ∃ residue, (key.coefficients.component index)[position]? = some residue ∧
      (residue.toNat : Int) = integer % (q.toNat : Int)

/-- Whether integers are small coefficients of a key, one for each position. -/
structure HasSecret (key : SecretKey) (integers : List Int) : Prop where
  length : integers.length = key.context.dimension
  small : ∀ (position : Nat) integer, integers[position]? = some integer →
    key.IsSmallAt position integer

/-- The small coefficient of a key at a position, or the refusal of the key for that position. -/
def coefficientAt (key : SecretKey) (position : Nat) : Except Failure Int :=
  match smallInteger? key.context.moduli (Switching.residuesAt key.context.primeCount
    key.context.dimension key.coefficients.residues position) with
  | some integer => .ok integer
  | none => .error (.secretNotSmall position)

theorem natAbs_le_of_smallInteger? {moduli residues : List UInt64} {integer : Int}
    (found : smallInteger? moduli residues = some integer) : integer.natAbs ≤ normBound := by
  unfold smallInteger? at found
  split at found
  next =>
    dsimp only at found
    split at found
    next accepted =>
      cases found
      exact of_decide_eq_true (Bool.and_eq_true_iff.mp accepted).1
    next => cases found
  next => cases found

section Positions

variable {context : Context} {key : SecretKey} (belongs : key.Belongs context)
include belongs

theorem getElem?_component {index position : Nat} (present : index < context.primeCount)
    (inside : position < context.dimension) :
    (key.coefficients.component index)[position]? =
      some (key.coefficients.residues.getD (index * context.dimension + position) 0) := by
  rw [ResiduePoly.component, belongs.coefficients.size, List.getElem?_take_of_lt inside,
    List.getElem?_drop]
  exact getElem?_eq_some_getD belongs.coefficients.full present inside 0

variable (lawful : context.Lawful)
include lawful

/-- The residues of a small coefficient are those of the integer. -/
theorem IsSmallAt.residuesAt_eq {position : Nat} (inside : position < context.dimension)
    {integer : Int} (small : key.IsSmallAt position integer) :
    Switching.residuesAt context.primeCount context.dimension key.coefficients.residues position =
      context.moduli.map (ofInt integer) := by
  refine List.ext_getElem ?_ fun index present other => ?_
  · rw [Switching.length_residuesAt, List.length_map, Context.Lawful.length_moduli]
  · rw [Switching.length_residuesAt] at present
    rw [List.length_map] at other
    have found := List.getElem?_eq_getElem other
    obtain ⟨residue, held, remainder⟩ := small.2 index _ (by rw [belongs.bound]; exact found)
    rw [getElem?_component belongs present inside, Option.some.injEq] at held
    have positive : 0 < context.moduli[index].toNat := (lawful.prime (List.getElem_mem other)).pos
    rw [← toNat_ofInt positive, Int.natCast_inj] at remainder
    simp only [Switching.residuesAt, List.getElem_map, List.getElem_range, held]
    exact UInt64.toNat_inj.mp remainder

/-- The small coefficient of a key at a position is the one that extraction reads there. -/
theorem isSmallAt_iff {position : Nat} (inside : position < context.dimension) (integer : Int) :
    key.IsSmallAt position integer ↔
      smallInteger? context.moduli (Switching.residuesAt context.primeCount context.dimension
        key.coefficients.residues position) = some integer := by
  constructor
  · intro small
    rw [small.residuesAt_eq belongs lawful inside]
    refine smallInteger?_ofInt lawful.moduli_ne_nil integer (fun q member => ?_) small.1
    have wide := (lawful.bounds member).1
    have bounded := small.1
    simp only [normBound] at bounded
    omega
  · intro found
    have positive : ∀ q ∈ context.moduli, 0 < q.toNat := fun q member => (lawful.prime member).pos
    obtain ⟨_, agree⟩ := smallInteger?_spec positive found
    refine ⟨natAbs_le_of_smallInteger? found, fun index q present => ?_⟩
    rw [belongs.bound] at present
    have enough := Context.Lawful.index_lt present
    refine ⟨_, getElem?_component belongs enough inside, ?_⟩
    have reduced := belongs.coefficients.reduced.getD_lt belongs.coefficients.full present enough
      inside
    have given : (Switching.residuesAt context.primeCount context.dimension
        key.coefficients.residues position)[index]? =
          some (key.coefficients.residues.getD (index * context.dimension + position) 0) := by
      rw [Switching.residuesAt, List.getElem?_map, List.getElem?_range enough, Option.map_some]
    have wide := positive q (List.mem_of_getElem? present)
    have same := eq_of_classOf_eq reduced (ofInt_lt wide integer)
      ((agree index q _ present given).trans (classOf_ofInt wide integer).symm)
    rw [same, toNat_ofInt wide]

/-! ## What extraction reads -/

omit lawful in
/-- The coefficients are read position by position. -/
theorem smallCoefficients_eq_mapM :
    key.smallCoefficients = (List.range context.dimension).mapM key.coefficientAt := by
  rw [smallCoefficients, belongs.bound,
    columns_components context.primeCount _ 0 belongs.coefficients.full (Nat.le_refl _)]
  have numbered : ((List.range context.dimension).map fun position =>
      (List.range context.primeCount).map fun index =>
        key.coefficients.residues.getD (index * context.dimension + position) 0).zipIdx =
      (List.range context.dimension).map fun position =>
        (Switching.residuesAt context.primeCount context.dimension key.coefficients.residues
          position, position) := by
    refine List.ext_getElem (by simp) fun position _ _ => ?_
    simp [Switching.residuesAt]
  rw [numbered, List.mapM_map]
  refine congrArg (fun outcome => List.mapM outcome _) (funext fun position => ?_)
  rw [coefficientAt, belongs.bound]
  rfl

theorem coefficientAt_eq_ok_iff {position : Nat} (inside : position < context.dimension)
    {integer : Int} :
    key.coefficientAt position = .ok integer ↔ key.IsSmallAt position integer := by
  rw [isSmallAt_iff belongs lawful inside, coefficientAt, belongs.bound]
  split
  next found present => rw [present, Except.ok.injEq, Option.some.injEq]
  next absent => simp [absent]

theorem coefficientAt_eq_error_iff {position : Nat} (inside : position < context.dimension)
    {failure : Failure} :
    key.coefficientAt position = .error failure ↔
      failure = .secretNotSmall position ∧ ¬∃ integer, key.IsSmallAt position integer := by
  simp only [isSmallAt_iff belongs lawful inside]
  rw [coefficientAt, belongs.bound]
  split
  next found present => simp [present]
  next absent => simp [absent, eq_comm]

/-- A key has small coefficients exactly when integers are its small coefficients. -/
theorem smallCoefficients_eq_ok_iff {integers : List Int} :
    key.smallCoefficients = .ok integers ↔ key.HasSecret integers := by
  rw [smallCoefficients_eq_mapM belongs]
  constructor
  · intro read
    have each := forall₂_of_mapM_eq_ok read
    have length := each.length_eq
    rw [List.length_range] at length
    refine ⟨by rw [belongs.bound, length], fun position integer present => ?_⟩
    obtain ⟨inside, rfl⟩ := List.getElem?_eq_some_iff.mp present
    have short : position < context.dimension := length ▸ inside
    have found := (List.forall₂_iff_get.mp each).2 position (by rwa [List.length_range]) inside
    simp only [List.get_eq_getElem, List.getElem_range] at found
    exact (coefficientAt_eq_ok_iff belongs lawful short).mp found
  · intro secret
    have length := secret.length
    rw [belongs.bound] at length
    refine mapM_eq_ok_of_forall₂ (List.forall₂_iff_get.mpr ⟨?_, fun position _ inside => ?_⟩)
    · rw [List.length_range, length]
    · have short : position < context.dimension := length ▸ inside
      simp only [List.get_eq_getElem, List.getElem_range]
      exact (coefficientAt_eq_ok_iff belongs lawful short).mpr
        (secret.small position _ (List.getElem?_eq_getElem inside))

/-- A key is refused for the first position at which it has no small coefficient. -/
theorem smallCoefficients_eq_error_iff {failure : Failure} :
    key.smallCoefficients = .error failure ↔
      ∃ position, failure = .secretNotSmall position ∧
        IsLeast {index | index < context.dimension ∧ ¬∃ integer, key.IsSmallAt index integer}
          position := by
  rw [smallCoefficients_eq_mapM belongs, mapM_eq_error_iff]
  constructor
  · rintro ⟨position, _, present, failed, earlier⟩
    obtain ⟨inside, rfl⟩ := List.getElem?_eq_some_iff.mp present
    rw [List.length_range] at inside
    rw [List.getElem_range] at failed
    obtain ⟨rfl, none⟩ := (coefficientAt_eq_error_iff belongs lawful inside).mp failed
    refine ⟨position, rfl, ⟨inside, none⟩, fun other ⟨within, without⟩ => Nat.not_lt.mp ?_⟩
    intro before
    obtain ⟨integer, found⟩ := earlier other before other (List.getElem?_range within)
    exact without ⟨integer, (coefficientAt_eq_ok_iff belongs lawful within).mp found⟩
  · rintro ⟨position, rfl, ⟨inside, none⟩, least⟩
    refine ⟨position, position, List.getElem?_range inside,
      (coefficientAt_eq_error_iff belongs lawful inside).mpr ⟨rfl, none⟩, ?_⟩
    intro earlier before other present
    have within : earlier < context.dimension := Nat.lt_trans before inside
    rw [List.getElem?_range within, Option.some.injEq] at present
    subst present
    obtain ⟨integer, small⟩ : ∃ integer, key.IsSmallAt earlier integer := by
      by_contra without
      exact absurd (least ⟨within, without⟩) (Nat.not_le.mpr before)
    exact ⟨integer, (coefficientAt_eq_ok_iff belongs lawful within).mpr small⟩

end Positions

/-! ## Words -/

/-- The word of a residue that stands for a small integer: that of the residue, and for a negative
integer zero less the word of the distance from the residue to the modulus. -/
def wrappedWord (width : Width) (q residue : UInt64) : LweWord width :=
  if toInt residue q < 0 then 0 - LweWord.ofNat width (q - residue).toNat
  else LweWord.ofNat width residue.toNat

/-- Wrapping below zero gives the word of the integer. -/
theorem wrappedWord_eq (width : Width) {q residue : UInt64} (reduced : residue < q) :
    wrappedWord width q residue = BitVec.ofInt width.bits (toInt residue q) := by
  have order := UInt64.lt_iff_toNat_lt.mp reduced
  have distance : (q - residue).toNat = q.toNat - residue.toNat :=
    UInt64.toNat_sub_of_le _ _ (UInt64.le_iff_toNat_le.mpr (Nat.le_of_lt order))
  rw [wrappedWord, distance, LweWord.ofNat, LweWord.ofNat, toInt]
  by_cases low : residue.toNat ≤ (q.toNat - 1) / 2
  · rw [if_pos low, if_neg (by omega), BitVec.ofInt_natCast]
  · have negative : (residue.toNat : Int) - q.toNat = -((q.toNat - residue.toNat : Nat) : Int) := by
      omega
    rw [if_neg low, if_pos (by omega), negative, BitVec.ofInt_neg, BitVec.ofInt_natCast]
    exact BitVec.zero_sub _

/-- The words of a key are computed from the residues of its first prime. -/
theorem map_wrappedWord {context : Context} (lawful : context.Lawful) (width : Width)
    {key : SecretKey} (belongs : key.Belongs context) :
    (key.coefficients.component 0).map (wrappedWord width key.firstModulus) =
      key.signedCoefficients.map (BitVec.ofInt width.bits) := by
  have first : context.moduli[0]? = some key.firstModulus := by
    rw [firstModulus, belongs.bound]
    cases moduli : context.moduli with
    | nil => exact absurd moduli lawful.moduli_ne_nil
    | cons q rest => rfl
  rw [signedCoefficients, List.map_map]
  refine List.map_congr_left fun residue member => wrappedWord_eq width ?_
  rw [ResiduePoly.component, belongs.coefficients.size] at member
  exact belongs.coefficients.reduced 0 _ first residue member

theorem toNat_map_ofInt (width : Width) (integers : List Int) :
    (integers.map (BitVec.ofInt width.bits)).map (fun word => (word.toNat : Int)) =
      integers.map (· % (width.modulus : Int)) := by
  rw [List.map_map]
  refine List.map_congr_left fun integer _ => ?_
  have positive : (0 : Int) < width.modulus := Int.natCast_pos.mpr width.modulus_pos
  rw [Function.comp_apply, BitVec.toNat_ofInt, width.two_pow_bits,
    Int.toNat_of_nonneg (Int.emod_nonneg _ (Int.ne_of_gt positive))]

/-- What extraction of a key answers: words exactly if the key has small coefficients, those of the
coefficients, and otherwise the refusal for the first position that has none. -/
structure ExtractsSmall (key : SecretKey) (width : Width) : Prop where
  succeeds : (∃ words, key.extract width = .ok words) ↔ ∃ integers, key.HasSecret integers
  words : ∀ words integers, key.extract width = .ok words → key.HasSecret integers →
    integers = key.signedCoefficients ∧
      words.map (fun word => (word.toNat : Int)) = integers.map (· % (width.modulus : Int)) ∧
      words = (key.coefficients.component 0).map (wrappedWord width key.firstModulus)
  refuses : ∀ failure, key.extract width = .error failure ↔
    ∃ position, failure = .secretNotSmall position ∧
      IsLeast {index | index < key.context.dimension ∧ ¬∃ integer, key.IsSmallAt index integer}
        position

section Extract

variable {context : Context} (lawful : context.Lawful) {width : Width} {tables : SwitchTables}
  (prepared : context.switchTables width = .ok tables) {key : SecretKey}
  (belongs : key.Belongs context)
include lawful prepared belongs

theorem extract_eq_ok_iff {words : List (LweWord width)} :
    key.extract width = .ok words ↔
      ∃ integers, key.HasSecret integers ∧ integers.map (BitVec.ofInt width.bits) = words := by
  rw [extract, belongs.bound, prepared, ok_bind, bind_eq_ok_iff]
  simp only [smallCoefficients_eq_ok_iff belongs lawful, pure, Except.pure, Except.ok.injEq]

omit lawful in
theorem extract_eq_error_iff {failure : Failure} :
    key.extract width = .error failure ↔ key.smallCoefficients = .error failure := by
  rw [extract, belongs.bound, prepared, ok_bind]
  cases key.smallCoefficients with
  | error found =>
    constructor
    · intro failed
      cases failed
      rfl
    · intro failed
      cases failed
      rfl
  | ok integers =>
    constructor
    · intro failed
      cases failed
    · intro failed
      cases failed

theorem extractsSmall : key.ExtractsSmall width := by
  have whole : ∀ words, key.extract width = .ok words ↔
      ∃ integers, key.HasSecret integers ∧ integers.map (BitVec.ofInt width.bits) = words :=
    fun _ => extract_eq_ok_iff lawful prepared belongs
  refine ⟨?_, fun words integers extracted secret => ?_, fun failure => ?_⟩
  · constructor
    · rintro ⟨words, extracted⟩
      obtain ⟨integers, secret, _⟩ := (whole _).mp extracted
      exact ⟨integers, secret⟩
    · rintro ⟨integers, secret⟩
      exact ⟨_, (whole _).mpr ⟨integers, secret, rfl⟩⟩
  · have small := (smallCoefficients_eq_ok_iff belongs lawful).mpr secret
    obtain ⟨signed, _⟩ := smallCoefficients_spec lawful belongs small
    obtain ⟨others, otherSecret, rfl⟩ := (whole _).mp extracted
    have same := small.symm.trans ((smallCoefficients_eq_ok_iff belongs lawful).mpr otherSecret)
    cases same
    refine ⟨signed, toNat_map_ofInt width integers, ?_⟩
    rw [map_wrappedWord lawful width belongs, ← signed]
  · rw [extract_eq_error_iff prepared belongs, smallCoefficients_eq_error_iff belongs lawful,
      belongs.bound]

end Extract

/-! ## Keys of a context -/

/-- Every key of a context with switching tables, drawn or loaded from any bytes that are accepted,
is extracted exactly if it has small coefficients, to their words, and otherwise refused for the
first position that has none.  A key that is drawn from a Gaussian whose tail cut is at most the
bound is extracted to the words of its samples, also after it was written and loaded. -/
theorem extract_small_or_refused {parameters : Parameters} {context : Context}
    (built : Context.ofParameters parameters = .ok context) {width : Width} {tables : SwitchTables}
    (prepared : context.switchTables width = .ok tables) :
    (∀ key, Reachable context key →
      key.ExtractsSmall width ∧ Extraction.key context key width = key.extract width) ∧
    (context.gaussian.tailCut ≤ normBound → ∀ stream, ∃ words,
      ((generate context).run stream).1.extract width = .ok words ∧
      words.map (fun word => (word.toNat : Int)) =
        ((context.gaussian.samples context.dimension).run stream).1.map
          (· % (width.modulus : Int)) ∧
      ∃ loaded, load context ((generate context).run stream).1.toBytes = .ok loaded ∧
        loaded.extract width = .ok words) := by
  have lawful := Context.lawful_of_ofParameters built
  constructor
  · intro key reachable
    have belongs := reachable.belongs lawful
    refine ⟨extractsSmall lawful prepared belongs, ?_⟩
    rw [Extraction.key, prepared, ok_bind, belongs.bound, Context.checkFingerprint, if_pos rfl,
      ok_bind]
  · intro narrow stream
    obtain ⟨many, bounded⟩ := samples_spec lawful context.dimension stream
    have belongs := (Reachable.generated stream).belongs lawful
    have found := smallCoefficients_ofIntegers many lawful
      fun integer member => Nat.le_trans (bounded integer member) narrow
    have secret := (smallCoefficients_eq_ok_iff belongs lawful).mp found
    have extracted := (extract_eq_ok_iff lawful prepared belongs).mpr ⟨_, secret, rfl⟩
    refine ⟨_, extracted, toNat_map_ofInt width _, _,
      load_toBytes lawful lawful (Context.SameRing.refl context) belongs, ?_⟩
    have own : { ((generate context).run stream).1 with context } =
      ((generate context).run stream).1 := rfl
    rw [own]
    exact extracted

theorem component_ofIntegers {context : Context} {integers : List Int}
    (many : integers.length = context.dimension) {index : Nat} {q : UInt64}
    (present : context.moduli[index]? = some q) :
    (ofIntegers context integers).coefficients.component index = integers.map (ofInt · q) := by
  rw [← ResiduePoly.run_ofIntegers many present, ← many]
  rfl

/-- In the preset of 32 bits a drawn key is extracted, and a key with a zero before coefficients
above the bound is loaded from its bytes and refused for its second coefficient. -/
theorem extract_preset : ∃ context tables,
    Context.ofParameters (Parameters.preset .bits32) = .ok context ∧
      context.switchTables .bits32 = .ok tables ∧
      (∃ words, ((generate context).run (Stream.ofSeed 1)).1.extract .bits32 = .ok words) ∧
      ∃ key, key = ofIntegers context (0 :: List.replicate 2047 1048577) ∧
        load context key.toBytes = .ok key ∧
        key.extract .bits32 = .error (.secretNotSmall 1) := by
  obtain ⟨context, built⟩ := Context.exists_preset .bits32
  have prepared := Context.switchTables_preset built
  have lawful := Context.lawful_of_ofParameters built
  have dimension := (Context.preset_spec built).1
  have moduli := Context.moduli_preset built
  obtain ⟨outcome, drawn⟩ := extract_small_or_refused built prepared
  have narrow : context.gaussian.tailCut ≤ normBound := by
    rw [tailCut_preset built]
    decide
  obtain ⟨words, extracted, _⟩ := drawn narrow (Stream.ofSeed 1)
  have many : (0 :: List.replicate 2047 (1048577 : Int)).length = context.dimension := by
    rw [dimension, List.length_cons, List.length_replicate]
  obtain ⟨key, made⟩ : ∃ key, key = ofIntegers context (0 :: List.replicate 2047 1048577) := ⟨_, rfl⟩
  have belongs : key.Belongs context := by
    rw [made]
    exact belongs_ofCoefficients (ResiduePoly.belongs_ofIntegers many lawful)
  have bound := belongs.bound
  have loaded := load_toBytes lawful lawful (Context.SameRing.refl context) belongs
  have own : { key with context } = key := by rw [← bound]
  rw [own] at loaded
  have residueAt : ∀ (position : Nat) integer,
      (0 :: List.replicate 2047 (1048577 : Int))[position]? = some integer →
      (key.coefficients.component 0)[position]? = some (ofInt integer 8589905921) := by
    intro position integer present
    have first : context.moduli[0]? = some 8589905921 := by rw [moduli]; rfl
    rw [made, component_ofIntegers many first, List.getElem?_map, present, Option.map_some]
  refine ⟨context, _, built, prepared, ⟨words, extracted⟩, key, made, loaded, ?_⟩
  refine ((outcome key (.loaded loaded)).1.refuses _).mpr ⟨1, rfl, ⟨?_, ?_⟩, ?_⟩
  · rw [bound, dimension]
    decide
  · rintro ⟨integer, small, residues⟩
    obtain ⟨residue, held, remainder⟩ := residues 0 8589905921 (by rw [bound, moduli]; rfl)
    rw [residueAt 1 1048577 rfl, Option.some.injEq] at held
    rw [← held, toNat_ofInt (by decide)] at remainder
    have modulus : ((8589905921 : UInt64).toNat : Int) = 8589905921 := rfl
    rw [modulus] at remainder
    simp only [normBound] at small
    omega
  · rintro index ⟨_, without⟩
    by_contra before
    obtain rfl : index = 0 := by omega
    refine without ⟨0, Nat.zero_le _, fun prime q present => ?_⟩
    rw [bound, moduli, List.getElem?_singleton, Option.ite_none_right_eq_some] at present
    obtain ⟨rfl, same⟩ := present
    obtain rfl := Option.some.inj same
    exact ⟨_, residueAt 0 0 rfl, toNat_ofInt (by decide) 0⟩

end SecretKey

end RingLwe
