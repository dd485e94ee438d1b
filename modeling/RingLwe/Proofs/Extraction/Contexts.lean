import RingLwe.Proofs.Context.Construction
import RingLwe.Proofs.Extraction.SmallSecret
import RingLwe.Proofs.Session.RoundTrip

/-!
# Extraction under another context of the ring

Contexts that differ in the deviation and in switching only are of one ring and
have one fingerprint.  A key of one of them is accepted under the others, and
its bytes are loaded there as a copy with the same secret.

Extraction of a key asks for switching tables twice, of the context that it is
given and of the key's own.  All contexts of a ring have one width
(`Context.SameRing.width`), so the two answers differ only if one of the
contexts was built without tables (`Context.SameRing.switchTables_eq`).  The
copy of a key belongs to the context that is given, so that its extraction
depends on that context alone; the key itself is extracted as its copy unless
its own context is the one without tables, in which case it is refused
(`SecretKey.extracts_as_loaded`).
-/

set_option autoImplicit false

namespace RingLwe

/-! ## Contexts of one ring -/

namespace Context

/-- Contexts whose parameters differ in the deviation and in switching only are of one ring. -/
theorem sameRing_of_changed {parameters : Parameters} {sigma : Float} {switching : Bool}
    {left right : Context}
    (leftBuilt : ofParameters { parameters with sigma, switching } = .ok left)
    (rightBuilt : ofParameters parameters = .ok right) : SameRing left right := by
  obtain ⟨leftLawful, leftKept⟩ := ofParameters_spec leftBuilt
  obtain ⟨rightLawful, rightKept⟩ := ofParameters_spec rightBuilt
  have dimension : left.dimension = right.dimension := by
    rw [Context.dimension, Context.dimension, leftKept, rightKept]
  have width : left.width = right.width := by
    rw [Context.width, Context.width, leftKept, rightKept]
  refine ⟨dimension, ?_, ?_⟩
  · rw [plaintextModulus, plaintextModulus, leftKept, rightKept]
  · have selected := leftLawful.selected
    rw [dimension, width, rightLawful.selected] at selected
    exact (Except.ok.inj selected).symm

theorem exists_with_sigma {parameters : Parameters} (acceptable : Acceptable parameters)
    {sigma : Float} (finite : sigma.isFinite = true) (positive : 0.0 < sigma) :
    ∃ context, ofParameters { parameters with sigma } = .ok context := by
  have valid : Parameters.Valid { parameters with sigma } :=
    { acceptable.toValid with finite, positive }
  exact exists_iff_acceptable.mpr { valid with below := acceptable.below }

theorem exists_switchTables {parameters : Parameters} {context : Context}
    (built : ofParameters parameters = .ok context) (enabled : parameters.switching = true) :
    ∃ tables, context.switchTables parameters.width = .ok tables := by
  obtain ⟨lawful, rfl⟩ := ofParameters_spec built
  simp only [switchTables, lawful.switching, enabled, if_true, width, Except.ok.injEq,
    exists_eq']

theorem primeRuns_count_injective {left right : Width}
    (same : (left.primeRuns.map Prod.snd).sum = (right.primeRuns.map Prod.snd).sum) :
    left = right := by
  cases left <;> cases right <;> revert same <;> decide

namespace SameRing

variable {left right : Context} (same : SameRing left right) (leftLawful : left.Lawful)
  (rightLawful : right.Lawful)
include same leftLawful rightLawful

theorem width : left.width = right.width := by
  refine primeRuns_count_injective ?_
  rw [← length_of_selectModuli leftLawful.selected, same.moduli,
    length_of_selectModuli rightLawful.selected]

/-- Where one context of a ring has tables, another one has the same tables or is without
switching. -/
theorem switchTables_eq {width : Width} {tables : SwitchTables}
    (prepared : right.switchTables width = .ok tables) :
    left.switchTables width = .ok tables ∨
      left.switchTables width = .error .switchingDisabled := by
  obtain ⟨rfl, rfl, _⟩ := rightLawful.switchTables_spec prepared
  have sameWidth := same.width leftLawful rightLawful
  have sameBasis := same.basis leftLawful rightLawful
  cases enabled : left.parameters.switching with
  | true =>
    refine .inl ?_
    simp only [switchTables, leftLawful.switching, enabled, if_true, sameWidth, sameBasis]
  | false =>
    refine .inr ?_
    simp only [switchTables, leftLawful.switching, enabled, Bool.false_eq_true, if_false]

end SameRing

end Context

namespace SecretKey

/-! ## Refusals -/

theorem extract_of_refused {key : SecretKey} {width : Width} {failure : Failure}
    (refused : key.context.switchTables width = .error failure) :
    key.extract width = .error failure := by
  rw [extract, refused]
  rfl

/-- A key that extracts by its coefficients is not refused for the tables. -/
theorem ExtractsSmall.extract_ne_disabled {key : SecretKey} {width : Width}
    (extracts : key.ExtractsSmall width) : key.extract width ≠ .error .switchingDisabled := by
  intro refused
  obtain ⟨_, impossible, _⟩ := (extracts.refuses _).mp refused
  cases impossible

/-! ## Copies -/

/-- The copy of a key under another context of the ring has the same small coefficients. -/
theorem hasSecret_copy_iff {context : Context} {key : SecretKey}
    (same : Context.SameRing key.context context) {integers : List Int} :
    ({ key with context } : SecretKey).HasSecret integers ↔ key.HasSecret integers := by
  have smallAt : ∀ position integer,
      ({ key with context } : SecretKey).IsSmallAt position integer ↔
        key.IsSmallAt position integer := by
    intro position integer
    simp only [IsSmallAt, same.moduli]
  constructor
  · intro secret
    exact ⟨secret.length.trans same.dimension.symm,
      fun position integer present => (smallAt _ _).mp (secret.small position integer present)⟩
  · intro secret
    exact ⟨secret.length.trans same.dimension,
      fun position integer present => (smallAt _ _).mpr (secret.small position integer present)⟩

section Copy

variable {own context : Context} (lawful : own.Lawful) (otherLawful : context.Lawful)
  (same : Context.SameRing own context) {key : SecretKey} (belongs : key.Belongs own)
include lawful otherLawful same belongs

theorem Belongs.copy : ({ key with context } : SecretKey).Belongs context :=
  (Reachable.loaded (load_toBytes lawful otherLawful same belongs)).belongs otherLawful

/-- A key is extracted as its copy exactly if its own context has tables wherever the given one has
them. -/
theorem extraction_eq_copy_iff (width : Width) :
    Extraction.key context key width = Extraction.key context { key with context } width ↔
      ((∃ tables, context.switchTables width = .ok tables) →
        ∃ tables, own.switchTables width = .ok tables) := by
  have fingerprint := same.fingerprint lawful otherLawful
  rw [← belongs.bound] at fingerprint
  cases prepared : context.switchTables width with
  | error failure =>
    rw [Extraction.key_of_refused prepared, Extraction.key_of_refused prepared]
    refine iff_of_true rfl ?_
    rintro ⟨_, impossible⟩
    cases impossible
  | ok tables =>
    rw [Extraction.key_of_prepared prepared fingerprint, Extraction.key_of_prepared prepared rfl]
    rcases same.switchTables_eq lawful otherLawful prepared with found | disabled
    · refine iff_of_true ?_ fun _ => ⟨tables, found⟩
      rw [← belongs.bound] at same lawful found
      refine ((agrees_of_sameRing key same.symm otherLawful lawful).extract width ?_).symm
      rw [found]
      exact prepared
    · have extracts := extractsSmall otherLawful prepared (belongs.copy lawful otherLawful same)
      rw [disabled]
      rw [← belongs.bound] at disabled
      refine iff_of_false ?_ ?_
      · intro equal
        exact extracts.extract_ne_disabled (equal.symm.trans (extract_of_refused disabled))
      · intro needs
        obtain ⟨_, impossible⟩ := needs ⟨tables, rfl⟩
        cases impossible

end Copy

theorem exists_hasSecret_generate {context : Context} (lawful : context.Lawful)
    (narrow : context.gaussian.tailCut ≤ normBound) (stream : Stream) :
    ∃ integers, ((generate context).run stream).1.HasSecret integers := by
  obtain ⟨many, bounded⟩ := samples_spec lawful context.dimension stream
  have found := smallCoefficients_ofIntegers many lawful
    fun integer member => Nat.le_trans (bounded integer member) narrow
  exact ⟨_, (smallCoefficients_eq_ok_iff ((Reachable.generated stream).belongs lawful) lawful).mp
    found⟩

/-! ## Contexts that share a fingerprint -/

/-- Contexts of one ring share their fingerprint, and each loads the bytes of a key of the other as a
copy with the same secret.  The copy is extracted under its context if that has tables and the secret
is small, and otherwise refused for the tables or for the secret.  The key itself is extracted in the
same way, to the same words or the same refusal, except that it is refused where its own context is
without the tables that the given one has. -/
theorem extracts_as_loaded {ownParameters parameters : Parameters} {own context : Context}
    (ownBuilt : Context.ofParameters ownParameters = .ok own)
    (built : Context.ofParameters parameters = .ok context)
    (same : Context.SameRing own context) (width : Width) :
    own.fingerprint = context.fingerprint ∧
    (∀ key, Reachable own key → key.Belongs own) ∧
    ∀ key : SecretKey, key.Belongs own →
      ∃ loaded, load context key.toBytes = .ok loaded ∧ loaded.context = context ∧
        (∀ integers, loaded.HasSecret integers ↔ key.HasSecret integers) ∧
        (∀ failure, context.switchTables width = .error failure →
          Extraction.key context loaded width = .error failure) ∧
        (∀ tables, context.switchTables width = .ok tables →
          Extraction.key context loaded width = loaded.extract width ∧
            loaded.ExtractsSmall width ∧
            (¬(∃ tables, own.switchTables width = .ok tables) →
              Extraction.key context key width = .error .switchingDisabled)) ∧
        (Extraction.key context key width = Extraction.key context loaded width ↔
          ((∃ tables, context.switchTables width = .ok tables) →
            ∃ tables, own.switchTables width = .ok tables)) := by
  have lawful := Context.lawful_of_ofParameters ownBuilt
  have otherLawful := Context.lawful_of_ofParameters built
  have fingerprint := same.fingerprint lawful otherLawful
  refine ⟨fingerprint, fun _ reachable => reachable.belongs lawful, fun key belongs => ?_⟩
  refine ⟨{ key with context }, load_toBytes lawful otherLawful same belongs, rfl,
    fun integers => ?_, fun failure refused => Extraction.key_of_refused refused _,
    fun tables prepared => ⟨Extraction.key_of_prepared prepared rfl, ?_, fun without => ?_⟩,
    extraction_eq_copy_iff lawful otherLawful same belongs width⟩
  · rw [← belongs.bound] at same
    exact hasSecret_copy_iff same
  · exact extractsSmall otherLawful prepared (belongs.copy lawful otherLawful same)
  · rw [← belongs.bound] at fingerprint
    rw [Extraction.key_of_prepared prepared fingerprint]
    rcases same.switchTables_eq lawful otherLawful prepared with found | disabled
    · exact absurd ⟨tables, found⟩ without
    · rw [← belongs.bound] at disabled
      exact extract_of_refused disabled

/-- A key that is drawn with the preset of 32 bits extracts, as its copy does, under a context of that
preset with another deviation. -/
theorem extracts_as_loaded_preset : ∃ own context,
    Context.ofParameters (Parameters.preset .bits32) = .ok own ∧
      Context.ofParameters { Parameters.preset .bits32 with sigma := 3.0 } = .ok context ∧
      ∃ words loaded, load context ((generate own).run (Stream.ofSeed 1)).1.toBytes = .ok loaded ∧
        Extraction.key context loaded .bits32 = .ok words ∧
        Extraction.key context ((generate own).run (Stream.ofSeed 1)).1 .bits32 = .ok words := by
  obtain ⟨own, ownBuilt⟩ := Context.exists_preset .bits32
  obtain ⟨context, built⟩ := Context.exists_with_sigma
    (Context.exists_iff_acceptable.mp (Context.exists_preset .bits32)) (by decide +kernel)
    (by decide +kernel : (0.0 : Float) < 3.0)
  have same : Context.SameRing own context := (Context.sameRing_of_changed built ownBuilt).symm
  have lawful := Context.lawful_of_ofParameters ownBuilt
  obtain ⟨tables, prepared⟩ := Context.exists_switchTables built rfl
  have narrow : own.gaussian.tailCut ≤ normBound := by
    rw [tailCut_preset ownBuilt]
    decide
  obtain ⟨integers, secret⟩ := exists_hasSecret_generate lawful narrow (Stream.ofSeed 1)
  obtain ⟨_, belongs, each⟩ := extracts_as_loaded ownBuilt built same .bits32
  obtain ⟨loaded, made, _, secrets, _, extraction, agree⟩ :=
    each _ (belongs _ (.generated (Stream.ofSeed 1)))
  obtain ⟨extracted, extracts, _⟩ := extraction tables prepared
  obtain ⟨words, found⟩ := extracts.succeeds.mpr ⟨integers, (secrets integers).mpr secret⟩
  have equal := agree.mpr fun _ => ⟨_, Context.switchTables_preset ownBuilt⟩
  exact ⟨own, context, ownBuilt, built, words, loaded, made, extracted.trans found,
    equal.trans (extracted.trans found)⟩

/-- A key that is drawn with the preset of 32 bits without switching has a small secret and belongs to
the ring of the preset, which has tables.  There its copy is extracted, but the key is refused. -/
theorem extraction_refused_unswitched : ∃ own context,
    Context.ofParameters { Parameters.preset .bits32 with switching := false } = .ok own ∧
      Context.ofParameters (Parameters.preset .bits32) = .ok context ∧
      Context.SameRing own context ∧ (∃ tables, context.switchTables .bits32 = .ok tables) ∧
      (∃ integers, ((generate own).run (Stream.ofSeed 1)).1.HasSecret integers) ∧
      (∃ words loaded, load context ((generate own).run (Stream.ofSeed 1)).1.toBytes = .ok loaded ∧
        Extraction.key context loaded .bits32 = .ok words) ∧
      Extraction.key context ((generate own).run (Stream.ofSeed 1)).1 .bits32 =
        .error .switchingDisabled := by
  obtain ⟨own, ownBuilt, disabled⟩ :=
    Context.exists_unswitched (Context.exists_iff_acceptable.mp (Context.exists_preset .bits32))
  obtain ⟨context, built⟩ := Context.exists_preset .bits32
  have same : Context.SameRing own context := Context.sameRing_of_changed ownBuilt built
  have otherLawful := Context.lawful_of_ofParameters built
  have prepared := Context.switchTables_preset built
  obtain ⟨lawful, kept⟩ := Context.ofParameters_spec ownBuilt
  have narrow : own.gaussian.tailCut ≤ normBound := by
    rw [tailCut_default lawful (by rw [kept]; rfl)]
    decide
  have drawn := exists_hasSecret_generate lawful narrow (Stream.ofSeed 1)
  have belongs := (Reachable.generated (Stream.ofSeed 1)).belongs lawful
  refine ⟨own, context, ownBuilt, built, same, ⟨_, prepared⟩, drawn, ?_⟩
  generalize ((generate own).run (Stream.ofSeed 1)).1 = key at drawn belongs ⊢
  obtain ⟨integers, secret⟩ := drawn
  have extracts := extractsSmall otherLawful prepared (belongs.copy lawful otherLawful same)
  have fingerprint := same.fingerprint lawful otherLawful
  have loaded := load_toBytes lawful otherLawful same belongs
  rw [← belongs.bound] at same fingerprint disabled
  obtain ⟨words, found⟩ := extracts.succeeds.mpr ⟨integers, (hasSecret_copy_iff same).mpr secret⟩
  refine ⟨⟨words, _, loaded, (Extraction.key_of_prepared prepared rfl).trans found⟩, ?_⟩
  rw [Extraction.key_of_prepared prepared fingerprint]
  exact extract_of_refused (disabled .bits32)

end SecretKey

end RingLwe
