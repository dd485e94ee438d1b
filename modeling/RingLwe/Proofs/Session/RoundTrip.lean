import RingLwe.Proofs.Session

/-!
# The objects of a session are read back

Every ciphertext of a session is read back from both of its written forms, and
every secret key from its own, each form with as many bytes as its size.  A key
that is reloaded from the bytes of another key of its ring holds the secret of
that key and answers as it does (`SecretKey.Agrees`,
`Session.reached_reads_back`).
-/

set_option autoImplicit false

namespace RingLwe

namespace SecretKey

/-- Whether two keys hold the same secret in both domains and give the same answers.  Extraction
depends on the switching tables of the context, too. -/
structure Agrees (left right : SecretKey) : Prop where
  transformed : left.transformed = right.transformed
  coefficients : left.coefficients = right.coefficients
  signedCoefficients : left.signedCoefficients = right.signedCoefficients
  decrypt : ∀ a ciphertext, left.decrypt a ciphertext = right.decrypt a ciphertext
  extract : ∀ width, left.context.switchTables width = right.context.switchTables width →
    left.extract width = right.extract width

/-- A key under another context of the same ring agrees with the key. -/
theorem agrees_of_sameRing {context : Context} (key : SecretKey)
    (same : Context.SameRing context key.context) (lawful : context.Lawful)
    (keyLawful : key.context.Lawful) : Agrees { key with context } key := by
  refine ⟨rfl, rfl, ?_, ?_, ?_⟩
  · simp only [signedCoefficients, firstModulus, same.moduli]
  · intro a ciphertext
    simp only [decrypt, checkPublic, phases, mulPublic, Context.checkFingerprint, same.dimension,
      same.primeCount, same.moduli, same.fingerprint lawful keyLawful,
      same.transform lawful keyLawful, same.descale lawful keyLawful]
  · intro width tables
    simp only [extract, smallCoefficients, tables, same.dimension, same.primeCount, same.moduli]

end SecretKey

namespace Session

/-- What operations make under contexts that were built is read back from what is written of it:
every ciphertext from its full object and from its data, and every key from its bytes.  A key that
is reloaded from the bytes of another key of equal fingerprint agrees with that key. -/
theorem reached_reads_back {contexts : List Context}
    (built : ∀ context ∈ contexts, ∃ parameters, Context.ofParameters parameters = .ok context)
    (distinguished : Context.Distinguished contexts) (operations : List Operation) :
    (∀ ciphertext ∈ (reached contexts operations).ciphertexts,
      Ciphertext.load ciphertext.context ciphertext.toBytes = .ok ciphertext ∧
        Ciphertext.loadData ciphertext.context ciphertext.dataBytes = .ok ciphertext ∧
        ciphertext.toBytes.length = ciphertext.size ∧
        ciphertext.dataBytes.length = ciphertext.dataSize) ∧
    ∀ key ∈ (reached contexts operations).keys,
      SecretKey.load key.context key.toBytes = .ok key ∧ key.toBytes.length = key.size ∧
        ∀ other ∈ (reached contexts operations).keys,
          other.context.fingerprint = key.context.fingerprint →
          ∃ reloaded, other.reload key.toBytes = .ok reloaded ∧
            reloaded.context = other.context ∧ reloaded.Agrees key := by
  have lawful := lawful_of_built built
  have wellFormed := wellFormed_reached lawful distinguished operations
  constructor
  · intro ciphertext member
    obtain ⟨own, belongs⟩ := wellFormed.ciphertexts ciphertext member
    exact ⟨Ciphertext.load_toBytes belongs (lawful _ own),
      Ciphertext.loadData_dataBytes belongs (Context.SameRing.refl _) (lawful _ own),
      Ciphertext.length_toBytes ciphertext, Ciphertext.length_dataBytes belongs⟩
  · intro key member
    obtain ⟨own, spec⟩ := wellFormed.keys key member
    refine ⟨?_, SecretKey.length_toBytes key, ?_⟩
    · exact SecretKey.load_toBytes (lawful _ own) (lawful _ own) (Context.SameRing.refl _)
        spec.belongs
    · intro other otherMember sameFingerprint
      obtain ⟨otherOwn, _⟩ := wellFormed.keys other otherMember
      have same := distinguished _ otherOwn _ own sameFingerprint
      exact ⟨{ key with context := other.context },
        SecretKey.load_toBytes (lawful _ own) (lawful _ otherOwn) same.symm spec.belongs, rfl,
        SecretKey.agrees_of_sameRing key same (lawful _ otherOwn) (lawful _ own)⟩

/-- With the preset of 32 bits, a ciphertext of five coefficients is read back, and of two keys the
first agrees with the second once it is reloaded from the bytes of the second. -/
theorem reached_reads_back_preset : ∃ context,
    Context.ofParameters (Parameters.preset .bits32) = .ok context ∧
      (∃ ciphertext, ciphertext ∈ (reached [context] [.generateKey 0 (Stream.ofSeed 1),
          .derivePublic 0 (Vector.replicate 8 0), .preprocess 0 0 (Stream.ofSeed 2),
          .encryptPreprocessed 0 (List.replicate 5 0) 0]).ciphertexts ∧
        ciphertext.count = 5 ∧ Ciphertext.load context ciphertext.toBytes = .ok ciphertext) ∧
      ∃ first second, (reached [context]
          [.generateKey 0 (Stream.ofSeed 1), .generateKey 0 (Stream.ofSeed 2)]).keys =
            [first, second] ∧
        ∃ reloaded, first.reload second.toBytes = .ok reloaded ∧ reloaded.Agrees second := by
  obtain ⟨context, built⟩ := Context.exists_preset .bits32
  have lawful := Context.lawful_of_ofParameters built
  have contexts : ∀ other ∈ [context], ∃ parameters,
      Context.ofParameters parameters = .ok other :=
    List.forall_mem_singleton.mpr ⟨_, built⟩
  have distinguished := Context.distinguished_singleton context
  refine ⟨context, built, ?_, ?_⟩
  · have fits : 5 ≤ context.dimension := by
      rw [(Context.preset_spec built).1]
      decide
    obtain ⟨ciphertext, made, own, counted⟩ := exists_reached_ciphertext lawful fits
      (Stream.ofSeed 1) (Stream.ofSeed 2) (Vector.replicate 8 0)
    have member := List.mem_singleton_self ciphertext
    rw [← made] at member
    have back := ((reached_reads_back contexts distinguished _).1 ciphertext member).1
    rw [own] at back
    exact ⟨ciphertext, member, counted, back⟩
  · -- Both facts are stated for all streams, so that none is evaluated.
    have bound : ∀ stream, ((SecretKey.generate context).run stream).1.context = context :=
      fun stream => ((SecretKey.Reachable.generated stream).belongs lawful).bound
    have generated : ∀ left right,
        (reached [context] [.generateKey 0 left, .generateKey 0 right]).keys =
          [((SecretKey.generate context).run left).1,
            ((SecretKey.generate context).run right).1] :=
      fun _ _ => rfl
    obtain ⟨_, keys⟩ := reached_reads_back contexts distinguished
      [.generateKey 0 (Stream.ofSeed 1), .generateKey 0 (Stream.ofSeed 2)]
    rw [generated] at keys
    obtain ⟨_, _, reload⟩ := keys _ (List.mem_cons_of_mem _ (List.mem_singleton_self _))
    obtain ⟨reloaded, made, _, agrees⟩ :=
      reload _ (List.mem_cons_self ..) (by rw [bound, bound])
    exact ⟨_, _, generated _ _, reloaded, made, agrees⟩

end Session

end RingLwe
