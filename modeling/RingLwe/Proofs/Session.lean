import RingLwe.Proofs.Encryption
import RingLwe.Session

/-!
# What holds of the objects of a session

Every object of a session is well formed under its context: keys are reduced in
both domains and each form is the other one transformed, public polynomials are
reduced in the transformed domain, partial ciphertexts in the coefficient
domain, plaintexts hold as many reduced values as the ring has coefficients,
and ciphertexts hold reduced residues for each of their coefficients
(`Session.WellFormed`).

One operation keeps this (`Session.wellFormed_step`), so it holds in every
session that operations reach (`Session.wellFormed_reached`).  The operations on
two objects check fingerprints only, so the contexts of a session must be
distinguished by theirs (`Context.Distinguished`).

Sessions do hold ciphertexts: a single context has them with every number of
coefficients up to its dimension (`Session.exists_reached_ciphertext`).
-/

set_option autoImplicit false

namespace RingLwe

/-! ## Well-formed objects -/

/-- What holds of a secret key in every session. -/
structure SecretKey.WellFormed (key : SecretKey) : Prop where
  transformed : key.transformed.Belongs key.context .transformed
  coefficients : key.coefficients.Belongs key.context .coefficient
  forward : key.transformed.residues = key.context.transform.forward key.coefficients.residues
  inverse : key.coefficients.residues = key.context.transform.inverse key.transformed.residues

/-- What holds of a plaintext in every session. -/
structure Plaintext.WellFormed (plaintext : Plaintext) : Prop where
  length : plaintext.values.length = plaintext.context.dimension
  reduced : ∀ value ∈ plaintext.values, value < plaintext.context.plaintextModulus

/-! ## Secret keys and plaintexts -/

namespace SecretKey

theorem wellFormed_of_belongs {context : Context} (lawful : context.Lawful) {key : SecretKey}
    (belongs : key.Belongs context) : key.WellFormed := by
  obtain ⟨rfl, coefficients, transformed⟩ := belongs
  have forward : key.transformed.residues =
      key.context.transform.forward key.coefficients.residues := by
    rw [transformed, ResiduePoly.toTransformed, coefficients.domain]
  refine ⟨?_, coefficients, forward, ?_⟩
  · rw [transformed]
    exact ResiduePoly.belongs_toTransformed lawful coefficients
  · rw [forward, lawful.inverse_forward coefficients.full coefficients.reduced]

theorem WellFormed.belongs {key : SecretKey} (wellFormed : key.WellFormed) :
    key.Belongs key.context := by
  obtain ⟨context, ⟨transformed, size, domain⟩, coefficients⟩ := key
  obtain ⟨image, original, forward, _⟩ := wellFormed
  dsimp only at image original forward ⊢
  refine ⟨rfl, original, ?_⟩
  dsimp only
  obtain rfl : size = context.dimension := image.size
  obtain rfl : domain = .transformed := image.domain
  rw [ResiduePoly.toTransformed, original.domain]
  dsimp only
  rw [forward, original.size]

end SecretKey

namespace Plaintext

theorem wellFormed_padded {context : Context} (lawful : context.Lawful) {values : List UInt64}
    (fits : values.length ≤ context.dimension) (length : Nat) :
    (⟨context, padded context values, length⟩ : Plaintext).WellFormed := by
  refine ⟨SecretKey.length_padded fits, ?_⟩
  intro value member
  exact UInt64.lt_iff_toNat_lt.mpr (SecretKey.padded_reduced lawful values value member)

theorem wellFormed_empty {context : Context} (lawful : context.Lawful) :
    (empty context).WellFormed :=
  have none : ([] : List UInt64).length ≤ context.dimension := Nat.zero_le _
  wellFormed_padded lawful none 0

theorem ofValues_eq_ok {context : Context} {values : List UInt64} {plaintext : Plaintext}
    (made : ofValues context values = .ok plaintext) :
    values.length ≤ context.dimension ∧
      ⟨context, padded context values, values.length⟩ = plaintext := by
  rw [ofValues, ite_error_eq_ok_iff, Nat.not_lt, Except.ok.injEq] at made
  exact made

end Plaintext

/-! ## Operations on objects -/

namespace SecretKey

variable {context : Context} (lawful : context.Lawful) {key : SecretKey}
  (belongs : key.Belongs context)
include lawful belongs

/-- What the first phase gives belongs to the context of the key, if the public polynomial belongs
to a context of the same ring whenever its fingerprint is that of the key. -/
theorem belongs_of_preprocess {a : PublicPoly}
    (sameRing : a.context.fingerprint = context.fingerprint → Context.SameRing a.context context)
    (publicBelongs : a.poly.Belongs a.context .transformed) {draw : Draw PartialCiphertext}
    (accepted : key.preprocess a = .ok draw) (stream : Stream) :
    (draw.run stream).1.context = context ∧
      (draw.run stream).1.poly.Belongs context .coefficient := by
  obtain ⟨_, checked, result⟩ := bind_eq_ok_iff.mp accepted
  obtain ⟨_, same, _⟩ := bind_eq_ok_iff.mp checked
  cases result
  rw [belongs.bound, Context.checkFingerprint_eq_ok_iff] at same
  obtain ⟨many, _⟩ := samples_spec lawful context.dimension stream
  refine ⟨belongs.bound, ?_⟩
  have made := belongs_preprocessWith lawful belongs (publicBelongs.transfer (sameRing same)) many
  rw [← belongs.bound] at made ⊢
  exact made

/-- What the second phase gives belongs to the context of the key, if the plaintext and the partial
ciphertext belong to contexts of the same ring whenever their fingerprints are that of the key. -/
theorem belongs_of_finalize {plaintext : Plaintext} {part : PartialCiphertext}
    (plaintextRing : plaintext.context.fingerprint = context.fingerprint →
      Context.SameRing plaintext.context context)
    (wellFormed : plaintext.WellFormed)
    (partRing : part.context.fingerprint = context.fingerprint →
      Context.SameRing part.context context)
    (partBelongs : part.poly.Belongs part.context .coefficient) {ciphertext : Ciphertext}
    (accepted : key.finalize plaintext part = .ok ciphertext) : ciphertext.Belongs context := by
  obtain ⟨_, plaintextSame, accepted⟩ := bind_eq_ok_iff.mp accepted
  obtain ⟨_, partSame, result⟩ := bind_eq_ok_iff.mp accepted
  cases result
  rw [belongs.bound, Context.checkFingerprint_eq_ok_iff] at plaintextSame partSame
  have many : plaintext.values.length = context.dimension := by
    rw [wellFormed.length, (plaintextRing plaintextSame).dimension]
  rw [belongs.bound]
  exact Ciphertext.belongs_ofPoly
    (belongs_addScaled lawful (partBelongs.transfer (partRing partSame)) many)

theorem belongs_of_encryptPreprocessed {values : List UInt64} {part : PartialCiphertext}
    (partRing : part.context.fingerprint = context.fingerprint →
      Context.SameRing part.context context)
    (partBelongs : part.poly.Belongs part.context .coefficient) {ciphertext : Ciphertext}
    (accepted : key.encryptPreprocessed values part = .ok ciphertext) :
    ciphertext.Belongs context := by
  obtain ⟨plaintext, made, second⟩ := bind_eq_ok_iff.mp accepted
  obtain ⟨whole, finalized, last⟩ := bind_eq_ok_iff.mp second
  rw [belongs.bound] at made
  obtain ⟨fits, rfl⟩ := Plaintext.ofValues_eq_ok made
  have wholeBelongs := belongs_of_finalize lawful belongs (fun _ => Context.SameRing.refl context)
    (Plaintext.wellFormed_padded lawful fits _) partRing partBelongs finalized
  split at last
  next => exact wholeBelongs.of_truncate last
  next =>
    cases last
    exact wholeBelongs

end SecretKey

/-! ## Sessions -/

namespace Session

/-- What holds of the objects of a session under the given contexts. -/
structure WellFormed (contexts : List Context) (session : Session) : Prop where
  keys : ∀ key ∈ session.keys, key.context ∈ contexts ∧ key.WellFormed
  publics : ∀ a ∈ session.publics, a.context ∈ contexts ∧ a.poly.Belongs a.context .transformed
  plaintexts : ∀ plaintext ∈ session.plaintexts,
    plaintext.context ∈ contexts ∧ plaintext.WellFormed
  parts : ∀ part ∈ session.parts,
    part.context ∈ contexts ∧ part.poly.Belongs part.context .coefficient
  ciphertexts : ∀ ciphertext ∈ session.ciphertexts,
    ciphertext.context ∈ contexts ∧ ciphertext.Belongs ciphertext.context

theorem mem_of_find {α : Type} {objects : List α} {number : Nat} {object : α}
    (found : find objects number = .ok object) : object ∈ objects := by
  unfold find at found
  split at found
  next present =>
    cases found
    exact List.mem_of_getElem? present
  next => cases found

theorem attempt_eq_ok_iff {α : Type} {outcome : Except Failure α} {result : α} :
    attempt outcome = .ok result ↔ outcome = .ok result := by
  cases outcome with
  | ok found => simp [attempt]
  | error failure => simp [attempt]

theorem set_of_present {α : Type} {objects : List α} {number : Nat} {object : α}
    (present : objects[number]? = some object) : objects.set number object = objects := by
  obtain ⟨_, rfl⟩ := List.getElem?_eq_some_iff.mp present
  exact List.set_getElem_self _

theorem member_of_belongs {contexts : List Context} {context : Context}
    (member : context ∈ contexts) {ciphertext : Ciphertext}
    (belongs : ciphertext.Belongs context) :
    ciphertext.context ∈ contexts ∧ ciphertext.Belongs ciphertext.context := by
  obtain rfl : ciphertext.context = context := belongs.bound
  exact ⟨member, belongs⟩

section Lists

variable {α : Type} {holds : α → Prop} {objects : List α} {object : α}
  (all : ∀ other ∈ objects, holds other) (here : holds object)
include all here

theorem forall_mem_concat : ∀ other ∈ objects ++ [object], holds other := by
  intro other member
  rcases List.mem_append.mp member with earlier | last
  · exact all other earlier
  · rw [List.mem_singleton.mp last]
    exact here

theorem forall_mem_set (number : Nat) : ∀ other ∈ objects.set number object, holds other := by
  intro other member
  rcases List.mem_or_eq_of_mem_set member with earlier | rfl
  · exact all other earlier
  · exact here

end Lists

section Runs

variable {contexts : List Context} (lawful : ∀ context ∈ contexts, context.Lawful)
  (distinguished : Context.Distinguished contexts)
include lawful distinguished

omit distinguished in
theorem wellFormed_loaded {context : Context} (member : context ∈ contexts) {bytes : List UInt8}
    {key : SecretKey} (loaded : SecretKey.load context bytes = .ok key) :
    key.context ∈ contexts ∧ key.WellFormed := by
  have belongs := (SecretKey.Reachable.loaded loaded).belongs (lawful context member)
  refine ⟨?_, SecretKey.wellFormed_of_belongs (lawful context member) belongs⟩
  rw [belongs.bound]
  exact member

/-- What a key of the session makes of a public polynomial of the session is well formed. -/
theorem wellFormed_preprocess {session : Session} (wellFormed : session.WellFormed contexts)
    {key : SecretKey} (keyMember : key ∈ session.keys) {a : PublicPoly}
    (publicMember : a ∈ session.publics) {draw : Draw PartialCiphertext}
    (accepted : key.preprocess a = .ok draw) (stream : Stream) :
    (draw.run stream).1.context ∈ contexts ∧
      (draw.run stream).1.poly.Belongs (draw.run stream).1.context .coefficient := by
  obtain ⟨own, keySpec⟩ := wellFormed.keys key keyMember
  obtain ⟨publicOwn, publicBelongs⟩ := wellFormed.publics a publicMember
  obtain ⟨bound, belongs⟩ := SecretKey.belongs_of_preprocess (lawful _ own) keySpec.belongs
    (distinguished _ publicOwn _ own) publicBelongs accepted stream
  rw [bound]
  exact ⟨own, belongs⟩

/-- What a key of the session makes of a plaintext of the session is well formed. -/
theorem wellFormed_finalize {session : Session} (wellFormed : session.WellFormed contexts)
    {key : SecretKey} (keyMember : key ∈ session.keys) {plaintext : Plaintext}
    (plaintextMember : plaintext ∈ session.plaintexts) {part : PartialCiphertext}
    (partSpec : part.context ∈ contexts ∧ part.poly.Belongs part.context .coefficient)
    {ciphertext : Ciphertext} (accepted : key.finalize plaintext part = .ok ciphertext) :
    ciphertext.context ∈ contexts ∧ ciphertext.Belongs ciphertext.context := by
  obtain ⟨own, keySpec⟩ := wellFormed.keys key keyMember
  obtain ⟨plaintextOwn, plaintextSpec⟩ := wellFormed.plaintexts plaintext plaintextMember
  obtain ⟨partOwn, partBelongs⟩ := partSpec
  exact member_of_belongs own (SecretKey.belongs_of_finalize (lawful _ own) keySpec.belongs
    (distinguished _ plaintextOwn _ own) plaintextSpec (distinguished _ partOwn _ own) partBelongs
    accepted)

/-! ### One operation -/

section Operations

variable {session next : Session} (wellFormed : session.WellFormed contexts)
include wellFormed

omit distinguished in
theorem wellFormed_generateKey {number : Nat} {stream : Stream}
    (done : step contexts session (.generateKey number stream) = .ok next) :
    next.WellFormed contexts := by
  obtain ⟨context, found, result⟩ := bind_eq_ok_iff.mp done
  cases result
  have member := mem_of_find found
  have belongs := (SecretKey.Reachable.generated stream).belongs (lawful context member)
  exact { wellFormed with
    keys := forall_mem_concat wellFormed.keys
      ⟨member, SecretKey.wellFormed_of_belongs (lawful context member) belongs⟩ }

omit distinguished in
theorem wellFormed_loadKey {number : Nat} {bytes : List UInt8}
    (done : step contexts session (.loadKey number bytes) = .ok next) :
    next.WellFormed contexts := by
  obtain ⟨context, found, rest⟩ := bind_eq_ok_iff.mp done
  obtain ⟨key, loaded, result⟩ := bind_eq_ok_iff.mp rest
  cases result
  have spec := wellFormed_loaded lawful (mem_of_find found) (attempt_eq_ok_iff.mp loaded)
  exact { wellFormed with keys := forall_mem_concat wellFormed.keys spec }

omit distinguished in
theorem wellFormed_reloadKey {number : Nat} {bytes : List UInt8}
    (done : step contexts session (.reloadKey number bytes) = .ok next) :
    next.WellFormed contexts := by
  obtain ⟨key, found, rest⟩ := bind_eq_ok_iff.mp done
  obtain ⟨fresh, loaded, result⟩ := bind_eq_ok_iff.mp rest
  cases result
  have own := (wellFormed.keys key (mem_of_find found)).1
  have spec := wellFormed_loaded lawful own (attempt_eq_ok_iff.mp loaded)
  exact { wellFormed with keys := forall_mem_set wellFormed.keys spec number }

omit distinguished in
theorem wellFormed_derivePublic {number : Nat} {seed : Seed}
    (done : step contexts session (.derivePublic number seed) = .ok next) :
    next.WellFormed contexts := by
  obtain ⟨context, found, result⟩ := bind_eq_ok_iff.mp done
  cases result
  have member := mem_of_find found
  exact { wellFormed with
    publics := forall_mem_concat wellFormed.publics
      ⟨member, PublicPoly.belongs_derive (lawful context member) seed⟩ }

omit distinguished in
theorem wellFormed_transposePublic {number : Nat}
    (done : step contexts session (.transposePublic number) = .ok next) :
    next.WellFormed contexts := by
  obtain ⟨a, found, result⟩ := bind_eq_ok_iff.mp done
  cases result
  obtain ⟨own, belongs⟩ := wellFormed.publics a (mem_of_find found)
  have spec : a.transpose.context ∈ contexts ∧
      a.transpose.poly.Belongs a.transpose.context .transformed :=
    ⟨own, PublicPoly.belongs_transpose (lawful _ own) belongs⟩
  exact { wellFormed with publics := forall_mem_set wellFormed.publics spec number }

omit distinguished in
theorem wellFormed_newPlaintext {number : Nat}
    (done : step contexts session (.newPlaintext number) = .ok next) :
    next.WellFormed contexts := by
  obtain ⟨context, found, result⟩ := bind_eq_ok_iff.mp done
  cases result
  have member := mem_of_find found
  exact { wellFormed with
    plaintexts := forall_mem_concat wellFormed.plaintexts
      ⟨member, Plaintext.wellFormed_empty (lawful context member)⟩ }

omit distinguished in
theorem wellFormed_setPlaintext {number : Nat} {values : List UInt64}
    (done : step contexts session (.setPlaintext number values) = .ok next) :
    next.WellFormed contexts := by
  obtain ⟨plaintext, found, rest⟩ := bind_eq_ok_iff.mp done
  obtain ⟨fresh, made, result⟩ := bind_eq_ok_iff.mp rest
  cases result
  have own := (wellFormed.plaintexts plaintext (mem_of_find found)).1
  obtain ⟨fits, same⟩ := Plaintext.ofValues_eq_ok (attempt_eq_ok_iff.mp made)
  have spec : fresh.context ∈ contexts ∧ fresh.WellFormed := by
    rw [← same]
    exact ⟨own, Plaintext.wellFormed_padded (lawful _ own) fits _⟩
  exact { wellFormed with plaintexts := forall_mem_set wellFormed.plaintexts spec number }

theorem wellFormed_partial {key a : Nat} {stream : Stream}
    (done : step contexts session (.preprocess key a stream) = .ok next) :
    next.WellFormed contexts := by
  obtain ⟨key, keyFound, rest⟩ := bind_eq_ok_iff.mp done
  obtain ⟨a, publicFound, rest⟩ := bind_eq_ok_iff.mp rest
  obtain ⟨draw, accepted, result⟩ := bind_eq_ok_iff.mp rest
  cases result
  have spec := wellFormed_preprocess lawful distinguished wellFormed (mem_of_find keyFound)
    (mem_of_find publicFound) (attempt_eq_ok_iff.mp accepted) stream
  exact { wellFormed with parts := forall_mem_concat wellFormed.parts spec }

theorem wellFormed_finalized {key plaintext part : Nat}
    (done : step contexts session (.finalize key plaintext part) = .ok next) :
    next.WellFormed contexts := by
  obtain ⟨key, keyFound, rest⟩ := bind_eq_ok_iff.mp done
  obtain ⟨plaintext, plaintextFound, rest⟩ := bind_eq_ok_iff.mp rest
  obtain ⟨part, partFound, rest⟩ := bind_eq_ok_iff.mp rest
  obtain ⟨ciphertext, accepted, result⟩ := bind_eq_ok_iff.mp rest
  cases result
  have spec := wellFormed_finalize lawful distinguished wellFormed (mem_of_find keyFound)
    (mem_of_find plaintextFound) (wellFormed.parts part (mem_of_find partFound))
    (attempt_eq_ok_iff.mp accepted)
  exact { wellFormed with ciphertexts := forall_mem_concat wellFormed.ciphertexts spec }

theorem wellFormed_encryptPreprocessed {key part : Nat} {values : List UInt64}
    (done : step contexts session (.encryptPreprocessed key values part) = .ok next) :
    next.WellFormed contexts := by
  obtain ⟨key, keyFound, rest⟩ := bind_eq_ok_iff.mp done
  obtain ⟨part, partFound, rest⟩ := bind_eq_ok_iff.mp rest
  obtain ⟨ciphertext, accepted, result⟩ := bind_eq_ok_iff.mp rest
  cases result
  obtain ⟨own, keySpec⟩ := wellFormed.keys key (mem_of_find keyFound)
  obtain ⟨partOwn, partBelongs⟩ := wellFormed.parts part (mem_of_find partFound)
  have belongs := SecretKey.belongs_of_encryptPreprocessed (lawful _ own) keySpec.belongs
    (distinguished _ partOwn _ own) partBelongs (attempt_eq_ok_iff.mp accepted)
  exact { wellFormed with
    ciphertexts := forall_mem_concat wellFormed.ciphertexts (member_of_belongs own belongs) }

theorem wellFormed_encrypt {key plaintext a : Nat} {stream : Stream}
    (done : step contexts session (.encrypt key plaintext a stream) = .ok next) :
    next.WellFormed contexts := by
  obtain ⟨key, keyFound, rest⟩ := bind_eq_ok_iff.mp done
  obtain ⟨plaintext, plaintextFound, rest⟩ := bind_eq_ok_iff.mp rest
  obtain ⟨a, publicFound, rest⟩ := bind_eq_ok_iff.mp rest
  obtain ⟨draw, accepted, rest⟩ := bind_eq_ok_iff.mp rest
  obtain ⟨ciphertext, finalized, result⟩ := bind_eq_ok_iff.mp rest
  cases result
  obtain ⟨first, preprocessed, second⟩ := bind_eq_ok_iff.mp (attempt_eq_ok_iff.mp accepted)
  cases second
  have partSpec := wellFormed_preprocess lawful distinguished wellFormed (mem_of_find keyFound)
    (mem_of_find publicFound) preprocessed stream
  have spec := wellFormed_finalize lawful distinguished wellFormed (mem_of_find keyFound)
    (mem_of_find plaintextFound) partSpec (attempt_eq_ok_iff.mp finalized)
  exact { wellFormed with ciphertexts := forall_mem_concat wellFormed.ciphertexts spec }

omit lawful distinguished in
theorem wellFormed_loadCiphertext {number : Nat} {bytes : List UInt8}
    (done : step contexts session (.loadCiphertext number bytes) = .ok next) :
    next.WellFormed contexts := by
  obtain ⟨context, found, rest⟩ := bind_eq_ok_iff.mp done
  obtain ⟨ciphertext, loaded, result⟩ := bind_eq_ok_iff.mp rest
  cases result
  have belongs := Ciphertext.belongs_of_load (attempt_eq_ok_iff.mp loaded)
  exact { wellFormed with
    ciphertexts := forall_mem_concat wellFormed.ciphertexts
      (member_of_belongs (mem_of_find found) belongs) }

omit lawful distinguished in
theorem wellFormed_loadData {number : Nat} {bytes : List UInt8}
    (done : step contexts session (.loadData number bytes) = .ok next) :
    next.WellFormed contexts := by
  obtain ⟨context, found, rest⟩ := bind_eq_ok_iff.mp done
  obtain ⟨ciphertext, loaded, result⟩ := bind_eq_ok_iff.mp rest
  cases result
  have belongs := Ciphertext.belongs_of_loadData (attempt_eq_ok_iff.mp loaded)
  exact { wellFormed with
    ciphertexts := forall_mem_concat wellFormed.ciphertexts
      (member_of_belongs (mem_of_find found) belongs) }

omit lawful distinguished in
theorem wellFormed_truncate {number count : Nat}
    (done : step contexts session (.truncate number count) = .ok next) :
    next.WellFormed contexts := by
  obtain ⟨ciphertext, found, rest⟩ := bind_eq_ok_iff.mp done
  obtain ⟨shorter, truncated, result⟩ := bind_eq_ok_iff.mp rest
  cases result
  obtain ⟨own, belongs⟩ := wellFormed.ciphertexts ciphertext (mem_of_find found)
  have shorterBelongs := belongs.of_truncate (attempt_eq_ok_iff.mp truncated)
  exact { wellFormed with
    ciphertexts := forall_mem_set wellFormed.ciphertexts (member_of_belongs own shorterBelongs)
      number }

/-- An operation that succeeds keeps the objects of a session well formed. -/
theorem wellFormed_step {operation : Operation}
    (done : step contexts session operation = .ok next) : next.WellFormed contexts := by
  cases operation with
  | generateKey => exact wellFormed_generateKey lawful wellFormed done
  | loadKey => exact wellFormed_loadKey lawful wellFormed done
  | reloadKey => exact wellFormed_reloadKey lawful wellFormed done
  | derivePublic => exact wellFormed_derivePublic lawful wellFormed done
  | transposePublic => exact wellFormed_transposePublic lawful wellFormed done
  | newPlaintext => exact wellFormed_newPlaintext lawful wellFormed done
  | setPlaintext => exact wellFormed_setPlaintext lawful wellFormed done
  | preprocess => exact wellFormed_partial lawful distinguished wellFormed done
  | finalize => exact wellFormed_finalized lawful distinguished wellFormed done
  | encryptPreprocessed =>
    exact wellFormed_encryptPreprocessed lawful distinguished wellFormed done
  | encrypt => exact wellFormed_encrypt lawful distinguished wellFormed done
  | loadCiphertext => exact wellFormed_loadCiphertext wellFormed done
  | loadData => exact wellFormed_loadData wellFormed done
  | truncate => exact wellFormed_truncate wellFormed done

end Operations

/-! ### Every operation -/

theorem wellFormed_perform {session : Session} (wellFormed : session.WellFormed contexts)
    (operation : Operation) : (perform contexts session operation).WellFormed contexts := by
  unfold perform
  split
  next next done => exact wellFormed_step lawful distinguished wellFormed done
  next => exact wellFormed

/-- The objects of every session that operations reach are well formed. -/
theorem wellFormed_reached (operations : List Operation) :
    (reached contexts operations).WellFormed contexts := by
  have start : empty.WellFormed contexts := by
    constructor <;> exact List.forall_mem_nil _
  exact List.foldlRecOn operations (perform contexts) start fun session wellFormed operation _ =>
    wellFormed_perform lawful distinguished wellFormed operation

end Runs

/-! ## Sessions with ciphertexts -/

theorem perform_eq_of_step {contexts : List Context} {session next : Session}
    {operation : Operation} (done : step contexts session operation = .ok next) :
    perform contexts session operation = next := by
  rw [perform, done]

/-- A key and a derived public polynomial of a session encrypt values that fit the ring. -/
theorem exists_encrypted {context : Context} (lawful : context.Lawful) {key : SecretKey}
    (belongs : key.Belongs context) (seed : Seed) (plaintexts : List Plaintext) (noise : Stream)
    {values : List UInt64} (fits : values.length ≤ context.dimension) :
    ∃ part ciphertext,
      [.preprocess 0 0 noise, .encryptPreprocessed 0 values 0].foldl (perform [context])
          ⟨[key], [PublicPoly.derive context seed], plaintexts, [], []⟩ =
        ⟨[key], [PublicPoly.derive context seed], plaintexts, [part], [ciphertext]⟩ ∧
      ciphertext.context = context ∧ ciphertext.count = values.length := by
  obtain ⟨draw, accepted, drawn⟩ := SecretKey.preprocess_spec lawful belongs
    (rfl : (PublicPoly.derive context seed).context.fingerprint = _) rfl
  obtain ⟨_, _, _, many, _, made⟩ := drawn noise
  obtain ⟨_, ciphertext, encrypted, own, counted, _⟩ :=
    SecretKey.encryption_spec lawful belongs (PublicPoly.belongs_derive lawful seed) many fits
  generalize PublicPoly.derive context seed = a at *
  have prepared : step [context] ⟨[key], [a], plaintexts, [], []⟩ (.preprocess 0 0 noise) =
      .ok ⟨[key], [a], plaintexts, [(draw.run noise).1], []⟩ := by
    change attempt (key.preprocess a) >>= _ = _
    rw [accepted]
    rfl
  have finished : step [context] ⟨[key], [a], plaintexts, [(draw.run noise).1], []⟩
      (.encryptPreprocessed 0 values 0) =
      .ok ⟨[key], [a], plaintexts, [(draw.run noise).1], [ciphertext]⟩ := by
    change attempt (key.encryptPreprocessed _ (draw.run noise).1) >>= _ = _
    rw [made, encrypted]
    rfl
  refine ⟨(draw.run noise).1, ciphertext, ?_, own.bound, counted⟩
  rw [List.foldl_cons, perform_eq_of_step prepared, List.foldl_cons, perform_eq_of_step finished,
    List.foldl_nil]

/-- A context has ciphertexts with every number of coefficients up to its dimension: those of as
many zeros, under a fresh key and a fresh public polynomial. -/
theorem exists_reached_ciphertext {context : Context} (lawful : context.Lawful) {count : Nat}
    (fits : count ≤ context.dimension) (stream noise : Stream) (seed : Seed) :
    ∃ ciphertext, (reached [context] [.generateKey 0 stream, .derivePublic 0 seed,
        .preprocess 0 0 noise, .encryptPreprocessed 0 (List.replicate count 0) 0]).ciphertexts =
          [ciphertext] ∧ ciphertext.context = context ∧ ciphertext.count = count := by
  have belongs := (SecretKey.Reachable.generated stream).belongs lawful
  have enough : (List.replicate count (0 : UInt64)).length ≤ context.dimension := by
    rwa [List.length_replicate]
  obtain ⟨part, ciphertext, held, own, counted⟩ :=
    exists_encrypted lawful belongs seed [] noise enough
  exact ⟨ciphertext, congrArg ciphertexts held, own, counted.trans List.length_replicate⟩

/-- With the preset of 32 bits there is a ciphertext of five coefficients. -/
theorem exists_reached_preset : ∃ context,
    Context.ofParameters (Parameters.preset .bits32) = .ok context ∧
      ∃ ciphertext, (reached [context] [.generateKey 0 (Stream.ofSeed 1),
          .derivePublic 0 (Vector.replicate 8 0), .preprocess 0 0 (Stream.ofSeed 2),
          .encryptPreprocessed 0 (List.replicate 5 0) 0]).ciphertexts = [ciphertext] ∧
        ciphertext.context = context ∧ ciphertext.count = 5 := by
  obtain ⟨context, built⟩ := Context.exists_preset .bits32
  have fits : 5 ≤ context.dimension := by
    rw [(Context.preset_spec built).1]
    decide
  exact ⟨context, built, exists_reached_ciphertext (Context.lawful_of_ofParameters built) fits
    (Stream.ofSeed 1) (Stream.ofSeed 2) (Vector.replicate 8 0)⟩

/-! ## Runs under contexts that were built -/

theorem lawful_of_built {contexts : List Context}
    (built : ∀ context ∈ contexts, ∃ parameters, Context.ofParameters parameters = .ok context) :
    ∀ context ∈ contexts, context.Lawful := by
  intro context member
  obtain ⟨parameters, made⟩ := built context member
  exact Context.lawful_of_ofParameters made

end Session

end RingLwe
