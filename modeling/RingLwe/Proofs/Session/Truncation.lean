import RingLwe.Proofs.Ciphertext.Truncation
import RingLwe.Proofs.Encryption.Decryption
import RingLwe.Proofs.Extraction

/-!
# What truncation does to answers

A truncated ciphertext answers as the whole one does, with the answer cut to the
coefficients that were kept: for decryption (`SecretKey.decrypt_truncate`) and
for extraction (`Extraction.ciphertext_truncate`).

In a session, one truncation replaces the ciphertext by one with the smaller of
the two numbers of coefficients, also when it is refused
(`Session.perform_truncate`), so a sequence of truncations leaves the smallest of
all numbers (`Session.foldl_truncate`).
-/

set_option autoImplicit false

namespace RingLwe

/-! ## Answers -/

section Answers

variable {context : Context} {ciphertext shorter : Ciphertext}
  (belongs : ciphertext.Belongs context) {kept : Nat}
  (truncated : ciphertext.truncate kept = .ok shorter)
include belongs truncated

/-- The phases of a truncated ciphertext are the first ones. -/
theorem SecretKey.phases_truncate (key : SecretKey) (a : PublicPoly)
    (primes : context.primeCount = key.context.primeCount) :
    key.phases a shorter = (key.phases a ciphertext).take kept := by
  obtain ⟨enough, spec⟩ := (Ciphertext.truncate_eq_ok_iff belongs).mp truncated
  have runs := Ciphertext.components_truncate belongs truncated
  rw [primes] at runs
  have differences : ∀ (product : List (List UInt64)) (moduli : List UInt64),
      List.zipWith
        (fun q (pair : List UInt64 × List UInt64) => List.zipWith (Residue.sub · · q) pair.1 pair.2)
        moduli ((components kept key.context.primeCount shorter.residues).zip product) =
      (List.zipWith
        (fun q (pair : List UInt64 × List UInt64) => List.zipWith (Residue.sub · · q) pair.1 pair.2)
        moduli ((components ciphertext.count key.context.primeCount ciphertext.residues).zip
          product)).map (·.take kept) := by
    intro product moduli
    rw [runs, List.zip_map_left, List.zipWith_map_right, List.map_zipWith]
    simp only [Prod.map_fst, Prod.map_snd, id_eq, zipWith_take_left]
  rw [phases, phases, spec.count]
  simp only [differences]
  rw [columns_map_take (Nat.le_refl kept), columns_of_le enough]

/-- Decryption of a truncated ciphertext gives the first values, or is refused for the same reason. -/
theorem SecretKey.decrypt_truncate (key : SecretKey) (a : PublicPoly)
    (primes : context.fingerprint = key.context.fingerprint →
      context.primeCount = key.context.primeCount) :
    key.decrypt a shorter = (key.decrypt a ciphertext).map (·.take kept) := by
  obtain ⟨_, spec⟩ := (Ciphertext.truncate_eq_ok_iff belongs).mp truncated
  rw [decrypt, decrypt, spec.context, belongs.bound]
  cases key.checkPublic a with
  | error failure => rfl
  | ok _ =>
    rw [ok_bind, ok_bind, Context.checkFingerprint]
    split
    next same =>
      rw [phases_truncate belongs truncated key a (primes same), List.map_take]
      rfl
    next => rfl

end Answers

/-- The data of a truncated ciphertext extract to the first words of the whole one. -/
theorem Extraction.ciphertext_truncate {context other : Context} (lawful : context.Lawful)
    (same : Context.SameRing other context) {width : Width} {tables : SwitchTables}
    (prepared : context.switchTables width = .ok tables) {ciphertext shorter : Ciphertext}
    (belongs : ciphertext.Belongs other) {kept : Nat}
    (truncated : ciphertext.truncate kept = .ok shorter) :
    ∃ words, Extraction.ciphertext context ciphertext.dataBytes ciphertext.count width = .ok words ∧
      words.length = ciphertext.count ∧
      ∀ samples ≤ kept, Extraction.ciphertext context shorter.dataBytes samples width =
        .ok (words.take samples) := by
  obtain ⟨enough, spec⟩ := (Ciphertext.truncate_eq_ok_iff belongs).mp truncated
  refine ⟨_, ciphertext_eq_ok lawful same prepared belongs, ?_, fun samples few => ?_⟩
  · rw [List.length_map, List.length_range]
  · have fits : samples ≤ shorter.count := spec.count.symm ▸ few
    rw [ciphertext_of_le lawful same prepared (belongs.of_truncate truncated) fits, ← List.map_take,
      List.take_range, Nat.min_eq_left (Nat.le_trans few enough)]
    congr 1
    refine List.map_congr_left fun position inside => ?_
    have short : position < kept := Nat.lt_of_lt_of_le (List.mem_range.mp inside) few
    congr 1
    refine List.map_congr_left fun index present => ?_
    have within : index < ciphertext.context.primeCount := by
      rw [belongs.bound, same.primeCount]
      exact List.mem_range.mp present
    rw [spec.count, List.getD_eq_getElem?_getD, spec.residues index position within short,
      ← List.getD_eq_getElem?_getD]

namespace Session

/-! ## Sessions -/

section Steps

variable (contexts : List Context) {session : Session} {number : Nat} {ciphertext : Ciphertext}
  (present : session.ciphertexts[number]? = some ciphertext)
include present

/-- A truncation replaces the ciphertext by one with the smaller of the two numbers of coefficients;
when it is refused, that is the ciphertext itself. -/
theorem perform_truncate {context : Context} (belongs : ciphertext.Belongs context) (kept : Nat) :
    ∃ shorter, ciphertext.truncate (min ciphertext.count kept) = .ok shorter ∧
      perform contexts session (.truncate number kept) =
        { session with ciphertexts := session.ciphertexts.set number shorter } := by
  have found : find session.ciphertexts number = .ok ciphertext := by
    rw [find, present]
  have performed : step contexts session (.truncate number kept) =
      attempt (ciphertext.truncate kept) >>= fun shorter =>
        .ok { session with ciphertexts := session.ciphertexts.set number shorter } := by
    rw [step, found]
    rfl
  rw [perform, performed]
  by_cases enough : kept ≤ ciphertext.count
  · obtain ⟨shorter, truncated, _⟩ := belongs.exists_truncated enough
    rw [Nat.min_eq_right enough, truncated]
    exact ⟨shorter, rfl, rfl⟩
  · have few : ciphertext.count < kept := Nat.lt_of_not_le enough
    rw [Nat.min_eq_left (Nat.le_of_lt few), Ciphertext.truncate_self belongs]
    refine ⟨ciphertext, rfl, ?_⟩
    rw [set_of_present present, Ciphertext.truncate, if_pos few]
    rfl

/-- A sequence of truncations leaves the smallest number of coefficients. -/
theorem foldl_truncate {context : Context} (belongs : ciphertext.Belongs context)
    (counts : List Nat) :
    ∃ final, ciphertext.truncate (counts.foldl min ciphertext.count) = .ok final ∧
      (counts.map (Operation.truncate number)).foldl (perform contexts) session =
        { session with ciphertexts := session.ciphertexts.set number final } := by
  induction counts generalizing session ciphertext with
  | nil =>
    refine ⟨ciphertext, Ciphertext.truncate_self belongs, ?_⟩
    rw [set_of_present present]
    rfl
  | cons kept counts ih =>
    obtain ⟨shorter, truncated, performed⟩ := perform_truncate contexts present belongs kept
    have shorterBelongs := belongs.of_truncate truncated
    have count := ((Ciphertext.truncate_eq_ok_iff belongs).mp truncated).2.count
    obtain ⟨inside, _⟩ := List.getElem?_eq_some_iff.mp present
    have replaced : ({ session with ciphertexts := session.ciphertexts.set number shorter } :
        Session).ciphertexts[number]? = some shorter := List.getElem?_set_self inside
    obtain ⟨final, again, rest⟩ := ih replaced shorterBelongs
    have fewer := ((Ciphertext.truncate_eq_ok_iff shorterBelongs).mp again).1
    rw [count] at again fewer
    refine ⟨final, ?_, ?_⟩
    · rw [List.foldl_cons, ← again, Ciphertext.truncate_truncate belongs truncated fewer]
    · rw [List.map_cons, List.foldl_cons, performed, rest, List.set_set]

end Steps

/-- Whether the session answers for a truncated ciphertext as for the whole one, with the answers cut
to the coefficients that were kept. -/
structure AnswersCut (contexts : List Context) (session : Session) (ciphertext : Ciphertext)
    (kept : Nat) (shorter : Ciphertext) : Prop where
  decrypt : ∀ key ∈ session.keys, ∀ a,
    key.decrypt a shorter = (key.decrypt a ciphertext).map (·.take kept)
  extract : ∀ context ∈ contexts, context.fingerprint = ciphertext.context.fingerprint →
    ∀ width tables, context.switchTables width = .ok tables →
      ∃ words : List (LweWord width),
        Extraction.ciphertext context ciphertext.dataBytes ciphertext.count width = .ok words ∧
          words.length = ciphertext.count ∧
          ∀ samples ≤ kept,
            Extraction.ciphertext context shorter.dataBytes samples width = .ok (words.take samples)

/-- Truncation of a ciphertext that operations have made under contexts that were built.  The moves
inside the buffer give the truncated ciphertext.  More coefficients than there are make it fail, and
nothing changes; otherwise each kept residue is the one at its position, nothing else remains, only
this ciphertext changes, and all answers are cut.  Truncations that succeed in sequence are one
truncation to the last number, which is the smallest, and a sequence in which some are refused is one
to the smallest number. -/
theorem reached_truncates {contexts : List Context}
    (built : ∀ context ∈ contexts, ∃ parameters, Context.ofParameters parameters = .ok context)
    (distinguished : Context.Distinguished contexts) (operations : List Operation) {number : Nat}
    {ciphertext : Ciphertext}
    (present : (reached contexts operations).ciphertexts[number]? = some ciphertext) :
    (∀ kept, ciphertext.truncateInPlace? kept = some (ciphertext.truncate kept)) ∧
    (∀ kept, ciphertext.count < kept →
      ciphertext.truncate kept = .error (.truncationOutOfRange kept ciphertext.count) ∧
        reached contexts (operations ++ [.truncate number kept]) = reached contexts operations) ∧
    (∀ kept ≤ ciphertext.count, ∃ shorter, ciphertext.truncate kept = .ok shorter ∧
      ciphertext.Truncated kept shorter ∧
      reached contexts (operations ++ [.truncate number kept]) =
        { reached contexts operations with
          ciphertexts := (reached contexts operations).ciphertexts.set number shorter } ∧
      AnswersCut contexts (reached contexts operations) ciphertext kept shorter) ∧
    (∀ counts final, ciphertext.truncateAll counts = .ok final ↔
      (ciphertext.count :: counts).Pairwise (· ≥ ·) ∧
        ciphertext.truncate (counts.getLastD ciphertext.count) = .ok final) ∧
    ∀ counts : List Nat, ∃ final, ciphertext.truncate (counts.foldl min ciphertext.count) = .ok final ∧
      reached contexts (operations ++ counts.map (.truncate number)) =
        { reached contexts operations with
          ciphertexts := (reached contexts operations).ciphertexts.set number final } := by
  have lawful := lawful_of_built built
  have wellFormed := wellFormed_reached lawful distinguished operations
  obtain ⟨own, belongs⟩ := wellFormed.ciphertexts ciphertext (List.mem_of_getElem? present)
  have replaced := perform_truncate contexts present belongs
  have last : ∀ kept, reached contexts (operations ++ [.truncate number kept]) =
      perform contexts (reached contexts operations) (.truncate number kept) := by
    intro kept
    rw [reached, List.foldl_append]
    rfl
  refine ⟨Ciphertext.truncateInPlace?_eq belongs, ?_, ?_,
    fun _ _ => Ciphertext.truncateAll_eq_ok_iff belongs, ?_⟩
  · intro kept few
    obtain ⟨shorter, truncated, performed⟩ := replaced kept
    rw [Nat.min_eq_left (Nat.le_of_lt few), Ciphertext.truncate_self belongs] at truncated
    cases truncated
    rw [last, performed, set_of_present present]
    exact ⟨if_pos few, rfl⟩
  · intro kept enough
    obtain ⟨shorter, truncated, performed⟩ := replaced kept
    rw [Nat.min_eq_right enough] at truncated
    refine ⟨shorter, truncated, ((Ciphertext.truncate_eq_ok_iff belongs).mp truncated).2,
      (last kept).trans performed, ?_, ?_⟩
    · intro key member a
      have keyOwn := (wellFormed.keys key member).1
      exact SecretKey.decrypt_truncate belongs truncated key a
        fun same => (distinguished _ own _ keyOwn same).primeCount
    · intro context member same width tables prepared
      exact Extraction.ciphertext_truncate (lawful context member)
        (distinguished _ own _ member same.symm) prepared belongs truncated
  · intro counts
    rw [reached, List.foldl_append]
    exact foldl_truncate contexts present belongs counts

/-- With the preset of 32 bits, a ciphertext of five coefficients is not truncated to six, and
truncated to two it extracts to the first two of its words. -/
theorem reached_truncates_preset : ∃ context,
    Context.ofParameters (Parameters.preset .bits32) = .ok context ∧
      ∃ ciphertext, (reached [context] [.generateKey 0 (Stream.ofSeed 1),
          .derivePublic 0 (Vector.replicate 8 0), .preprocess 0 0 (Stream.ofSeed 2),
          .encryptPreprocessed 0 (List.replicate 5 0) 0]).ciphertexts = [ciphertext] ∧
        ciphertext.truncate 6 = .error (.truncationOutOfRange 6 5) ∧
        ∃ shorter, ciphertext.truncate 2 = .ok shorter ∧ ciphertext.Truncated 2 shorter ∧
          ∃ words : List (LweWord .bits32), words.length = 5 ∧
            Extraction.ciphertext context ciphertext.dataBytes 5 .bits32 = .ok words ∧
            Extraction.ciphertext context shorter.dataBytes 2 .bits32 = .ok (words.take 2) := by
  obtain ⟨context, built, ciphertext, made, own, count⟩ := exists_reached_preset
  have present := congrArg (fun objects => objects[0]?) made
  obtain ⟨_, refused, accepted, _⟩ := reached_truncates (List.forall_mem_singleton.mpr ⟨_, built⟩)
    (Context.distinguished_singleton context) _ present
  have failed := (refused 6 (by rw [count]; decide)).1
  rw [count] at failed
  obtain ⟨shorter, truncated, spec, _, answers⟩ := accepted 2 (by rw [count]; decide)
  obtain ⟨words, whole, length, cut⟩ := answers.extract context (List.mem_singleton_self _)
    (by rw [own]) .bits32 _ (Context.switchTables_preset built)
  rw [count] at whole length
  exact ⟨context, built, ciphertext, made, failed, shorter, truncated, spec, words, length, whole,
    cut 2 (Nat.le_refl _)⟩

end Session

end RingLwe
