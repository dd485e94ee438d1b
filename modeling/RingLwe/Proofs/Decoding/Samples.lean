import RingLwe.Proofs.Encryption
import RingLwe.Proofs.Extraction
import RingLwe.Proofs.Hint

/-!
# What switched words represent

A switched word represents integers, one for each prime, when it is the rounded
switch of a number that has their residues (`Represents`).  The words of a hint
represent the products of the matrix with the columns of the stacked matrices
(`represents_schoolbook`).  The words of messages that are encrypted and extracted
block by block represent the products of the rows of the stacked matrices with
the secret, with the noise and the scaled messages (`encryptBlocks_spec`).
-/

set_option autoImplicit false

namespace RingLwe

open Residue

/-- Whether a word is the rounded switch of a number that has, modulo every prime, the residue of
the integer that is given for the prime. -/
def Represents (context : Context) {width : Width} (value : Nat → Int) (word : LweWord width) :
    Prop :=
  ∃ number : Nat, Switching.WithinRounding context number word ∧
    ∀ index q, context.moduli[index]? = some q → (number : ZMod q.toNat) = (value index : ZMod q.toNat)

/-- Residues switch to a word that represents their integers. -/
theorem represents_switch {context : Context} (lawful : context.Lawful) {width : Width}
    {residues : List UInt64} (full : residues.length = context.primeCount) {value : Nat → Int}
    (classes : ∀ index q, context.moduli[index]? = some q →
      classOf q (residues.getD index 0) = (value index : ZMod q.toNat)) :
    Represents context value
      ((SwitchTables.ofBasis width context.basis).switch width residues) := by
  refine ⟨context.basis.compose residues, lawful.basis_sound.switch_near full,
    fun index q present => ?_⟩
  rw [← classes index q present]
  exact (ZMod.natCast_eq_natCast_iff _ _ _).mpr
    (lawful.basis_sound.compose_modEq_getD full present)

/-! ## Hints -/

/-- The word of a hint at a column represents the products with that column. -/
theorem Hint.represents_schoolbook {context : Context} (lawful : context.Lawful) (width : Width)
    (matrix : List UInt32) (columns : Nat) (seeds : List Seed) (row column : Nat) :
    Represents context (productEntry context matrix columns seeds row column)
      ((SwitchTables.ofBasis width context.basis).switch width
        (schoolbook context matrix columns seeds row column)) := by
  refine represents_switch lawful ?_ fun index q present => ?_
  · rw [schoolbook, List.length_map, List.length_zipIdx, Context.Lawful.length_moduli]
  · have residue : (schoolbook context matrix columns seeds row column)[index]? =
        some (ofInt (productEntry context matrix columns seeds row column index) q) := by
      rw [schoolbook, List.getElem?_map, List.getElem?_zipIdx, present, Nat.zero_add]
      rfl
    rw [List.getD_eq_getElem?_getD, residue, Option.getD_some,
      classOf_ofInt (lawful.prime (List.mem_of_getElem? present)).pos]

/-! ## Ciphertexts -/

section Block

/-- What a coefficient of a block stands for modulo the prime of the given number: the product of a
row of the matrix of the public polynomial with the secret, the noise and the scaled value. -/
def blockValue (context : Context) (signed : List Int) (seed : Seed) (noise : List Int)
    (values : List UInt64) (position index : Nat) : Int :=
  ∑ column ∈ Finset.range context.dimension,
      Negacyclic.entry context.dimension (Hint.seedCoefficients context seed index) position column *
        signed.getD column 0 +
    noise.getD position 0 +
    context.scaled (values.getD position 0 % context.plaintextModulus).toNat

variable {context other : Context} (lawful : context.Lawful) (otherLawful : other.Lawful)
  (same : Context.SameRing other context) {key : SecretKey} (belongs : key.Belongs other)
  {signed : List Int} (coefficients : ∀ index q position, other.moduli[index]? = some q →
    position < other.dimension →
    classOf q (key.coefficients.residues.getD (index * other.dimension + position) 0) =
      ((signed.getD position 0 : Int) : ZMod q.toNat))
include lawful otherLawful same belongs coefficients

/-- The residues of an encryption under a derived polynomial are those of its values. -/
theorem classOf_encrypts {seed : Seed} {noise : List Int} {values : List UInt64}
    {ciphertext : Ciphertext} (ciphertextBelongs : ciphertext.Belongs other)
    (encrypts : key.Encrypts (PublicPoly.derive context seed) noise values ciphertext)
    {index position : Nat} {q : UInt64} (present : context.moduli[index]? = some q)
    (inside : position < ciphertext.count) :
    classOf q (ciphertext.residues.getD (index * ciphertext.count + position) 0) =
      (blockValue context signed seed noise values position index : ZMod q.toNat) := by
  have derived : PublicPoly.Reachable context (PublicPoly.derive context seed) := .derive seed
  obtain ⟨polyBelongs, made⟩ := derived.coefficients_spec lawful
  have otherPresent : other.moduli[index]? = some q := by
    rw [same.moduli]
    exact present
  have short : position < other.dimension := Nat.lt_of_lt_of_le inside ciphertextBelongs.count
  have product := SecretKey.classOf_mulPublic otherLawful belongs (polyBelongs.transfer same.symm)
    (by rw [made, same.transform otherLawful lawful]) otherPresent short
  have encrypted := encrypts index q position (by rw [belongs.bound]; exact otherPresent) inside
  rw [belongs.bound, product, same.scaled otherLawful lawful, same.plaintextModulus,
    same.dimension] at encrypted
  rw [encrypted, blockValue]
  push_cast
  congr 2
  refine Finset.sum_congr rfl ?_
  intro column member
  have residue := coefficients index q column otherPresent
    (by rw [same.dimension]; exact Finset.mem_range.mp member)
  rw [same.dimension] at residue
  rw [residue, Hint.classesAt_derive lawful, Negacyclic.entry_map, eq_intCast]

variable {width : Width} {tables : SwitchTables}
  (prepared : context.switchTables width = .ok tables)
include prepared

/-- A block of values is encrypted and extracted, and its words represent its values. -/
theorem represents_block (seed : Seed) {noise : List Int} (many : noise.length = context.dimension)
    {values : List UInt64} (fits : values.length ≤ context.dimension) :
    ∃ ciphertext words,
      key.encryptPreprocessed values
        (key.preprocessWith (PublicPoly.derive context seed) noise) = .ok ciphertext ∧
      Extraction.ciphertext context ciphertext.dataBytes values.length width = .ok words ∧
      words.length = values.length ∧
      ∀ position < values.length,
        Represents context (blockValue context signed seed noise values position)
          (words.getD position 0) := by
  obtain ⟨_, rfl, _⟩ := lawful.switchTables_spec prepared
  have publicBelongs := (PublicPoly.belongs_derive lawful seed).transfer same.symm
  obtain ⟨_, ciphertext, encrypted, ciphertextBelongs, counted, encrypts⟩ :=
    SecretKey.encryption_spec otherLawful belongs publicBelongs (many.trans same.dimension.symm)
      (fits.trans_eq same.dimension.symm)
  have extracted := Extraction.ciphertext_eq_ok lawful same prepared ciphertextBelongs
  rw [counted] at extracted
  refine ⟨ciphertext, _, encrypted, extracted, ?_, fun position inside => ?_⟩
  · rw [List.length_map, List.length_range]
  · rw [getD_map_range _ inside]
    refine represents_switch lawful (Switching.length_residuesAt _ _ _ _) ?_
    intro index q present
    rw [Switching.getD_residuesAt _ _ _ (Context.Lawful.index_lt present), ← counted]
    exact classOf_encrypts lawful otherLawful same belongs coefficients ciphertextBelongs encrypts
      present (by rw [counted]; exact inside)

end Block

/-! ## Lists of messages -/

/-- The words of messages that are encrypted block by block under the public polynomials of seeds,
each with noise of its own, and extracted. -/
def encryptBlocks (context : Context) (key : SecretKey) (width : Width) :
    (seeds : List Seed) → (noises : List (List Int)) → (messages : List UInt64) →
      Except Failure (List (LweWord width))
  | seed :: seeds, noise :: noises, messages => do
    let block := messages.take context.dimension
    let ciphertext ← key.encryptPreprocessed block
      (key.preprocessWith (PublicPoly.derive context seed) noise)
    let words ← Extraction.ciphertext context ciphertext.dataBytes block.length width
    return words ++ (← encryptBlocks context key width seeds noises
      (messages.drop context.dimension))
  | _, _, _ => return []

/-- The noise of a position, from the noise of its block. -/
def noiseAt (context : Context) (noises : List (List Int)) (position : Nat) : Int :=
  (noises.getD (position / context.dimension) []).getD (position % context.dimension) 0

/-- What a message stands for modulo the prime of the given number: the product of a row of the
stacked matrices with the secret, the noise and the scaled value. -/
def messageValue (context : Context) (signed : List Int) (seeds : List Seed)
    (noises : List (List Int)) (messages : List UInt64) (position index : Nat) : Int :=
  ∑ column ∈ Finset.range context.dimension,
      Hint.stackedEntry context seeds index position column * signed.getD column 0 +
    noiseAt context noises position +
    context.scaled (messages.getD position 0 % context.plaintextModulus).toNat

section Messages

variable {context : Context} {signed : List Int} {seed : Seed} {seeds : List Seed}
  {noise : List Int} {noises : List (List Int)} {messages : List UInt64}

theorem messageValue_first {position : Nat} (inside : position < context.dimension) :
    messageValue context signed (seed :: seeds) (noise :: noises) messages position =
      blockValue context signed seed noise (messages.take context.dimension) position := by
  have given : (messages.take context.dimension).getD position 0 = messages.getD position 0 := by
    rw [List.getD_eq_getElem?_getD, List.getElem?_take_of_lt inside, List.getD_eq_getElem?_getD]
  funext index
  simp only [messageValue, blockValue, Hint.stackedEntry, noiseAt, Nat.div_eq_of_lt inside,
    Nat.mod_eq_of_lt inside, List.getD_cons_zero, given]

theorem messageValue_later (positive : 0 < context.dimension) (position : Nat) :
    messageValue context signed (seed :: seeds) (noise :: noises) messages
        (context.dimension + position) =
      messageValue context signed seeds noises (messages.drop context.dimension) position := by
  have given : (messages.drop context.dimension).getD position 0 =
      messages.getD (context.dimension + position) 0 := by
    rw [List.getD_eq_getElem?_getD, List.getElem?_drop, List.getD_eq_getElem?_getD]
  funext index
  simp only [messageValue, Hint.stackedEntry, noiseAt, Nat.add_div_left _ positive,
    Nat.add_mod_left, List.getD_cons_succ, given]

/-- Words for the messages of the first block and for those behind it represent all messages. -/
theorem represents_append {width : Width} {first later : List (LweWord width)}
    (positive : 0 < context.dimension)
    (full : first.length = (messages.take context.dimension).length)
    (firstRepresents : ∀ position < (messages.take context.dimension).length,
      Represents context
        (blockValue context signed seed noise (messages.take context.dimension) position)
        (first.getD position 0))
    (laterRepresents : ∀ position < (messages.drop context.dimension).length,
      Represents context
        (messageValue context signed seeds noises (messages.drop context.dimension) position)
        (later.getD position 0)) :
    ∀ position < messages.length,
      Represents context
        (messageValue context signed (seed :: seeds) (noise :: noises) messages position)
        ((first ++ later).getD position 0) := by
  intro position inside
  rw [List.length_take] at full firstRepresents
  rw [List.length_drop] at laterRepresents
  rcases Nat.lt_or_ge position context.dimension with early | late
  · have within := Nat.lt_min.mpr ⟨early, inside⟩
    rw [List.getD_append _ _ _ _ (by rwa [full]), messageValue_first early]
    exact firstRepresents position within
  · obtain ⟨beyond, rfl⟩ := Nat.exists_eq_add_of_le late
    have whole : first.length = context.dimension := by
      rw [full]
      omega
    rw [List.getD_append_right _ _ _ _ (by omega), whole, Nat.add_sub_cancel_left,
      messageValue_later positive]
    exact laterRepresents beyond (by omega)

end Messages

section Blocks

variable {context other : Context} (lawful : context.Lawful) (otherLawful : other.Lawful)
  (same : Context.SameRing other context) {key : SecretKey} (belongs : key.Belongs other)
  {signed : List Int} (coefficients : ∀ index q position, other.moduli[index]? = some q →
    position < other.dimension →
    classOf q (key.coefficients.residues.getD (index * other.dimension + position) 0) =
      ((signed.getD position 0 : Int) : ZMod q.toNat))
  {width : Width} {tables : SwitchTables} (prepared : context.switchTables width = .ok tables)
include lawful otherLawful same belongs coefficients prepared

/-- Messages are encrypted and extracted block by block, and their words represent their values. -/
theorem encryptBlocks_spec {seeds : List Seed} {noises : List (List Int)}
    (many : noises.length = seeds.length)
    (drawn : ∀ noise ∈ noises, noise.length = context.dimension) {messages : List UInt64}
    (covered : messages.length ≤ seeds.length * context.dimension) :
    ∃ words, encryptBlocks context key width seeds noises messages = .ok words ∧
      words.length = messages.length ∧
      ∀ position < messages.length,
        Represents context (messageValue context signed seeds noises messages position)
          (words.getD position 0) := by
  induction seeds generalizing noises messages with
  | nil =>
    have none : messages.length = 0 := by
      rw [List.length_nil, Nat.zero_mul] at covered
      exact Nat.le_zero.mp covered
    refine ⟨[], ?_, none.symm, fun position inside => ?_⟩
    · cases noises with
      | nil => rfl
      | cons noise noises => rfl
    · omega
  | cons seed seeds ih =>
    cases noises with
    | nil => cases many
    | cons noise noises =>
      obtain ⟨noiseFull, laterFull⟩ := List.forall_mem_cons.mp drawn
      rw [List.length_cons, Nat.succ_mul] at covered
      obtain ⟨ciphertext, first, encrypted, extracted, firstLength, firstRepresents⟩ :=
        represents_block lawful otherLawful same belongs coefficients prepared seed noiseFull
          (List.length_take_le context.dimension messages)
      have remaining : (messages.drop context.dimension).length ≤
          seeds.length * context.dimension := by
        rw [List.length_drop]
        omega
      obtain ⟨later, rest, laterLength, laterRepresents⟩ :=
        ih (Nat.succ.inj many) laterFull remaining
      refine ⟨first ++ later, ?_, ?_, ?_⟩
      · simp only [encryptBlocks, encrypted, extracted, rest, ok_bind]
        rfl
      · rw [List.length_append, firstLength, laterLength, ← List.length_append,
          List.take_append_drop]
      · exact represents_append lawful.dimension_pos firstLength firstRepresents laterRepresents

end Blocks

end RingLwe
