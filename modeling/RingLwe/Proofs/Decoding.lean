import RingLwe.Proofs.Decoding.Budget
import RingLwe.Proofs.Decoding.Samples
import RingLwe.Proofs.Word.Lwe

/-!
# Decoding with a hint

A row of a matrix times the words of encrypted messages, less the row of the
hint times the secret, rounds to the row times the messages as long as the
noise and the rounding errors of all words together stay within the budget of
the row (`InBudget`, `decode_rounds`).

Modulo every prime the products of the hint with the secret are those that the
encryptions contain (`combination_congruent`), so only noise and scaled
messages are left; what is off is counted in `round_of_represents`.
-/

set_option autoImplicit false

namespace RingLwe.Hint

open Residue

/-- The entry of a row of a matrix at a position. -/
def entryAt (matrix : List UInt32) (columns row position : Nat) : Nat :=
  (matrix.getD (row * columns + position) 0).toNat

/-- Whether noise and rounding errors of the words that a row combines stay below half of a
plaintext step. -/
def InBudget (context : Context) (width : Width) (matrix : List UInt32) (columns : Nat)
    (noises : List (List Int)) (signed : List Int) (row : Nat) : Prop :=
  (context.plaintextModulus.toNat : Int) *
      (width.modulus * ∑ position ∈ Finset.range columns,
          (entryAt matrix columns row position : Int) *
            (2 * |noiseAt context noises position| + 1) +
        context.basis.modulus * context.primeCount *
          (∑ position ∈ Finset.range columns, (entryAt matrix columns row position : Int) +
            ∑ column ∈ Finset.range context.dimension, |signed.getD column 0|)) <
    width.modulus * context.basis.modulus

/-- Whether a row stays within its budget with any noise and any secret up to the given bounds. -/
def Affordable (context : Context) (width : Width) (matrix : List UInt32) (columns : Nat)
    (noiseBound secretBound : Nat) (row : Nat) : Prop :=
  (context.plaintextModulus.toNat : Int) *
      (width.modulus * ∑ position ∈ Finset.range columns,
          (entryAt matrix columns row position : Int) * (2 * noiseBound + 1) +
        context.basis.modulus * context.primeCount *
          (∑ position ∈ Finset.range columns, (entryAt matrix columns row position : Int) +
            context.dimension * secretBound)) <
    width.modulus * context.basis.modulus

theorem entryAt_le {matrix : List UInt32} {bound : Nat}
    (small : ∀ entry ∈ matrix, entry.toNat ≤ bound) (columns row position : Nat) :
    entryAt matrix columns row position ≤ bound := by
  rw [entryAt]
  rcases Nat.lt_or_ge (row * columns + position) matrix.length with inside | outside
  · rw [List.getD_eq_getElem _ _ inside]
    exact small _ (List.getElem_mem inside)
  · rw [List.getD_eq_default _ _ outside]
    exact Nat.zero_le _

section Bounded

variable {context : Context} {noises : List (List Int)} {noiseBound : Nat}
  (noisy : ∀ noise ∈ noises, ∀ value ∈ noise, value.natAbs ≤ noiseBound)
include noisy

theorem abs_noiseAt_le (position : Nat) : |noiseAt context noises position| ≤ noiseBound := by
  refine abs_getD_le ?_ _
  rcases Nat.lt_or_ge (position / context.dimension) noises.length with inside | outside
  · rw [List.getD_eq_getElem _ _ inside]
    exact noisy _ (List.getElem_mem inside)
  · rw [List.getD_eq_default _ _ outside]
    exact fun _ member => (List.not_mem_nil member).elim

theorem inBudget_of_affordable {signed : List Int} {secretBound : Nat}
    (secret : ∀ value ∈ signed, value.natAbs ≤ secretBound) {width : Width}
    {matrix : List UInt32} {columns row : Nat}
    (affordable : Affordable context width matrix columns noiseBound secretBound row) :
    InBudget context width matrix columns noises signed row := by
  have noise : ∑ position ∈ Finset.range columns, (entryAt matrix columns row position : Int) *
        (2 * |noiseAt context noises position| + 1) ≤
      ∑ position ∈ Finset.range columns, (entryAt matrix columns row position : Int) *
        (2 * noiseBound + 1) := by
    refine Finset.sum_le_sum fun position _ => mul_le_mul_of_nonneg_left ?_ (Int.natCast_nonneg _)
    have near : |noiseAt context noises position| ≤ noiseBound := abs_noiseAt_le noisy position
    omega
  have weight := sum_abs_getD_le secret context.dimension
  refine lt_of_le_of_lt ?_ affordable
  gcongr

end Bounded

/-! ## Rows -/

section Row

variable {context : Context} (lawful : context.Lawful) {matrix : List UInt32}
  {columns row : Nat} {seeds : List Seed} {signed : List Int} {noises : List (List Int)}
  {messages : List UInt64}

omit lawful in
/-- The products of a hint with the secret are those that the encryptions contain. -/
theorem values_cancel (context : Context) (matrix : List UInt32) (columns row : Nat)
    (seeds : List Seed) (signed : List Int) (noises : List (List Int)) (messages : List UInt64)
    (index : Nat) :
    ∑ position ∈ Finset.range columns, (entryAt matrix columns row position : Int) *
          messageValue context signed seeds noises messages position index -
        ∑ column ∈ Finset.range context.dimension, signed.getD column 0 *
          productEntry context matrix columns seeds row column index =
      ∑ position ∈ Finset.range columns, (entryAt matrix columns row position : Int) *
        (noiseAt context noises position +
          context.scaled (messages.getD position 0 % context.plaintextModulus).toNat) := by
  have exchanged : ∑ column ∈ Finset.range context.dimension, signed.getD column 0 *
        productEntry context matrix columns seeds row column index =
      ∑ position ∈ Finset.range columns, (entryAt matrix columns row position : Int) *
        ∑ column ∈ Finset.range context.dimension,
          stackedEntry context seeds index position column * signed.getD column 0 := by
    simp only [productEntry, entryAt, Finset.mul_sum]
    rw [Finset.sum_comm]
    refine Finset.sum_congr rfl fun position _ => Finset.sum_congr rfl ?_
    intro column _
    ring
  rw [exchanged, ← Finset.sum_sub_distrib]
  refine Finset.sum_congr rfl ?_
  intro position _
  rw [messageValue]
  ring

include lawful

/-- What is left of a combination of numbers with those residues is noise and scaled messages. -/
theorem combination_congruent {sample hint : Nat → Nat}
    (samples : ∀ position < columns, ∀ index q, context.moduli[index]? = some q →
      (sample position : ZMod q.toNat) =
        (messageValue context signed seeds noises messages position index : ZMod q.toNat))
    (hints : ∀ column < context.dimension, ∀ index q, context.moduli[index]? = some q →
      (hint column : ZMod q.toNat) =
        (productEntry context matrix columns seeds row column index : ZMod q.toNat)) :
    (∑ position ∈ Finset.range columns, (entryAt matrix columns row position : Int) *
          sample position -
        ∑ column ∈ Finset.range context.dimension, signed.getD column 0 * hint column) ≡
      ∑ position ∈ Finset.range columns, (entryAt matrix columns row position : Int) *
        (noiseAt context noises position +
          context.scaled (messages.getD position 0 % context.plaintextModulus).toNat)
      [ZMOD context.basis.modulus] := by
  refine lawful.basis_sound.intModEq_of_classes ?_
  intro index q present
  rw [← values_cancel context matrix columns row seeds signed noises messages index]
  push_cast
  congr 1
  · refine Finset.sum_congr rfl ?_
    intro position member
    rw [samples position (Finset.mem_range.mp member) index q present]
  · refine Finset.sum_congr rfl ?_
    intro column member
    rw [hints column (Finset.mem_range.mp member) index q present]

variable {width : Width} {word : LweWord width} {words hintRow : List (LweWord width)}

/-- A word that combines samples and a row of a hint within the budget rounds to the product of the
row of the matrix with the messages. -/
theorem round_of_represents
    (combined : (word.toNat : Int) ≡
      ∑ position ∈ Finset.range columns, (entryAt matrix columns row position : Int) *
          (words.getD position 0).toNat -
        ∑ column ∈ Finset.range context.dimension, signed.getD column 0 *
          (hintRow.getD column 0).toNat [ZMOD width.modulus])
    (samples : ∀ position < columns,
      Represents context (messageValue context signed seeds noises messages position)
        (words.getD position 0))
    (hints : ∀ column < context.dimension,
      Represents context (productEntry context matrix columns seeds row column)
        (hintRow.getD column 0))
    (budget : InBudget context width matrix columns noises signed row) :
    (word.toNat * context.plaintextModulus.toNat + width.modulus / 2) / width.modulus %
        context.plaintextModulus.toNat =
      (∑ position ∈ Finset.range columns, entryAt matrix columns row position *
        (messages.getD position 0 % context.plaintextModulus).toNat) %
        context.plaintextModulus.toNat := by
  have above := lawful.two_le
  choose! sample sampleRounded sampleClasses using samples
  choose! exactSample sampleCongruent sampleNear using sampleRounded
  choose! hint hintRounded hintClasses using hints
  choose! exactHint hintCongruent hintNear using hintRounded
  have congruent : (word.toNat : Int) ≡
      ∑ position ∈ Finset.range columns, (entryAt matrix columns row position : Int) *
          exactSample position -
        ∑ column ∈ Finset.range context.dimension, signed.getD column 0 * exactHint column
      [ZMOD width.modulus] := by
    refine combined.trans (Int.ModEq.sub (Int.ModEq.sum fun position member => ?_)
      (Int.ModEq.sum fun column member => ?_))
    · exact (sampleCongruent position (Finset.mem_range.mp member)).symm.mul_left _
    · exact (hintCongruent column (Finset.mem_range.mp member)).symm.mul_left _
  have near := combination_near
    (fun position => (entryAt matrix columns row position : Int))
    (fun column => signed.getD column 0) sampleNear hintNear
  have exactly := combination_congruent lawful sampleClasses hintClasses
  have scaled := lawful.scaledSum_near columns (entryAt matrix columns row)
    (fun position => (messages.getD position 0 % context.plaintextModulus).toNat)
    (noiseAt context noises)
  refine round_of_budget (by omega) congruent exactly near scaled ?_
  simp only [Nat.abs_cast]
  refine lt_of_eq_of_lt ?_ budget
  ring

end Row

/-! ## Words -/

section Words

variable {width : Width}

theorem decode_eq_map (hint : Hint width) (matrix : List UInt32) (columns : Nat)
    (ciphertext secret : List (LweWord width)) :
    hint.decode matrix columns ciphertext secret = (List.range hint.rows).map fun row =>
      LweWord.dot ((run columns matrix row).map fun entry => LweWord.ofNat width entry.toNat)
          ciphertext -
        LweWord.dot (hint.row row) secret := by
  rw [decode, rowList, components_eq_map, components_eq_map, List.zipWith_map, List.zipWith_self]
  rfl

/-- The product of a row of a matrix with words. -/
theorem dot_row_modEq {matrix : List UInt32} {rows columns row : Nat}
    (full : matrix.length = columns * rows) (inside : row < rows) {words : List (LweWord width)}
    (even : words.length = columns) :
    ((LweWord.dot ((run columns matrix row).map fun entry => LweWord.ofNat width entry.toNat)
        words).toNat : Int) ≡
      ∑ position ∈ Finset.range columns, (entryAt matrix columns row position : Int) *
        (words.getD position 0).toNat [ZMOD width.modulus] := by
  have long := length_run full inside
  have product := LweWord.dot_modEq ((List.length_map fun entry : UInt32 =>
    LweWord.ofNat width entry.toNat).trans (long.trans even.symm))
  rw [List.length_map, long] at product
  refine product.trans (Int.ModEq.sum fun position member => Int.ModEq.mul_right _ ?_)
  have short := Finset.mem_range.mp member
  rw [getD_map _ _ (by rw [long]; exact short) 0 0, getD_run matrix row short, entryAt]
  exact LweWord.ofNat_modEq width _

/-- The product of words with a secret. -/
theorem dot_secret_modEq {words : List (LweWord width)} {signed : List Int}
    (even : words.length = signed.length) :
    ((LweWord.dot words (signed.map (BitVec.ofInt width.bits))).toNat : Int) ≡
      ∑ column ∈ Finset.range signed.length, signed.getD column 0 * (words.getD column 0).toNat
      [ZMOD width.modulus] := by
  have product := LweWord.dot_modEq
    (even.trans (List.length_map (BitVec.ofInt width.bits)).symm)
  rw [even] at product
  refine product.trans (Int.ModEq.sum fun column member => ?_)
  rw [mul_comm, getD_map _ _ (Finset.mem_range.mp member) 0 0]
  exact (LweWord.ofInt_modEq width _).mul_right _

end Words

/-! ## Rows of a hint -/

theorem sum_reduced_mod (entry : Nat → Nat) (messages : List UInt64) (p : UInt64) (columns : Nat) :
    (∑ position ∈ Finset.range columns, entry position * (messages.getD position 0 % p).toNat) %
        p.toNat =
      (∑ position ∈ Finset.range columns, entry position * (messages.getD position 0).toNat) %
        p.toNat := by
  refine Nat.ModEq.sum fun position _ => Nat.ModEq.mul_left _ ?_
  rw [UInt64.toNat_mod]
  exact Nat.mod_modEq _ _

/-- The word of a row within its budget rounds to the product of the row with the messages. -/
theorem roundWord_row {context : Context} (lawful : context.Lawful) {width : Width}
    (small : 2 * context.plaintextModulus.toNat ≤ width.modulus) {matrix : List UInt32}
    {rows columns row : Nat} (full : matrix.length = columns * rows) (inside : row < rows)
    {seeds : List Seed} {hintRow : List (LweWord width)}
    (hintWords : hintRow = (List.range context.dimension).map fun column =>
      (SwitchTables.ofBasis width context.basis).switch width
        (schoolbook context matrix columns seeds row column))
    {signed : List Int} (secretFull : signed.length = context.dimension)
    {noises : List (List Int)} {messages : List UInt64} {words : List (LweWord width)}
    (wordsFull : words.length = columns)
    (samples : ∀ position < columns,
      Represents context (messageValue context signed seeds noises messages position)
        (words.getD position 0))
    (budget : InBudget context width matrix columns noises signed row) :
    (Switching.roundWord context.plaintextModulus.toNat
      (LweWord.dot ((run columns matrix row).map fun entry => LweWord.ofNat width entry.toNat)
          words -
        LweWord.dot hintRow (signed.map (BitVec.ofInt width.bits)))).toNat =
      (∑ position ∈ Finset.range columns,
        entryAt matrix columns row position * (messages.getD position 0).toNat) %
          context.plaintextModulus.toNat := by
  have above := lawful.two_le
  have hintFull : hintRow.length = signed.length := by
    rw [hintWords, List.length_map, List.length_range, secretFull]
  have hints : ∀ column < context.dimension,
      Represents context (productEntry context matrix columns seeds row column)
        (hintRow.getD column 0) := by
    intro column short
    rw [hintWords, getD_map_range _ short]
    exact represents_schoolbook lawful width matrix columns seeds row column
  have rowProduct := dot_row_modEq full inside wordsFull
  have hintProduct := dot_secret_modEq hintFull
  rw [secretFull] at hintProduct
  have rounded := round_of_represents lawful
    ((LweWord.sub_modEq _ _).trans (rowProduct.sub hintProduct)) samples hints budget
  rw [Switching.roundWord, LweWord.toNat_ofNat, rounded, sum_reduced_mod, Nat.mod_eq_of_lt]
  exact (Nat.mod_lt _ (by omega)).trans_le (by omega)

/-! ## Whole hints -/

section Decode

variable {context other : Context} (lawful : context.Lawful) (otherLawful : other.Lawful)
  (same : Context.SameRing other context) {key : SecretKey} (belongs : key.Belongs other)
  {width : Width} {secret : List (LweWord width)}
  (extracted : Extraction.key context key width = .ok secret) {matrix : List UInt32}
  {rows columns : Nat} {seeds : List Seed} {hint : Hint width}
  (computed : compute context width matrix rows columns seeds = .ok hint)
include lawful otherLawful same belongs extracted computed

/-- Messages are encrypted and extracted, and each row within its budget decodes to its product with
the messages. -/
theorem decode_spec {messages : List UInt64} (counted : messages.length = columns)
    {noises : List (List Int)} (many : noises.length = seeds.length)
    (drawn : ∀ noise ∈ noises, noise.length = context.dimension) :
    ∃ words decoded, encryptBlocks context key width seeds noises messages = .ok words ∧
      words.length = columns ∧
      Switching.round context (hint.decode matrix columns words secret) = .ok decoded ∧
      decoded.length = rows ∧
      ∀ row < rows, InBudget context width matrix columns noises key.signedCoefficients row →
        (decoded.getD row 0).toNat = (∑ position ∈ Finset.range columns,
          entryAt matrix columns row position * (messages.getD position 0).toNat) %
            context.plaintextModulus.toNat := by
  obtain ⟨⟨tables, prepared⟩, accepted⟩ := prepare_of_compute computed
  obtain ⟨full, blocks, _⟩ := checkDimensions_eq_ok accepted
  obtain ⟨_, rfl, small⟩ := lawful.switchTables_spec prepared
  obtain ⟨made, again, count, _, _, rowWords⟩ := compute_eq_ok lawful prepared accepted
  obtain rfl : hint = made := Except.ok.inj (computed.symm.trans again)
  obtain ⟨rfl, secretFull, coefficients⟩ := Extraction.key_eq_ok otherLawful belongs extracted
  rw [List.length_map, same.dimension] at secretFull
  have covered : messages.length ≤ seeds.length * context.dimension := by
    rw [counted, blocks]
    exact le_blockCount_mul lawful.dimension_pos columns
  obtain ⟨words, encrypted, wordsFull, represents⟩ :=
    encryptBlocks_spec lawful otherLawful same belongs coefficients prepared many drawn covered
  rw [counted] at wordsFull represents
  refine ⟨words, _, encrypted, wordsFull, Switching.round_eq_ok prepared _, ?_, ?_⟩
  · rw [List.length_map, decode_eq_map, List.length_map, List.length_range, count]
  · intro row inside budget
    rw [decode_eq_map, List.map_map, count, getD_map_range _ inside]
    exact roundWord_row lawful small full inside (rowWords row inside) secretFull wordsFull
      represents budget

end Decode

/-- Every row of a matrix whose noise and rounding errors are within its budget decodes to its
product with the messages, whatever noise the Gaussian gave to the first phase of each block. -/
theorem decode_rounds {parameters keyParameters : Parameters} {context keyContext : Context}
    (built : Context.ofParameters parameters = .ok context)
    (keyBuilt : Context.ofParameters keyParameters = .ok keyContext)
    (same : Context.SameRing keyContext context) {key : SecretKey} (own : key.Reachable keyContext)
    {width : Width} {secret : List (LweWord width)}
    (extracted : Extraction.key context key width = .ok secret) {matrix : List UInt32}
    {rows columns : Nat} {seeds : List Seed} {hint : Hint width}
    (computed : compute context width matrix rows columns seeds = .ok hint)
    {messages : List UInt64} (counted : messages.length = columns) :
    (∀ seed ∈ seeds, ∃ draw, key.preprocess (PublicPoly.derive context seed) = .ok draw ∧
      ∀ stream, ∃ noise,
        noise = ((keyContext.gaussian.samples keyContext.dimension).run stream).1 ∧
        noise.length = context.dimension ∧
        (draw.run stream).1 = key.preprocessWith (PublicPoly.derive context seed) noise) ∧
    ∀ noises, noises.length = seeds.length →
      (∀ noise ∈ noises, noise.length = context.dimension) →
      ∃ words decoded, encryptBlocks context key width seeds noises messages = .ok words ∧
        words.length = columns ∧
        Switching.round context (hint.decode matrix columns words secret) = .ok decoded ∧
        decoded.length = rows ∧
        ∀ row < rows, InBudget context width matrix columns noises key.signedCoefficients row →
          (decoded.getD row 0).toNat = (∑ position ∈ Finset.range columns,
            entryAt matrix columns row position * (messages.getD position 0).toNat) %
              context.plaintextModulus.toNat := by
  have lawful := Context.lawful_of_ofParameters built
  have keyLawful := Context.lawful_of_ofParameters keyBuilt
  have belongs := own.belongs keyLawful
  constructor
  · intro seed _
    have sameRing : (PublicPoly.derive context seed).context.fingerprint =
        keyContext.fingerprint := (same.fingerprint keyLawful lawful).symm
    obtain ⟨draw, accepted, drawn⟩ := SecretKey.preprocess_spec keyLawful belongs sameRing rfl
    refine ⟨draw, accepted, ?_⟩
    intro stream
    obtain ⟨noise, rest, sampled, many, _, given⟩ := drawn stream
    exact ⟨noise, by rw [sampled], many.trans same.dimension, by rw [given]⟩
  · intro noises many drawn
    exact decode_spec lawful keyLawful same belongs extracted computed counted many drawn

/-- With the preset of 64 bits every row of bytes over two blocks is affordable. -/
theorem affordable_preset {context : Context}
    (built : Context.ofParameters (Parameters.preset .bits64) = .ok context)
    {matrix : List UInt32} {columns : Nat} (few : columns ≤ 8192)
    (small : ∀ entry ∈ matrix, entry.toNat ≤ 255) (row : Nat) :
    Affordable context .bits64 matrix columns 20 20 row := by
  obtain ⟨dimension, plaintext, count, modulus⟩ := Context.wide_preset_spec built
  have hybrid : (Width.modulus .bits64 : Int) = 18446744073709551616 := rfl
  have step : ((32768 : UInt64).toNat : Int) = 32768 := rfl
  have entries : ∀ position ∈ Finset.range columns,
      (entryAt matrix columns row position : Int) ≤ 255 :=
    fun position _ => Int.ofNat_le.mpr (entryAt_le small columns row position)
  have weight := Finset.sum_le_card_nsmul _ _ _ entries
  rw [Finset.card_range, nsmul_eq_mul] at weight
  simp only [Affordable, dimension, plaintext, count, modulus, hybrid, step, ← Finset.sum_mul]
  push_cast
  omega

/-- The product of a row with one entry in every column with messages of one value. -/
theorem sum_constant_row {columns row : Nat} {before : List UInt32}
    (place : before.length = row * columns) (entry : UInt32) (after : List UInt32)
    (message : UInt64) :
    ∑ position ∈ Finset.range columns,
        entryAt (before ++ (List.replicate columns entry ++ after)) columns row position *
          ((List.replicate columns message).getD position 0).toNat =
      columns * (entry.toNat * message.toNat) := by
  refine (Finset.sum_const_nat fun position member => ?_).trans (by rw [Finset.card_range])
  have short := Finset.mem_range.mp member
  rw [entryAt, List.getD_append_right _ _ _ _ (by rw [place]; exact Nat.le_add_right _ _), place,
    Nat.add_sub_cancel_left, List.getD_append _ _ _ _ (by rwa [List.length_replicate]),
    List.getD_replicate _ short, List.getD_replicate _ short]

/-- Two rows over two blocks with noise decode with a generated key of the preset of 64 bits. -/
theorem decode_preset : ∃ context key secret hint words decoded,
    Context.ofParameters (Parameters.preset .bits64) = .ok context ∧
    SecretKey.Reachable context key ∧
    Extraction.key context key .bits64 = .ok secret ∧
    compute context .bits64 (List.replicate 4097 3 ++ List.replicate 4097 5) 2 4097
      [Vector.replicate 8 0, Vector.replicate 8 1] = .ok hint ∧
    encryptBlocks context key .bits64 [Vector.replicate 8 0, Vector.replicate 8 1]
      [List.replicate 4096 7, List.replicate 4096 (-20)] (List.replicate 4097 9) = .ok words ∧
    Switching.round context
      (hint.decode (List.replicate 4097 3 ++ List.replicate 4097 5) 4097 words secret) =
        .ok decoded ∧
    (∀ row < 2, InBudget context .bits64 (List.replicate 4097 3 ++ List.replicate 4097 5) 4097
      [List.replicate 4096 7, List.replicate 4096 (-20)] key.signedCoefficients row) ∧
    (decoded.getD 0 0).toNat = 12315 ∧ (decoded.getD 1 0).toNat = 20525 := by
  obtain ⟨context, built⟩ := Context.exists_preset .bits64
  have lawful := Context.lawful_of_ofParameters built
  have prepared := Context.switchTables_preset built
  have cut := SecretKey.tailCut_preset built
  obtain ⟨dimension, plaintext, _, _⟩ := Context.wide_preset_spec built
  obtain ⟨hint, computed, _⟩ := compute_eq_ok lawful prepared (accepts_two_blocks built)
  obtain ⟨⟨secret, extracted⟩, bounded⟩ :=
    Extraction.key_generate lawful prepared (by rw [cut]; decide) ⟨Vector.replicate 8 0, 0, []⟩
  rw [cut] at bounded
  have own : SecretKey.Reachable context
      ((SecretKey.generate context).run ⟨Vector.replicate 8 0, 0, []⟩).1 := .generated _
  have bytes : ∀ entry ∈ List.replicate 4097 (3 : UInt32) ++ List.replicate 4097 5,
      entry.toNat ≤ 255 :=
    List.forall_mem_append.mpr ⟨List.forall_mem_replicate.mpr (.inr (by decide)),
      List.forall_mem_replicate.mpr (.inr (by decide))⟩
  have noisy : ∀ noise ∈ [List.replicate 4096 (7 : Int), List.replicate 4096 (-20)],
      ∀ value ∈ noise, value.natAbs ≤ 20 :=
    List.forall_mem_cons.mpr ⟨List.forall_mem_replicate.mpr (.inr (by decide)),
      List.forall_mem_singleton.mpr (List.forall_mem_replicate.mpr (.inr (by decide)))⟩
  have full : ∀ noise ∈ [List.replicate 4096 (7 : Int), List.replicate 4096 (-20)],
      noise.length = context.dimension := by
    rw [dimension]
    exact List.forall_mem_cons.mpr ⟨List.length_replicate,
      List.forall_mem_singleton.mpr List.length_replicate⟩
  have budget : ∀ row < 2, InBudget context .bits64
      (List.replicate 4097 3 ++ List.replicate 4097 5) 4097
      [List.replicate 4096 7, List.replicate 4096 (-20)] _ row :=
    fun row _ => inBudget_of_affordable noisy bounded (affordable_preset built (by decide) bytes row)
  obtain ⟨words, decoded, encrypted, _, rounded, _, right⟩ :=
    (decode_rounds built built (.refl context) own extracted computed
      (List.length_replicate : (List.replicate 4097 (9 : UInt64)).length = 4097)).2 _ rfl full
  have front : ([] : List UInt32).length = 0 * 4097 := rfl
  have behind : (List.replicate 4097 (3 : UInt32)).length = 1 * 4097 := List.length_replicate
  have first := sum_constant_row front 3 (List.replicate 4097 5) 9
  have second := sum_constant_row behind 5 [] 9
  rw [List.nil_append] at first
  rw [List.append_nil] at second
  refine ⟨context, _, secret, hint, words, decoded, built, own, extracted, computed, encrypted,
    rounded, budget, ?_, ?_⟩
  · rw [right 0 (by decide) (budget 0 (by decide)), plaintext, first]
    rfl
  · rw [right 1 (by decide) (budget 1 (by decide)), plaintext, second]
    rfl

end RingLwe.Hint
