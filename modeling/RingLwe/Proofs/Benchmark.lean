import RingLwe.Benchmark.Run
import RingLwe.Proofs.Decoding

/-!
# Trials of the benchmark

A trial draws a key, messages and noise, and decodes every row.  The blocks are
encrypted with the noise that their first phases draw (`encryptBlocks_run`).
When the largest noise and the largest secret leave every row within its budget
(`Affordable`), a trial counts no wrong row, whatever its stream holds
(`trial_eq_zero`).
-/

set_option autoImplicit false

namespace RingLwe.Benchmark.Setup

/-! ## Draws that may fail -/

section Draws

variable {α β : Type}

theorem run_liftExcept (answer : Except Failure α) (next : α → ExceptT Failure Draw β)
    (stream : Stream) :
    ((encryptBlocks.liftExcept answer >>= next).run.run stream).1 =
      answer >>= fun value => ((next value).run.run stream).1 := by
  cases answer with
  | error failure => rfl
  | ok value => rfl

theorem run_draw (draw : Draw α) (next : α → ExceptT Failure Draw β) (stream : Stream) :
    (((draw : ExceptT Failure Draw α) >>= next).run.run stream).1 =
      ((next (draw.run stream).1).run.run (draw.run stream).2).1 :=
  rfl

theorem run_pure (draw : ExceptT Failure Draw α) (image : α → β) (stream : Stream) :
    ((draw >>= fun value => pure (image value)).run.run stream).1 =
      (draw.run.run stream).1 >>= fun value => pure (image value) := by
  cases computed : draw.run.run stream with
  | mk outcome rest =>
    change draw stream = (outcome, rest) at computed
    simp only [bind, ExceptT.bind, ExceptT.mk, ExceptT.run, StateT.run, StateT.bind, computed]
    cases outcome with
    | error failure => rfl
    | ok value => rfl

end Draws

/-! ## Encrypting messages -/

/-- A block is encrypted with what its first phase draws. -/
theorem encryptBlocks_cons (setup : Setup) {key : SecretKey} {seed : Seed}
    {draw : Draw PartialCiphertext} {part : PartialCiphertext} {stream rest : Stream}
    (accepted : key.preprocess (PublicPoly.derive setup.context seed) = .ok draw)
    (drawn : draw.run stream = (part, rest)) (seeds : List Seed) (messages : List UInt64) :
    ((setup.encryptBlocks key (seed :: seeds) messages).run.run stream).1 = (do
      let block := messages.take setup.context.dimension
      let ciphertext ← key.encryptPreprocessed block part
      let words ← Extraction.ciphertext setup.context ciphertext.dataBytes block.length setup.width
      let later ← ((setup.encryptBlocks key seeds (messages.drop setup.context.dimension)).run.run
        rest).1
      return words ++ later) := by
  rw [encryptBlocks, run_liftExcept, accepted, ok_bind, run_draw, drawn]
  simp only [run_liftExcept, run_pure]

/-- A run encrypts with noise that it draws block by block. -/
theorem encryptBlocks_run (setup : Setup) {other : Context} (lawful : setup.context.Lawful)
    (otherLawful : other.Lawful) (same : Context.SameRing other setup.context) {key : SecretKey}
    (belongs : key.Belongs other) (seeds : List Seed) (messages : List UInt64) (stream : Stream) :
    ∃ noises : List (List Int), noises.length = seeds.length ∧
      (∀ noise ∈ noises, noise.length = setup.context.dimension ∧
        ∀ value ∈ noise, value.natAbs ≤ other.gaussian.tailCut) ∧
      ((setup.encryptBlocks key seeds messages).run.run stream).1 =
        RingLwe.encryptBlocks setup.context key setup.width seeds noises messages := by
  induction seeds generalizing messages stream with
  | nil => exact ⟨[], rfl, fun _ member => (List.not_mem_nil member).elim, rfl⟩
  | cons seed seeds ih =>
    have sameRing : (PublicPoly.derive setup.context seed).context.fingerprint =
        other.fingerprint := (same.fingerprint otherLawful lawful).symm
    obtain ⟨draw, accepted, drawn⟩ :=
      SecretKey.preprocess_spec otherLawful belongs sameRing rfl
    obtain ⟨noise, rest, _, many, bounded, given⟩ := drawn stream
    obtain ⟨noises, counted, full, later⟩ := ih (messages.drop setup.context.dimension) rest
    refine ⟨noise :: noises, congrArg Nat.succ counted,
      List.forall_mem_cons.mpr ⟨⟨many.trans same.dimension, bounded⟩, full⟩, ?_⟩
    rw [encryptBlocks_cons setup accepted given, later]
    rfl

/-! ## Budgets -/

/-- Whether every row stays within its budget with the largest noise and the largest secret that the
Gaussian of the context can give. -/
def Affordable (setup : Setup) : Prop :=
  ∀ row < setup.rows, Hint.Affordable setup.context setup.width setup.matrix setup.columns
    setup.context.gaussian.tailCut setup.context.gaussian.tailCut row

/-! ## Trials -/

/-- Reducing after every product reduces the sum of the products. -/
theorem foldl_mod_eq (p : Nat) {row : List UInt32} {messages : List UInt64}
    (even : row.length = messages.length) {start : Nat} (reduced : start < p) :
    (row.zip messages).foldl
        (fun sum pair => (sum + pair.1.toNat * pair.2.toNat) % p) start =
      (start + ∑ position ∈ Finset.range row.length,
        (row.getD position 0).toNat * (messages.getD position 0).toNat) % p := by
  induction row generalizing messages start with
  | nil =>
    rw [List.length_nil, Finset.sum_range_zero, Nat.add_zero, Nat.mod_eq_of_lt reduced]
    rfl
  | cons entry row ih =>
    cases messages with
    | nil => cases even
    | cons message messages =>
      have smaller := Nat.mod_lt (start + entry.toNat * message.toNat) (Nat.zero_lt_of_lt reduced)
      rw [List.zip_cons_cons, List.foldl_cons, ih (Nat.succ.inj even) smaller, List.length_cons,
        Finset.sum_range_succ']
      simp only [List.getD_cons_succ, List.getD_cons_zero]
      rw [Nat.mod_add_mod]
      congr 1
      omega

section Expected

variable {setup : Setup} (lawful : setup.context.Lawful)
  (full : setup.matrix.length = setup.columns * setup.rows) {messages : List UInt64}
  (counted : messages.length = setup.columns)
include lawful full counted

/-- What is expected of a row is its product with the messages. -/
theorem expected_run {row : Nat} (inside : row < setup.rows) :
    setup.expected messages (run setup.columns setup.matrix row) =
      (∑ position ∈ Finset.range setup.columns,
        Hint.entryAt setup.matrix setup.columns row position * (messages.getD position 0).toNat) %
          setup.context.plaintextModulus.toNat := by
  have long := length_run full inside
  have above := lawful.two_le
  refine (foldl_mod_eq _ (long.trans counted.symm) (by omega)).trans ?_
  rw [long, Nat.zero_add]
  congr 1
  refine Finset.sum_congr rfl ?_
  intro position member
  rw [getD_run setup.matrix row (Finset.mem_range.mp member), Hint.entryAt]

/-- No row is wrong when every row decodes to its product with the messages. -/
theorem mismatches_eq_zero {decoded : List (LweWord setup.width)}
    (right : ∀ row < setup.rows, (decoded.getD row 0).toNat =
      (∑ position ∈ Finset.range setup.columns,
        Hint.entryAt setup.matrix setup.columns row position * (messages.getD position 0).toNat) %
          setup.context.plaintextModulus.toNat) :
    setup.mismatches messages decoded = 0 := by
  refine List.countP_eq_zero.mpr ?_
  rintro ⟨row, word⟩ member wrong
  obtain ⟨index, present⟩ := List.getElem?_of_mem member
  obtain ⟨left, beside⟩ := List.getElem?_zip_eq_some.mp present
  have inside : index < setup.rows := by
    rw [← length_components setup.columns setup.rows setup.matrix]
    exact (List.getElem?_eq_some_iff.mp left).1
  rw [getElem?_components _ _ inside] at left
  have value := right index inside
  rw [List.getD_eq_getElem?_getD, beside, Option.getD_some,
    ← expected_run lawful full counted inside, Option.some.inj left] at value
  exact bne_iff_ne.mp wrong value

end Expected

/-- A trial of a hint whose rows are affordable counts no wrong row. -/
theorem trial_eq_zero {parameters : Parameters} {setup : Setup}
    (built : Context.ofParameters parameters = .ok setup.context)
    (narrow : setup.context.gaussian.tailCut ≤ SecretKey.normBound)
    (affordable : setup.Affordable) {hint : Hint setup.width}
    (computed : Hint.compute setup.context setup.width setup.matrix setup.rows setup.columns
      setup.seeds = .ok hint) : setup.trial hint = .ok 0 := by
  have lawful := Context.lawful_of_ofParameters built
  obtain ⟨⟨tables, prepared⟩, accepted⟩ := Hint.prepare_of_compute computed
  have full := (Hint.checkDimensions_eq_ok accepted).1
  obtain ⟨key, stream, generated⟩ : ∃ key stream,
      (SecretKey.generate setup.context).run setup.stream = (key, stream) := ⟨_, _, rfl⟩
  obtain ⟨messages, rest, listed⟩ : ∃ messages rest,
      (Stream.times setup.columns (Stream.below setup.context.plaintextModulus)).run stream =
        (messages, rest) := ⟨_, _, rfl⟩
  have own : SecretKey.Reachable setup.context
      ((SecretKey.generate setup.context).run setup.stream).1 := .generated _
  have extracts := Extraction.key_generate lawful prepared narrow setup.stream
  rw [generated] at own extracts
  obtain ⟨⟨secret, extracted⟩, small⟩ := extracts
  have belongs := own.belongs lawful
  have chosen := Stream.times_spec (Stream.Gives.any
    (Stream.below setup.context.plaintextModulus)) setup.columns stream
  rw [listed] at chosen
  have counted : messages.length = setup.columns := chosen.1
  obtain ⟨noises, many, drawn, encrypted⟩ :=
    setup.encryptBlocks_run lawful lawful (.refl _) belongs setup.seeds messages rest
  obtain ⟨words, decoded, given, _, rounded, _, right⟩ :=
    Hint.decode_spec lawful lawful (.refl _) belongs extracted computed counted many
      fun noise member => (drawn noise member).1
  have silent : setup.mismatches messages decoded = 0 :=
    mismatches_eq_zero lawful full counted fun row inside =>
      right row inside (Hint.inBudget_of_affordable (fun noise member => (drawn noise member).2)
        small (affordable row inside))
  simp only [trial, generated, listed, encrypted, given, ok_bind, extracted, rounded, silent]
  rfl

/-- No trial with the preset of 64 bits and two blocks of bytes counts a wrong row. -/
theorem trial_preset {setup : Setup}
    (built : Context.ofParameters (Parameters.preset .bits64) = .ok setup.context)
    (few : setup.columns ≤ 8192) (small : ∀ entry ∈ setup.matrix, entry.toNat ≤ 255)
    {hint : Hint setup.width}
    (computed : Hint.compute setup.context setup.width setup.matrix setup.rows setup.columns
      setup.seeds = .ok hint) : setup.trial hint = .ok 0 := by
  have cut := SecretKey.tailCut_preset built
  have wide : setup.width = .bits64 := by
    rw [width, Context.width, (Context.ofParameters_spec built).2]
    rfl
  refine trial_eq_zero built (by rw [cut]; decide) (fun row _ => ?_) computed
  rw [cut, wide]
  exact Hint.affordable_preset built few small row

end RingLwe.Benchmark.Setup
