import RingLwe.Proofs.Decoy

/-!
# Requests for decoys

A sampler answers one request after another from a single stream that is never
reset.  A decoy starts in the stream where the one before it ended, however many
words that one took for its residues.  So what a list of requests gives depends
only on the numbers of coefficients that they ask for, joined in order
(`DecoySampler.collect_eq`).

A request may therefore be split, or merged with the next one, without changing
the decoys or the sampler that is left (`DecoySampler.regrouped`).  Nothing else
may be changed: the length of a decoy tells its number of coefficients
(`Decoy.dataSizeFor_injective`), so requests for other numbers, or for the same
numbers in another order, give other decoys.
-/

set_option autoImplicit false

namespace RingLwe

namespace Decoy

/-- The loop takes the full decoys in front one by one. -/
theorem countsFrom_add_full {dimension : Nat} (positive : 0 < dimension) (full rest : Nat) :
    countsFrom dimension (full * dimension + rest) =
      List.replicate full dimension ++ countsFrom dimension rest := by
  induction full with
  | zero => rw [Nat.zero_mul, Nat.zero_add, List.replicate_zero, List.nil_append]
  | succ full ih =>
    have whole : (full + 1) * dimension + rest = full * dimension + rest + dimension := by
      rw [Nat.succ_mul, Nat.add_right_comm]
    rw [countsFrom, if_neg (by omega), whole, Nat.min_eq_right (Nat.le_add_left ..),
      Nat.add_sub_cancel, ih, List.replicate_succ, List.cons_append]

theorem blobs_append (context : Context) (first second : List Nat) :
    blobs context (first ++ second) = do
      let here ← blobs context first
      let later ← blobs context second
      return here ++ later :=
  List.mapM_append

section Lawful

variable {context : Context} (lawful : context.Lawful)
include lawful

theorem dataSizeFor_injective : Function.Injective (Ciphertext.dataSizeFor context) := by
  intro left right same
  have words : left * context.primeCount = right * context.primeCount := by
    simp only [Ciphertext.dataSizeFor, Wire.objectLength] at same
    omega
  exact Nat.eq_of_mul_eq_mul_right lawful.primeCount_pos words

theorem lengths_blobs {counts : List Nat} (fit : ∀ count ∈ counts, count ≤ context.dimension) :
    Stream.Gives (blobs context counts) fun blobs =>
      blobs.map List.length = counts.map (Ciphertext.dataSizeFor context) := by
  refine (isData_blobs lawful fit).mono fun blobs valid => ?_
  induction valid with
  | nil => rfl
  | cons here _ ih =>
    rw [List.map_cons, List.map_cons, here.length, ih (List.forall_mem_cons.mp fit).2]

end Lawful

end Decoy

namespace DecoySampler

/-! ## Requests -/

/-- A request to a sampler: full decoys, or decoys for a number of coefficients. -/
inductive Request where
  | full (count : Nat)
  | coefficients (samples : Nat)
deriving DecidableEq, Repr

/-- The numbers of coefficients of the decoys that a request asks for. -/
def Request.counts (dimension : Nat) : Request → List Nat
  | full count => List.replicate count dimension
  | coefficients samples => Decoy.countsFrom dimension samples

/-- The decoys for a request, and the sampler after them. -/
def answer (sampler : DecoySampler) : Request → List (List UInt8) × DecoySampler
  | .full count => sampler.sample count
  | .coefficients samples => sampler.sampleCoefficients samples

/-- The decoys for a list of requests, each answered by the sampler that the one before it leaves,
and the sampler after them. -/
def collect : (sampler : DecoySampler) → (requests : List Request) →
    List (List UInt8) × DecoySampler
  | sampler, [] => ([], sampler)
  | sampler, request :: requests =>
    let (here, next) := sampler.answer request
    let (later, last) := next.collect requests
    (here ++ later, last)

/-- The numbers of coefficients of the decoys that a list of requests asks for. -/
def allCounts (dimension : Nat) (requests : List Request) : List Nat :=
  requests.flatMap (Request.counts dimension)

theorem allCounts_nil (dimension : Nat) : allCounts dimension [] = [] :=
  rfl

theorem allCounts_cons (dimension : Nat) (request : Request) (requests : List Request) :
    allCounts dimension (request :: requests) =
      request.counts dimension ++ allCounts dimension requests :=
  List.flatMap_cons

/-- No decoy has more coefficients than the ring. -/
theorem le_dimension_of_mem_allCounts {dimension count : Nat} (positive : 0 < dimension)
    {requests : List Request} (member : count ∈ allCounts dimension requests) :
    count ≤ dimension := by
  obtain ⟨request, _, inside⟩ := List.mem_flatMap.mp member
  cases request with
  | full number => exact Nat.le_of_eq (List.eq_of_mem_replicate inside)
  | coefficients samples =>
    rw [Request.counts, Decoy.countsFrom_eq_map positive] at inside
    obtain ⟨index, _, rfl⟩ := List.mem_map.mp inside
    exact Nat.min_le_left _ _

variable (sampler : DecoySampler)

/-- Decoys of two lists of numbers, and the sampler after both of them. -/
theorem run_blobs_append (first second : List Nat) :
    sampler.run (Decoy.blobs sampler.context (first ++ second)) =
      ((sampler.run (Decoy.blobs sampler.context first)).1 ++
          ((sampler.run (Decoy.blobs sampler.context first)).2.run
            (Decoy.blobs sampler.context second)).1,
        ((sampler.run (Decoy.blobs sampler.context first)).2.run
          (Decoy.blobs sampler.context second)).2) := by
  rw [Decoy.blobs_append]
  rfl

theorem context_answer (request : Request) :
    (sampler.answer request).2.context = sampler.context := by
  cases request <;> rfl

theorem collect_cons (request : Request) (requests : List Request) :
    sampler.collect (request :: requests) =
      ((sampler.answer request).1 ++ ((sampler.answer request).2.collect requests).1,
        ((sampler.answer request).2.collect requests).2) :=
  rfl

theorem collect_singleton (request : Request) :
    sampler.collect [request] = sampler.answer request := by
  rw [collect_cons, collect, List.append_nil]

section Positive

variable {sampler} (positive : 0 < sampler.context.dimension)
include positive

theorem answer_eq (request : Request) : sampler.answer request =
    sampler.run (Decoy.blobs sampler.context (request.counts sampler.context.dimension)) := by
  cases request with
  | full count => rfl
  | coefficients samples =>
    rw [Request.counts, Decoy.countsFrom_eq_blobCounts positive]
    rfl

/-- Requests draw decoys of the numbers for which they ask, joined in order. -/
theorem collect_eq (requests : List Request) : sampler.collect requests =
    sampler.run (Decoy.blobs sampler.context (allCounts sampler.context.dimension requests)) := by
  induction requests generalizing sampler with
  | nil => rfl
  | cons request requests ih =>
    have rest := @ih (sampler.answer request).2 (by rwa [context_answer])
    rw [context_answer] at rest
    rw [collect_cons, rest, allCounts_cons, run_blobs_append, answer_eq positive]

/-- Requests for the same numbers, joined in order, give the same decoys and leave the same sampler,
however they are grouped. -/
theorem collect_congr {first second : List Request}
    (same : allCounts sampler.context.dimension first =
      allCounts sampler.context.dimension second) :
    sampler.collect first = sampler.collect second := by
  rw [collect_eq positive, collect_eq positive, same]

end Positive

theorem lengths_collect (lawful : sampler.context.Lawful) (requests : List Request) :
    (sampler.collect requests).1.map List.length =
      (allCounts sampler.context.dimension requests).map
        (Ciphertext.dataSizeFor sampler.context) := by
  rw [collect_eq lawful.dimension_pos]
  exact Decoy.lengths_blobs lawful
    (fun _ member => le_dimension_of_mem_allCounts lawful.dimension_pos member) sampler.stream

/-! ## Grouping -/

/-- A sampler whose context was built, in whatever state its stream is, answers requests as if they
were one.  Two requests for full decoys are one for all of them, and full decoys come first in
a request for coefficients.  The decoys have the sizes for which the requests ask.  Any two lists of
requests that ask for the same numbers of coefficients, joined in order, give the same decoys and
leave the same sampler, and only such lists give the same decoys. -/
theorem regrouped {parameters : Parameters}
    (built : Context.ofParameters parameters = .ok sampler.context) :
    (∀ first second,
      sampler.collect [.full first, .full second] = sampler.sample (first + second)) ∧
    (∀ full rest, sampler.collect [.full full, .coefficients rest] =
      sampler.sampleCoefficients (full * sampler.context.dimension + rest)) ∧
    (∀ requests, (sampler.collect requests).1.map List.length =
      (allCounts sampler.context.dimension requests).map
        (Ciphertext.dataSizeFor sampler.context)) ∧
    ∀ first second,
      (allCounts sampler.context.dimension first = allCounts sampler.context.dimension second →
        sampler.collect first = sampler.collect second) ∧
      ((sampler.collect first).1 = (sampler.collect second).1 →
        allCounts sampler.context.dimension first =
          allCounts sampler.context.dimension second) := by
  have lawful := Context.lawful_of_ofParameters built
  have positive := lawful.dimension_pos
  refine ⟨fun first second => ?_, fun full rest => ?_, sampler.lengths_collect lawful,
    fun first second => ⟨collect_congr positive, fun same => ?_⟩⟩
  · refine (collect_congr positive ?_).trans (collect_singleton sampler (.full (first + second)))
    simp only [allCounts_cons, allCounts_nil, List.append_nil, Request.counts,
      List.replicate_append_replicate]
  · refine (collect_congr positive ?_).trans (collect_singleton sampler (.coefficients _))
    simp only [allCounts_cons, allCounts_nil, List.append_nil, Request.counts,
      Decoy.countsFrom_add_full positive]
  · have lengths := sampler.lengths_collect lawful first
    rw [same, sampler.lengths_collect lawful second] at lengths
    exact (List.map_injective_iff.mpr (Decoy.dataSizeFor_injective lawful) lengths).symm

/-- With the preset of 32 bits, a seed gives one full decoy, five coefficients and two more full decoys
in whichever way they are grouped, and other decoys if the five coefficients are asked for first. -/
theorem regrouped_preset : ∃ context,
    Context.ofParameters (Parameters.preset .bits32) = .ok context ∧
      (ofSeed context (Vector.replicate 8 0)).collect
          [.full 1, .coefficients 5, .full 1, .full 1] =
        (ofSeed context (Vector.replicate 8 0)).collect [.coefficients 2053, .full 2] ∧
      ((ofSeed context (Vector.replicate 8 0)).collect [.full 1, .coefficients 5]).1 ≠
        ((ofSeed context (Vector.replicate 8 0)).collect [.coefficients 5, .full 1]).1 := by
  obtain ⟨context, built⟩ := Context.exists_preset .bits32
  have dimension : (ofSeed context (Vector.replicate 8 0)).context.dimension = 2048 :=
    (Context.preset_spec built).1
  obtain ⟨_, _, _, grouped⟩ := regrouped (ofSeed context (Vector.replicate 8 0)) built
  rw [dimension] at grouped
  refine ⟨context, built, (grouped _ _).1 ?_, fun same => ?_⟩
  · simp only [allCounts_cons, allCounts_nil, Request.counts,
      Decoy.countsFrom_eq_blobCounts (by decide : 0 < 2048)]
    decide
  · have counts := (grouped _ _).2 same
    simp only [allCounts_cons, allCounts_nil, Request.counts,
      Decoy.countsFrom_eq_blobCounts (by decide : 0 < 2048)] at counts
    revert counts
    decide

end DecoySampler

end RingLwe
