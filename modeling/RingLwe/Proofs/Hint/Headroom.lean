import RingLwe.Proofs.Hint
import RingLwe.Proofs.Transform.Inversion
import RingLwe.Proofs.Transform.LazySums

/-!
# The headroom of a hint

A row of a hint adds up one product for each seed, without reduction.  The check
of the dimensions admits as many seeds as products of the largest prime fit a
word, and that is enough for every row: none of its operations leaves its range
(`Hint.accumulateRow?_eq`).  It is a case of what holds of every transform
(`Hint.lazy_sums_exact`).
-/

set_option autoImplicit false

namespace RingLwe.Hint

/-! ## Rows with their ranges -/

/-- The pairs of buffers whose products are added up for a row. -/
def rowPairs (context : Context) (publics : List PublicPoly) (row : List UInt32) :
    List (List UInt64 × List UInt64) :=
  (publics.zip (components context.dimension publics.length row)).map fun (a, block) =>
    (context.transform.forward (blockResidues context block), a.poly.residues)

/-- The sum of the products of the blocks of a row with public polynomials, with its ranges. -/
def accumulateRow? (context : Context) (publics : List PublicPoly) (row : List UInt32) :
    Option (List UInt64) :=
  let transform := context.transform
  let blocks := components context.dimension publics.length row
  (publics.zip blocks).foldlM
    (fun sums (a, block) => do
      let encoded ← transform.forward? (blockResidues context block)
      transform.accumulate? sums encoded a.poly.residues)
    (List.replicate transform.bufferLength 0)

theorem accumulateRow_eq (context : Context) (publics : List PublicPoly) (row : List UInt32) :
    accumulateRow context publics row =
      context.transform.accumulateAll (rowPairs context publics row) := by
  rw [accumulateRow, Transform.accumulateAll, rowPairs, List.foldl_map]

section Row

variable {context : Context} (lawful : context.Lawful)
include lawful

/-- The forward transforms of the blocks are never refused. -/
theorem accumulateRow?_eq_accumulateAll? (publics : List PublicPoly) (row : List UInt32) :
    accumulateRow? context publics row =
      context.transform.accumulateAll? (rowPairs context publics row) := by
  rw [accumulateRow?, Transform.accumulateAll?, rowPairs, List.foldlM_map]
  refine foldlM_congr (fun pair member sums => ?_) _
  have full := lawful.full_buffer (length_blockResidues (length_of_mem_zip_blocks row pair member))
  dsimp only
  rw [lawful.transform_spec.1.forward?_eq full]
  rfl

theorem operands_rowPairs (seeds : List Seed) (row : List UInt32) :
    ∀ pair ∈ rowPairs context (transposedPublics context seeds) row,
      context.transform.Operands pair := by
  obtain ⟨sound, size, moduli⟩ := lawful.transform_spec
  intro pair member
  obtain ⟨⟨a, block⟩, inside, rfl⟩ := List.mem_map.mp member
  have short := length_of_mem_zip_blocks row (a, block) inside
  obtain ⟨_, belongs⟩ := (reachable_of_mem_transposedPublics context seeds a
    (List.of_mem_zip inside).1).belongs lawful
  have reduced := belongs.reduced
  rw [← size, ← moduli] at reduced
  exact ⟨Transform.length_forward (lawful.full_buffer (length_blockResidues short)),
    lawful.full_buffer belongs.full, reduced⟩

/-- Within the headroom no word of the sums of a row overflows. -/
theorem accumulateRow?_eq {seeds : List Seed} (few : seeds.length ≤ headroom context)
    (row : List UInt32) :
    accumulateRow? context (transposedPublics context seeds) row =
      some (accumulateRow context (transposedPublics context seeds) row) := by
  obtain ⟨sound, _, moduli⟩ := lawful.transform_spec
  have bounded : ∀ q ∈ context.transform.moduli, q.toNat ≤ context.basis.maxModulus.toNat := by
    intro q member
    rw [moduli] at member
    exact Basis.le_maxModulus member
  have many : (rowPairs context (transposedPublics context seeds) row).length = seeds.length := by
    rw [rowPairs, List.length_map, length_zip_publics]
  rw [accumulateRow?_eq_accumulateAll? lawful, accumulateRow_eq]
  refine (sound.accumulateAll?_eq bounded (operands_rowPairs lawful seeds row) ?_).1
  rw [many]
  exact room_of_quotient few

end Row

/-- Lazy accumulation loses nothing.  For every transform of primes below `2^63`, and as many pairs
of reduced buffers as the largest word has multiples of the largest prime, no word overflows when
the products of the pairs are added to zeros, and the reduced words are the sums of the products
modulo their primes.  The number of seeds that the check of the dimensions admits keeps within that
limit, whatever the matrix is: no operation for a row leaves its range. -/
theorem lazy_sums_exact :
    (∀ (depth : Nat) (moduli : List UInt64) (transform : Transform),
      (∀ q ∈ moduli, Nat.Prime q.toNat) → (∀ q ∈ moduli, q.toNat < 2 ^ 63) →
      Transform.ofModuli (2 ^ depth) moduli = .ok transform →
      ∀ largest ∈ moduli, (∀ q ∈ moduli, q ≤ largest) →
      ∀ pairs : List (List UInt64 × List UInt64),
        pairs.length ≤ (UInt64.size - 1) / largest.toNat →
        (∀ pair ∈ pairs,
          pair.1 ∈ reducedBuffers depth moduli ∧ pair.2 ∈ reducedBuffers depth moduli) →
        transform.accumulateAll? pairs = some (transform.accumulateAll pairs) ∧
          (transform.reduce (transform.accumulateAll pairs)).length = 2 ^ depth * moduli.length ∧
          ∀ index q, moduli[index]? = some q → ∀ position < 2 ^ depth,
            ((transform.reduce (transform.accumulateAll pairs)).getD
                (index * 2 ^ depth + position) 0).toNat =
              (pairs.map fun pair => ((transform.pointwise pair.1 pair.2).getD
                (index * 2 ^ depth + position) 0).toNat).sum % q.toNat) ∧
    ∀ (parameters : Parameters) (context : Context),
      Context.ofParameters parameters = .ok context →
      ∀ (matrix : List UInt32) (rows columns : Nat) (seeds : List Seed),
        checkDimensions context matrix rows columns seeds = .ok () →
        ∀ row : List UInt32,
          accumulateRow? context (transposedPublics context seeds) row =
            some (accumulateRow context (transposedPublics context seeds) row) := by
  refine ⟨?_, ?_⟩
  · intro depth moduli transform primes bounded built largest _ greatest pairs few reduced
    obtain ⟨rooted, rfl, rfl, length⟩ := Transform.spec_of_ofModuli primes bounded built
    have operands : ∀ pair ∈ pairs, transform.Operands pair := by
      intro pair member
      obtain ⟨left, right⟩ := reduced pair member
      obtain ⟨rightFull, rightReduced⟩ := Transform.mem_reducedBuffers.mp right
      exact ⟨(Transform.mem_reducedBuffers.mp left).1, rightFull, rightReduced⟩
    obtain ⟨answered, sums⟩ := rooted.sound.accumulateAll?_eq
      (fun q member => UInt64.le_iff_toNat_le.mp (greatest q member)) operands
      (room_of_quotient few)
    refine ⟨answered, (Transform.length_reduce sums.full).trans length, ?_⟩
    rw [← Transform.size_eq]
    exact fun index q present position inside => sums.getD_reduce present inside
  · intro parameters context built matrix rows columns seeds accepted row
    obtain ⟨_, _, few⟩ := checkDimensions_eq_ok accepted
    exact accumulateRow?_eq (Context.lawful_of_ofParameters built) few row

/-- Three squares of a buffer for two primes are added up, and so are the products of a row over two
blocks in the preset of 64 bits. -/
theorem lazy_sums_small : (∃ transform, Transform.ofModuli (2 ^ 1) [5, 13] = .ok transform ∧
      ∃ sums, transform.accumulateAll? (List.replicate 3 ([4, 0, 12, 7], [4, 0, 12, 7])) =
          some sums ∧
        ((transform.reduce sums).getD 2 0).toNat = 3 * ((transform.pointwise [4, 0, 12, 7]
          [4, 0, 12, 7]).getD 2 0).toNat % 13) ∧
    ∃ context, Context.ofParameters (Parameters.preset .bits64) = .ok context ∧
      checkDimensions context (List.replicate 4097 3 ++ List.replicate 4097 5) 2 4097
        [Vector.replicate 8 0, Vector.replicate 8 1] = .ok () ∧
      ∃ sums, accumulateRow? context (transposedPublics context
        [Vector.replicate 8 0, Vector.replicate 8 1]) (List.replicate 4097 5) = some sums := by
  obtain ⟨transforms, contexts⟩ := lazy_sums_exact
  refine ⟨?_, ?_⟩
  · have reduced : [4, 0, 12, 7] ∈ reducedBuffers 1 [5, 13] := by
      refine ⟨rfl, ?_⟩
      rintro (_ | _ | index) q present
      · cases present
        simp [run]
      · cases present
        simp [run]
      · cases present
    obtain ⟨transform, built⟩ := @Transform.exists_ofModuli 1 [5, 13] (by simp)
      Transform.prime_of_mem_five_thirteen (by simp)
    obtain ⟨answered, _, exact⟩ := transforms 1 [5, 13] transform
      Transform.prime_of_mem_five_thirteen (by simp) built 13 (by simp) (by simp)
      (List.replicate 3 ([4, 0, 12, 7], [4, 0, 12, 7])) (by simp [UInt64.size])
      (fun pair member => by rw [List.eq_of_mem_replicate member]; exact ⟨reduced, reduced⟩)
    have third := exact 1 13 rfl 0 (by decide)
    rw [List.map_replicate, List.sum_replicate, smul_eq_mul] at third
    exact ⟨transform, built, _, answered, third⟩
  · obtain ⟨context, built⟩ := Context.exists_preset .bits64
    have accepted := accepts_two_blocks built
    exact ⟨context, built, accepted, _,
      contexts _ context built _ 2 4097 _ accepted (List.replicate 4097 5)⟩

end RingLwe.Hint
