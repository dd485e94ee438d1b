import RingLwe.Hint
import RingLwe.Proofs.PublicPoly
import RingLwe.Proofs.Switching
import RingLwe.Proofs.Transform.Accumulation

/-!
# Rows of a hint

The blocks of a row are padded residues (`run_blockResidues`).  Their products
with public polynomials are accumulated without overflow as long as their
number is within the headroom (`room_of_headroom`), so the transformed sums
denote the sum of the products modulo `X^n + 1` (`accumulates_blocks`), and the
product of a row is that sum modulo every prime (`classOf_product`).
-/

set_option autoImplicit false

namespace RingLwe.Hint

open Residue ResiduePoly

/-! ## Blocks -/

/-- The residues of a block modulo a prime, padded with zeros. -/
def paddedBlock (dimension : Nat) (block : List UInt32) (q : UInt64) : List UInt64 :=
  block.map (·.toUInt64 % q) ++ List.replicate (dimension - block.length) 0

theorem blockResidues_eq (context : Context) (block : List UInt32) :
    blockResidues context block =
      (context.moduli.map (paddedBlock context.dimension block)).flatten :=
  List.flatMap_def

section Block

variable {context : Context} {block : List UInt32} (fits : block.length ≤ context.dimension)
include fits

theorem length_paddedBlock (q : UInt64) :
    (paddedBlock context.dimension block q).length = context.dimension := by
  rw [paddedBlock, List.length_append, List.length_map, List.length_replicate]
  omega

theorem length_of_mem_paddedBlocks :
    ∀ words ∈ context.moduli.map (paddedBlock context.dimension block),
      words.length = context.dimension := by
  intro words member
  obtain ⟨q, _, rfl⟩ := List.mem_map.mp member
  exact length_paddedBlock fits q

theorem length_blockResidues :
    (blockResidues context block).length = context.dimension * context.primeCount := by
  rw [blockResidues_eq, length_flatten_of_even _ (length_of_mem_paddedBlocks fits),
    List.length_map, Context.Lawful.length_moduli]

theorem run_blockResidues {index : Nat} {q : UInt64} (present : context.moduli[index]? = some q) :
    run context.dimension (blockResidues context block) index =
      paddedBlock context.dimension block q := by
  rw [blockResidues_eq]
  refine run_flatten (length_of_mem_paddedBlocks fits) ?_
  rw [List.getElem?_map, present, Option.map_some]

/-- The class of a residue of a block is that of its entry, and zero behind the block. -/
theorem getD_classesAt_blockResidues {index position : Nat} {q : UInt64}
    (present : context.moduli[index]? = some q) :
    (classesAt q context.dimension (blockResidues context block) index).getD position 0 =
      ((block.getD position 0).toNat : ZMod q.toNat) := by
  rw [classesAt, run_blockResidues fits present, paddedBlock, List.map_append, List.map_map,
    List.map_replicate, classOf_zero]
  rcases Nat.lt_or_ge position block.length with given | behind
  · rw [List.getD_append _ _ _ _ (by rw [List.length_map]; exact given),
      getD_map _ _ given 0 0, Function.comp_apply, classOf_mod, classOf, UInt32.toNat_toUInt64]
  · rw [List.getD_append_right _ _ _ _ (by rw [List.length_map]; exact behind),
      List.getD_eq_default _ _ behind, UInt32.toNat_zero, Nat.cast_zero, List.length_map]
    rcases Nat.lt_or_ge (position - block.length) (context.dimension - block.length)
      with padded | beyond
    · exact List.getD_replicate _ padded
    · exact List.getD_eq_default _ _ (by rw [List.length_replicate]; exact beyond)

end Block

/-! ## Accumulation -/

/-- What a block and a public polynomial add to a coefficient of the product of a row, from the
classes of the coefficients of the polynomial. -/
def blockTerm (context : Context) (q : UInt64) (index column : Nat) (a : PublicPoly)
    (block : List UInt32) : ZMod q.toNat :=
  ∑ position ∈ Finset.range context.dimension,
    Negacyclic.entry context.dimension
        (classesAt q context.dimension a.coefficients.residues index) column position *
      ((block.getD position 0).toNat : ZMod q.toNat)

/-- The sums after a block of a row. -/
def accumulateBlock (context : Context) (sums : List UInt64) (pair : PublicPoly × List UInt32) :
    List UInt64 :=
  context.transform.accumulate sums (context.transform.forward (blockResidues context pair.2))
    pair.1.poly.residues

/-- The sums after the blocks of a row. -/
def accumulateBlocks (context : Context) (pairs : List (PublicPoly × List UInt32))
    (sums : List UInt64) : List UInt64 :=
  pairs.foldl (accumulateBlock context) sums

/-- Within the headroom no sum of products leaves its word. -/
theorem room_of_headroom {context : Context} {q : UInt64} (member : q ∈ context.moduli) {terms : Nat}
    (few : terms ≤ headroom context) : terms * (q.toNat - 1) < UInt64.size := by
  have largest : q.toNat - 1 ≤ context.basis.maxModulus.toNat - 1 :=
    Nat.sub_le_sub_right (Basis.le_maxModulus member) 1
  exact Nat.lt_of_le_of_lt (Nat.mul_le_mul_left terms largest) (room_of_quotient few)

section Single

variable {context : Context} (lawful : context.Lawful) {pair : PublicPoly × List UInt32}
  (reachable : pair.1.Reachable context) (fits : pair.2.length ≤ context.dimension)
include lawful reachable fits

theorem length_accumulateBlock {sums : List UInt64}
    (full : sums.length = context.dimension * context.primeCount) :
    (accumulateBlock context sums pair).length = context.dimension * context.primeCount := by
  have publicFull := (reachable.belongs lawful).2.full
  have blockFull := lawful.length_forward (length_blockResidues fits)
  rw [← lawful.bufferLength_eq] at full publicFull blockFull ⊢
  exact Transform.length_accumulate full blockFull publicFull

variable {index : Nat} {channel : Channel}
  (found : context.transform.channels[index]? = some channel)
include found

/-- A block adds, modulo a prime, the product of its transform with that of its polynomial. -/
theorem run_accumulateBlock (sums : List UInt64) :
    run context.dimension (accumulateBlock context sums pair) index =
      List.zipWith (· + ·) (run context.dimension sums index)
        (channel.pointwise
          (channel.forward context.transform.depth
            (run context.transform.size (blockResidues context pair.2) index))
          (channel.forward context.transform.depth
            (run context.transform.size pair.1.coefficients.residues index))) := by
  obtain ⟨coefficients, transformed⟩ := reachable.coefficients_spec lawful
  have residues : pair.1.poly.residues =
      context.transform.forward pair.1.coefficients.residues := by
    rw [transformed, toTransformed, coefficients.domain]
  have blockFull := lawful.full_buffer (length_blockResidues fits)
  have publicFull := lawful.full_buffer coefficients.full
  rw [accumulateBlock, residues, ← lawful.transform_spec.2.1,
    Transform.run_accumulate _ (Transform.length_forward blockFull)
      (Transform.length_forward publicFull) found, Transform.run_forward blockFull found,
    Transform.run_forward publicFull found]

omit reachable in
/-- The product of a polynomial with a block has its term at every coefficient. -/
theorem getD_product_block {column : Nat} (inside : column < context.dimension) :
    (Negacyclic.product (2 ^ context.transform.depth)
        (channel.classes (run context.transform.size pair.1.coefficients.residues index))
        (channel.classes
          (run context.transform.size (blockResidues context pair.2) index))).getD column 0 =
      blockTerm context channel.modulus index column pair.1 pair.2 := by
  obtain ⟨_, size, moduli⟩ := lawful.transform_spec
  have present : context.moduli[index]? = some channel.modulus := by
    rw [← moduli]
    exact Transform.modulus_present found
  rw [← Transform.size_eq, size, Negacyclic.getD_product _ _ inside]
  refine Finset.sum_congr rfl ?_
  intro position _
  exact congrArg _ (getD_classesAt_blockResidues fits present)

/-- The sums after one more block denote the transform of the sum with its term. -/
theorem accumulates_block {terms : Nat}
    (room : (terms + 1) * (channel.modulus.toNat - 1) < UInt64.size) {sums : List UInt64}
    {values : List (ZMod channel.modulus.toNat)}
    (accumulates : Channel.Accumulates channel context.transform.depth terms
      (run context.dimension sums index) values) :
    ∃ results, Channel.Accumulates channel context.transform.depth (terms + 1)
        (run context.dimension (accumulateBlock context sums pair) index) results ∧
      ∀ column < context.dimension, results.getD column 0 =
        values.getD column 0 + blockTerm context channel.modulus index column pair.1 pair.2 := by
  obtain ⟨sound, size, _⟩ := lawful.transform_spec
  obtain ⟨coefficients, _⟩ := reachable.coefficients_spec lawful
  have next := Channel.accumulates_add (sound.channel found) accumulates room
    (Transform.length_run_pow (lawful.full_buffer (length_blockResidues fits)) found)
    (Transform.length_run_pow (lawful.full_buffer coefficients.full) found)
  rw [← run_accumulateBlock lawful reachable fits found] at next
  refine ⟨_, next, fun column inside => ?_⟩
  have long : column < 2 ^ context.transform.depth := by
    rw [← Transform.size_eq, size]
    exact inside
  rw [getD_zipWith _ _ _ (by rw [accumulates.full]; exact long)
    (by rw [Negacyclic.length_product]; exact long) 0 0 0,
    getD_product_block lawful fits found inside]

end Single

section Accumulate

variable {context : Context} (lawful : context.Lawful) {pairs : List (PublicPoly × List UInt32)}
  (reachable : ∀ pair ∈ pairs, pair.1.Reachable context)
  (fits : ∀ pair ∈ pairs, pair.2.length ≤ context.dimension)
include lawful reachable fits

theorem length_accumulateBlocks {sums : List UInt64}
    (full : sums.length = context.dimension * context.primeCount) :
    (accumulateBlocks context pairs sums).length = context.dimension * context.primeCount := by
  induction pairs generalizing sums with
  | nil => exact full
  | cons pair pairs ih =>
    obtain ⟨first, others⟩ := List.forall_mem_cons.mp reachable
    obtain ⟨short, rest⟩ := List.forall_mem_cons.mp fits
    exact ih others rest (length_accumulateBlock lawful first short full)

/-- The sums after the blocks of a row denote the transform of the sum of their terms. -/
theorem accumulates_blocks {index : Nat} {channel : Channel}
    (found : context.transform.channels[index]? = some channel) {terms : Nat}
    (room : (terms + pairs.length) * (channel.modulus.toNat - 1) < UInt64.size)
    {sums : List UInt64} {values : List (ZMod channel.modulus.toNat)}
    (accumulates : Channel.Accumulates channel context.transform.depth terms
      (run context.dimension sums index) values) :
    ∃ results, Channel.Accumulates channel context.transform.depth (terms + pairs.length)
        (run context.dimension (accumulateBlocks context pairs sums) index) results ∧
      ∀ column < context.dimension, results.getD column 0 = values.getD column 0 +
        (pairs.map fun pair => blockTerm context channel.modulus index column pair.1 pair.2).sum := by
  induction pairs generalizing terms sums values with
  | nil =>
    refine ⟨values, accumulates, fun column _ => ?_⟩
    rw [List.map_nil, List.sum_nil, add_zero]
  | cons pair pairs ih =>
    obtain ⟨first, others⟩ := List.forall_mem_cons.mp reachable
    obtain ⟨short, rest⟩ := List.forall_mem_cons.mp fits
    rw [List.length_cons, Nat.add_comm pairs.length, ← Nat.add_assoc] at room ⊢
    obtain ⟨sum, added, each⟩ := accumulates_block lawful first short found
      (Nat.lt_of_le_of_lt (Nat.mul_le_mul_right _ (Nat.le_add_right _ _)) room) accumulates
    obtain ⟨results, accumulated, total⟩ := ih others rest room added
    refine ⟨results, accumulated, fun column inside => ?_⟩
    rw [total column inside, each column inside, List.map_cons, List.sum_cons, add_assoc]

end Accumulate

/-! ## Products -/

/-- The coefficients of the public polynomial of a seed modulo the prime of the given number. -/
def seedCoefficients (context : Context) (seed : Seed) (index : Nat) : List Int :=
  ((PublicPoly.derive context seed).coefficients.component index).map fun word => (word.toNat : Int)

/-- An entry of the stacked matrices of the public polynomials of seeds modulo the prime of the
given number. -/
def stackedEntry (context : Context) (seeds : List Seed) (index row column : Nat) : Int :=
  Negacyclic.entry context.dimension
    (seedCoefficients context (seeds.getD (row / context.dimension) (Vector.replicate 8 0)) index)
    (row % context.dimension) column

theorem sum_blocks {R : Type} [AddCommMonoid R] (summand : Nat → R) (count length : Nat) :
    ∑ block ∈ Finset.range count, ∑ position ∈ Finset.range length,
        summand (block * length + position) =
      ∑ position ∈ Finset.range (count * length), summand position := by
  induction count with
  | zero => rw [Nat.zero_mul, Finset.sum_range_zero, Finset.sum_range_zero]
  | succ count ih => rw [Finset.sum_range_succ, ih, Nat.succ_mul, Finset.sum_range_add]

theorem sum_eq_sum_range {R : Type} [AddCommMonoid R] (items : List R) :
    items.sum = ∑ index ∈ Finset.range items.length, items.getD index 0 := by
  induction items with
  | nil => rfl
  | cons first items ih =>
    rw [List.sum_cons, List.length_cons, Finset.sum_range_succ', ih, add_comm]
    rfl

section Product

variable {context : Context} (lawful : context.Lawful)
include lawful

/-- The classes of the coefficients of a derived polynomial are those of their integers. -/
theorem classesAt_derive (seed : Seed) (q : UInt64) (index : Nat) :
    classesAt q context.dimension (PublicPoly.derive context seed).coefficients.residues index =
      (seedCoefficients context seed index).map (Int.castRingHom (ZMod q.toNat)) := by
  have derived : PublicPoly.Reachable context (PublicPoly.derive context seed) := .derive seed
  obtain ⟨coefficients, _⟩ := derived.coefficients_spec lawful
  rw [seedCoefficients, List.map_map, component, coefficients.size, classesAt]
  refine List.map_congr_left ?_
  intro word _
  rw [Function.comp_apply, classOf, eq_intCast, Int.cast_natCast]

/-- What a block adds through a transposed public polynomial, by the entries of the matrix of the
polynomial itself. -/
theorem blockTerm_transpose (seed : Seed) {index column : Nat} {q : UInt64}
    (present : context.moduli[index]? = some q) (inside : column < context.dimension)
    (block : List UInt32) :
    blockTerm context q index column (PublicPoly.derive context seed).transpose block =
      ∑ position ∈ Finset.range context.dimension,
        ((Negacyclic.entry context.dimension (seedCoefficients context seed index) position column :
          Int) : ZMod q.toNat) * ((block.getD position 0).toNat : ZMod q.toNat) := by
  have derived : PublicPoly.Reachable context (PublicPoly.derive context seed) := .derive seed
  obtain ⟨coefficients, _⟩ := derived.coefficients_spec lawful
  refine Finset.sum_congr rfl ?_
  intro position member
  rw [derived.coefficients_transpose lawful,
    PublicPoly.entry_transposeCoefficients coefficients present inside (Finset.mem_range.mp member),
    classesAt_derive lawful, Negacyclic.entry_map, eq_intCast]

variable {seeds : List Seed} (few : seeds.length ≤ headroom context)

omit lawful in
/-- A public polynomial of the seeds beside its block. -/
theorem getElem?_zip_publics (seeds : List Seed) (row : List UInt32) {block : Nat}
    (inside : block < seeds.length) :
    ((transposedPublics context seeds).zip
        (components context.dimension (transposedPublics context seeds).length row))[block]? =
      some ((PublicPoly.derive context (seeds.getD block (Vector.replicate 8 0))).transpose,
        run context.dimension row block) := by
  have many : (transposedPublics context seeds).length = seeds.length := List.length_map _
  refine List.getElem?_zip_eq_some.mpr ⟨?_, ?_⟩
  · rw [transposedPublics, List.getElem?_map, List.getElem?_eq_getElem inside, Option.map_some,
      List.getD_eq_getElem _ _ inside]
  · exact getElem?_components _ _ (by rw [many]; exact inside)

omit lawful in
theorem length_zip_publics (context : Context) (seeds : List Seed) (row : List UInt32) :
    ((transposedPublics context seeds).zip (components context.dimension
      (transposedPublics context seeds).length row)).length = seeds.length := by
  rw [List.length_zip, length_components, Nat.min_self, transposedPublics, List.length_map]

omit lawful in
theorem reachable_of_mem_transposedPublics (context : Context) (seeds : List Seed) :
    ∀ a ∈ transposedPublics context seeds, a.Reachable context := by
  intro a member
  obtain ⟨seed, _, rfl⟩ := List.mem_map.mp member
  exact .transpose (.derive seed)

omit lawful in
theorem reachable_transposedPublics (seeds : List Seed) (blocks : List (List UInt32)) :
    ∀ pair ∈ (transposedPublics context seeds).zip blocks, pair.1.Reachable context := by
  intro pair member
  exact reachable_of_mem_transposedPublics context seeds _ (List.of_mem_zip member).1

omit lawful in
theorem length_of_mem_zip_blocks {publics : List PublicPoly} {count : Nat} (row : List UInt32) :
    ∀ pair ∈ publics.zip (components context.dimension count row),
      pair.2.length ≤ context.dimension := by
  intro pair member
  have second := (List.of_mem_zip member).2
  rw [components_eq_map] at second
  obtain ⟨index, _, cut⟩ := List.mem_map.mp second
  rw [← cut]
  exact List.length_take_le _ _

theorem length_accumulateRow (seeds : List Seed) (row : List UInt32) :
    (accumulateRow context (transposedPublics context seeds) row).length =
      context.dimension * context.primeCount :=
  length_accumulateBlocks lawful (reachable_transposedPublics seeds _)
    (length_of_mem_zip_blocks row) (by rw [List.length_replicate, lawful.bufferLength_eq])

section Entry

variable {row : List UInt32} {index column : Nat} {q : UInt64}
  (present : context.moduli[index]? = some q) (inside : column < context.dimension)
include present inside

include few in
/-- The product of a row has the sum of the terms of its blocks at every coefficient. -/
theorem getD_product_row :
    (classesAt q context.dimension (context.transform.inverse (context.transform.reduce
        (accumulateRow context (transposedPublics context seeds) row))) index).getD column 0 =
      (((transposedPublics context seeds).zip
          (components context.dimension (transposedPublics context seeds).length row)).map
        fun pair => blockTerm context q index column pair.1 pair.2).sum := by
  obtain ⟨sound, size, _⟩ := lawful.transform_spec
  obtain ⟨channel, found, rfl⟩ := lawful.channel_present present
  have sumsFull := lawful.full_buffer (length_accumulateRow lawful seeds row)
  have start : Channel.Accumulates channel context.transform.depth 0
      (run context.dimension (List.replicate context.transform.bufferLength 0) index)
      (List.replicate (2 ^ context.transform.depth) 0) := by
    rw [Transform.bufferLength, ← size, run_replicate 0 (Transform.index_lt found),
      Transform.size_eq]
    exact channel.accumulates_zero context.transform.depth
  have room := room_of_headroom (List.mem_of_getElem? present) few
  rw [← length_zip_publics context seeds row, ← Nat.zero_add (List.length _)] at room
  obtain ⟨results, accumulated, sum⟩ := accumulates_blocks lawful
    (reachable_transposedPublics seeds _) (length_of_mem_zip_blocks row) found room start
  have product : classesAt channel.modulus context.dimension (context.transform.inverse
      (context.transform.reduce
        (accumulateRow context (transposedPublics context seeds) row))) index = results := by
    rw [classesAt, ← size, Transform.run_inverse (Transform.length_reduce sumsFull) found,
      Transform.run_reduce sumsFull found, size]
    exact accumulated.classes_inverse (sound.channel found)
  have zero : (List.replicate (2 ^ context.transform.depth)
      (0 : ZMod channel.modulus.toNat)).getD column 0 = 0 := by
    refine List.getD_replicate _ ?_
    rw [← Transform.size_eq, size]
    exact inside
  rw [product, sum column inside, zero, zero_add]

/-- The terms of the blocks of a row add up to the product of the row with a column of the stacked
matrices. -/
theorem sum_blockTerms (covered : row.length ≤ seeds.length * context.dimension) :
    (((transposedPublics context seeds).zip
          (components context.dimension (transposedPublics context seeds).length row)).map
        fun pair => blockTerm context q index column pair.1 pair.2).sum =
      ∑ position ∈ Finset.range row.length,
        (((row.getD position 0).toNat : Int) * stackedEntry context seeds index position column :
          ZMod q.toNat) := by
  rw [sum_eq_sum_range, List.length_map, length_zip_publics]
  calc _ = ∑ block ∈ Finset.range seeds.length, ∑ position ∈ Finset.range context.dimension,
        (((row.getD (block * context.dimension + position) 0).toNat : Int) *
          stackedEntry context seeds index (block * context.dimension + position) column :
            ZMod q.toNat) := by
        refine Finset.sum_congr rfl ?_
        intro block member
        rw [List.getD_eq_getElem?_getD, List.getElem?_map,
          getElem?_zip_publics seeds row (Finset.mem_range.mp member), Option.map_some,
          Option.getD_some, blockTerm_transpose lawful _ present inside]
        refine Finset.sum_congr rfl ?_
        intro position within
        have short := Finset.mem_range.mp within
        rw [getD_run row block short, stackedEntry, Nat.mul_comm block,
          Nat.mul_add_div lawful.dimension_pos, Nat.mul_add_mod, Nat.div_eq_of_lt short,
          Nat.mod_eq_of_lt short, add_zero, Int.cast_natCast, mul_comm]
    _ = ∑ position ∈ Finset.range (seeds.length * context.dimension),
        (((row.getD position 0).toNat : Int) * stackedEntry context seeds index position column :
          ZMod q.toNat) := sum_blocks
            (fun position => (((row.getD position 0).toNat : Int) *
              stackedEntry context seeds index position column : ZMod q.toNat)) _ _
    _ = ∑ position ∈ Finset.range row.length,
        (((row.getD position 0).toNat : Int) * stackedEntry context seeds index position column :
          ZMod q.toNat) := by
        refine (Finset.sum_subset (Finset.range_mono covered) fun position _ beyond => ?_).symm
        rw [List.getD_eq_default _ _ (by simpa using beyond), UInt32.toNat_zero, Nat.cast_zero,
          Int.cast_zero, zero_mul]

include few in
/-- The classes of the product of a row are those of the products of its entries with the columns
of the stacked matrices. -/
theorem classOf_product (covered : row.length ≤ seeds.length * context.dimension) :
    classOf q ((context.transform.inverse (context.transform.reduce
        (accumulateRow context (transposedPublics context seeds) row))).getD
          (index * context.dimension + column) 0) =
      ((∑ position ∈ Finset.range row.length, ((row.getD position 0).toNat : Int) *
        stackedEntry context seeds index position column : Int) : ZMod q.toNat) := by
  rw [← getD_classesAt _ _ index inside, getD_product_row lawful few present inside,
    sum_blockTerms lawful present inside covered]
  push_cast
  rfl

end Entry

include few

/-- The residues of the products of a row with a column of the stacked matrices. -/
def rowResidues (context : Context) (seeds : List Seed) (row : List UInt32) (column : Nat) :
    List UInt64 :=
  context.moduli.zipIdx.map fun (q, index) =>
    ofInt (∑ position ∈ Finset.range row.length, ((row.getD position 0).toNat : Int) *
      stackedEntry context seeds index position column) q

/-- The words of a row switch from the residues of its products. -/
theorem computeRow_eq (tables : SwitchTables) (width : Width) {row : List UInt32}
    (covered : row.length ≤ seeds.length * context.dimension) :
    (computeRow context tables (transposedPublics context seeds) row : List (LweWord width)) =
      (List.range context.dimension).map fun column =>
        tables.switch width (rowResidues context seeds row column) := by
  obtain ⟨sound, size, moduli⟩ := lawful.transform_spec
  have sumsFull := lawful.full_buffer (length_accumulateRow lawful seeds row)
  have reducedFull : (context.transform.reduce
      (accumulateRow context (transposedPublics context seeds) row)).length =
        context.dimension * context.primeCount := by
    rw [Transform.length_reduce sumsFull, lawful.bufferLength_eq]
  have reduced : Reduced context.dimension context.moduli (context.transform.inverse
      (context.transform.reduce
        (accumulateRow context (transposedPublics context seeds) row))) := by
    refine lawful.reduced_inverse reducedFull ?_
    rw [← size, ← moduli]
    exact sound.reduced_reduce sumsFull
  have full := lawful.length_inverse reducedFull
  rw [computeRow, Switching.switchRuns_components tables width full (Nat.le_refl _)]
  refine List.map_congr_left fun column member => congrArg (tables.switch width) ?_
  refine List.ext_getElem ?_ fun index present inside => ?_
  · rw [Switching.length_residuesAt, rowResidues, List.length_map, List.length_zipIdx,
      Context.Lawful.length_moduli]
  · rw [Switching.length_residuesAt] at present
    rw [rowResidues, List.length_map, List.length_zipIdx] at inside
    have found : context.moduli[index]? = some context.moduli[index] :=
      List.getElem?_eq_getElem inside
    have short := List.mem_range.mp member
    have value := classOf_product lawful few found short covered
    rw [← List.getD_eq_getElem _ 0, Switching.getD_residuesAt _ _ _ present]
    simp only [rowResidues, List.getElem_map, List.getElem_zipIdx, Nat.zero_add]
    have positive := (lawful.prime (List.mem_of_getElem? found)).pos
    refine eq_of_classOf_eq (reduced.getD_lt full found present short) (ofInt_lt positive _) ?_
    rw [value, classOf_ofInt positive]

end Product

end RingLwe.Hint
