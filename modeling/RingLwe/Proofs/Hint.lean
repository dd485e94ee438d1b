import RingLwe.Proofs.Hint.Workspace

/-!
# Hints

A hint holds the product of a matrix with the stacked matrices of the public
polynomials of its seeds, switched to the hybrid modulus: its words are those
to which the residues of the schoolbook product switch (`compute_eq_schoolbook`).
-/

set_option autoImplicit false

namespace RingLwe.Hint

/-- An entry of the product of a matrix with the stacked matrices of the public polynomials of seeds
modulo the prime of the given number. -/
def productEntry (context : Context) (matrix : List UInt32) (columns : Nat) (seeds : List Seed)
    (row column index : Nat) : Int :=
  ∑ position ∈ Finset.range columns,
    ((matrix.getD (row * columns + position) 0).toNat : Int) *
      stackedEntry context seeds index position column

/-- The residues of an entry of the product of a matrix with the stacked matrices. -/
def schoolbook (context : Context) (matrix : List UInt32) (columns : Nat) (seeds : List Seed)
    (row column : Nat) : List UInt64 :=
  context.moduli.zipIdx.map fun (q, index) =>
    Residue.ofInt (productEntry context matrix columns seeds row column index) q

/-- What data satisfy that pass the check of their dimensions. -/
theorem checkDimensions_eq_ok {context : Context} {matrix : List UInt32} {rows columns : Nat}
    {seeds : List Seed} (accepted : checkDimensions context matrix rows columns seeds = .ok ()) :
    matrix.length = columns * rows ∧ seeds.length = blockCount context columns ∧
      seeds.length ≤ headroom context := by
  simp only [checkDimensions] at accepted
  split at accepted
  next => cases accepted
  next =>
    split at accepted
    next => cases accepted
    next cells =>
      split at accepted
      next => cases accepted
      next blocks =>
        split at accepted
        next => cases accepted
        next few =>
          refine ⟨?_, by omega, by omega⟩
          rw [Nat.mul_comm]
          omega

theorem prepare_of_checks {context : Context} {width : Width} {tables : SwitchTables}
    (prepared : context.switchTables width = .ok tables) {matrix : List UInt32}
    {rows columns : Nat} {seeds : List Seed}
    (accepted : checkDimensions context matrix rows columns seeds = .ok ()) :
    prepare context width matrix rows columns seeds = .ok tables := by
  rw [prepare, prepared, ok_bind, accepted]
  rfl

/-- What the computation of a hint asks for. -/
theorem prepare_of_compute {context : Context} {width : Width} {matrix : List UInt32}
    {rows columns : Nat} {seeds : List Seed} {hint : Hint width}
    (computed : compute context width matrix rows columns seeds = .ok hint) :
    (∃ tables, context.switchTables width = .ok tables) ∧
      checkDimensions context matrix rows columns seeds = .ok () := by
  unfold compute prepare at computed
  obtain ⟨_, ready, _⟩ := bind_eq_ok_iff.mp computed
  obtain ⟨tables, prepared, ready⟩ := bind_eq_ok_iff.mp ready
  obtain ⟨_, accepted, _⟩ := bind_eq_ok_iff.mp ready
  exact ⟨⟨tables, prepared⟩, accepted⟩

theorem le_blockCount_mul {context : Context} (positive : 0 < context.dimension) (columns : Nat) :
    columns ≤ blockCount context columns * context.dimension := by
  have divided := Nat.div_add_mod (columns + context.dimension - 1) context.dimension
  have rest := Nat.mod_lt (columns + context.dimension - 1) positive
  rw [Nat.mul_comm] at divided
  change blockCount context columns * context.dimension + _ = _ at divided
  omega

section Compute

variable {context : Context} (lawful : context.Lawful) {width : Width} {tables : SwitchTables}
  (prepared : context.switchTables width = .ok tables) {matrix : List UInt32} {rows columns : Nat}
  {seeds : List Seed} (accepted : checkDimensions context matrix rows columns seeds = .ok ())
include accepted

/-- The residues of the products of a row are those of the schoolbook product. -/
theorem rowResidues_run {row : Nat} (inside : row < rows) (column : Nat) :
    rowResidues context seeds (run columns matrix row) column =
      schoolbook context matrix columns seeds row column := by
  have full := (checkDimensions_eq_ok accepted).1
  refine List.map_congr_left fun (q, index) _ => congrArg (Residue.ofInt · q) ?_
  rw [length_run full inside, productEntry]
  refine Finset.sum_congr rfl ?_
  intro position member
  rw [getD_run matrix row (Finset.mem_range.mp member)]

include lawful

/-- The words of a row switch from the residues of the schoolbook product. -/
theorem computeRow_run {row : Nat} (inside : row < rows) :
    (computeRow context tables (transposedPublics context seeds) (run columns matrix row) :
        List (LweWord width)) =
      (List.range context.dimension).map fun column =>
        tables.switch width (schoolbook context matrix columns seeds row column) := by
  obtain ⟨full, blocks, few⟩ := checkDimensions_eq_ok accepted
  have covered : (run columns matrix row).length ≤ seeds.length * context.dimension := by
    rw [length_run full inside, blocks]
    exact le_blockCount_mul lawful.dimension_pos columns
  rw [computeRow_eq lawful few tables width covered]
  exact List.map_congr_left fun column _ =>
    congrArg (tables.switch width) (rowResidues_run accepted inside column)

include prepared

/-- The hint of accepted data, row by row. -/
theorem compute_eq_ok : ∃ hint : Hint width,
    compute context width matrix rows columns seeds = .ok hint ∧ hint.rows = rows ∧
      hint.columns = context.dimension ∧ hint.words.length = context.dimension * rows ∧
      ∀ row < rows, hint.row row = (List.range context.dimension).map fun column =>
        tables.switch width (schoolbook context matrix columns seeds row column) := by
  have even : ∀ words ∈ (components columns rows matrix).map
      (computeRow context tables (transposedPublics context seeds) : _ → List (LweWord width)),
      words.length = context.dimension := by
    intro words member
    rw [components_eq_map, List.map_map] at member
    obtain ⟨row, listed, rfl⟩ := List.mem_map.mp member
    rw [Function.comp_apply, computeRow_run lawful accepted (List.mem_range.mp listed),
      List.length_map, List.length_range]
  refine ⟨⟨rows, context.dimension, (components columns rows matrix).flatMap
    (computeRow context tables (transposedPublics context seeds))⟩, ?_, rfl, rfl, ?_, ?_⟩
  · rw [compute, prepare_of_checks prepared accepted]
    rfl
  · rw [List.flatMap_def, length_flatten_of_even _ even, List.length_map, length_components]
  · intro row inside
    have present : ((components columns rows matrix).map
        (computeRow context tables (transposedPublics context seeds) :
          _ → List (LweWord width)))[row]? =
        some (computeRow context tables (transposedPublics context seeds)
          (run columns matrix row)) := by
      rw [List.getElem?_map, getElem?_components _ _ inside, Option.map_some]
    rw [← computeRow_run lawful accepted inside, Hint.row, List.flatMap_def]
    exact run_flatten even present

end Compute

/-- The hint of data whose dimensions go together exists, computed in either way, and its words are
those to which the residues of the schoolbook product switch. -/
theorem compute_eq_schoolbook {parameters : Parameters} {context : Context} {width : Width}
    {tables : SwitchTables} (built : Context.ofParameters parameters = .ok context)
    (prepared : context.switchTables width = .ok tables) {matrix : List UInt32}
    {rows columns : Nat} {seeds : List Seed}
    (accepted : checkDimensions context matrix rows columns seeds = .ok ()) :
    ∃ hint, compute context width matrix rows columns seeds = .ok hint ∧
      computeSequential context width matrix rows columns seeds = .ok hint ∧
      (fits context width rows = true →
        checkedCompute context width matrix rows columns seeds = .ok (.ok hint) ∧
        checkedComputeSequential context width matrix rows columns seeds = .ok (.ok hint)) ∧
      hint.rows = rows ∧ hint.columns = context.dimension ∧
      hint.words.length = rows * context.dimension ∧
      ∀ row < rows, ∀ column < context.dimension, ∃ word, (hint.row row)[column]? = some word ∧
        Switching.switch context width (schoolbook context matrix columns seeds row column) 1 1 =
          .ok [word] := by
  have lawful := Context.lawful_of_ofParameters built
  obtain ⟨hint, computed, count, wide, length, words⟩ :=
    compute_eq_ok lawful prepared accepted
  have sequential := computeSequential_eq lawful width matrix rows columns seeds
  rw [computed] at sequential
  have ready : prepare context width matrix rows columns seeds = .ok tables := by
    rw [prepare, prepared, ok_bind, accepted]
    rfl
  refine ⟨hint, computed, sequential, fun small => ?_, count, wide, ?_, ?_⟩
  · constructor
    · rw [checkedCompute, checked, ready, computed]
      exact if_pos small
    · rw [checkedComputeSequential, checked, ready, sequential]
      exact if_pos small
  · rw [length, Nat.mul_comm]
  · intro row rowInside column columnInside
    refine ⟨tables.switch width (schoolbook context matrix columns seeds row column), ?_, ?_⟩
    · rw [words row rowInside, List.getElem?_map, List.getElem?_range columnInside,
        Option.map_some]
    · refine Switching.switch_residues prepared ?_ lawful.primeCount_le
      rw [schoolbook, List.length_map, List.length_zipIdx, Context.Lawful.length_moduli]

/-- The preset of 64 bits accepts two seeds for rows with one column more than a block has. -/
theorem accepts_two_blocks {context : Context}
    (built : Context.ofParameters (Parameters.preset .bits64) = .ok context) :
    checkDimensions context (List.replicate 4097 3 ++ List.replicate 4097 5) 2 4097
      [Vector.replicate 8 0, Vector.replicate 8 1] = .ok () := by
  obtain ⟨dimension, _, _, _⟩ := Context.wide_preset_spec built
  have largest : headroom context = (UInt64.size - 1) / 8589852673 := by
    have moduli : context.basis.moduli = Context.presetModuli .bits64 :=
      Context.moduli_of_preset built
    rw [headroom, Basis.maxModulus, moduli]
    rfl
  have blocks : blockCount context 4097 = 2 := by
    rw [blockCount, dimension]
  simp only [checkDimensions, blocks, largest, List.length_append, List.length_replicate]
  rw [if_neg (by decide), if_neg (by decide), if_neg (by decide), if_neg (by decide)]

/-- The preset of 64 bits has a hint of two rows, each over two blocks. -/
theorem compute_preset : ∃ context tables,
    Context.ofParameters (Parameters.preset .bits64) = .ok context ∧
    context.switchTables .bits64 = .ok tables ∧
    checkDimensions context (List.replicate 4097 3 ++ List.replicate 4097 5) 2 4097
      [Vector.replicate 8 0, Vector.replicate 8 1] = .ok () ∧
    ∃ hint : Hint .bits64,
      compute context .bits64 (List.replicate 4097 3 ++ List.replicate 4097 5) 2 4097
        [Vector.replicate 8 0, Vector.replicate 8 1] = .ok hint ∧
      hint.words.length = 8192 ∧
      ∃ word, (hint.row 1)[4095]? = some word ∧
        Switching.switch context .bits64 (schoolbook context
          (List.replicate 4097 3 ++ List.replicate 4097 5) 4097
          [Vector.replicate 8 0, Vector.replicate 8 1] 1 4095) 1 1 = .ok [word] := by
  obtain ⟨context, built⟩ := Context.exists_preset .bits64
  have prepared := Context.switchTables_preset built
  have accepted := accepts_two_blocks built
  obtain ⟨hint, computed, _, _, _, _, length, words⟩ :=
    compute_eq_schoolbook built prepared accepted
  obtain ⟨dimension, _, _, _⟩ := Context.wide_preset_spec built
  rw [dimension] at length words
  exact ⟨context, _, built, prepared, accepted, hint, computed, length,
    words 1 (by decide) 4095 (by decide)⟩

end RingLwe.Hint
