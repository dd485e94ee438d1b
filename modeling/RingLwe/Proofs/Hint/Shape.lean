import RingLwe.Proofs.Hint

/-!
# The shape of a hint

The data for a hint are read in slices: row `r` of the matrix from `r` times the
number of columns on, and block `s` of a row from `s` times the dimension on.
Once the dimensions have passed their check, all of these slices lie in bounds
and their ends fit a word (`rowSlices?_eq`, `blockSlices?_eq`).

The check does not bound the words of the hint.  A matrix without columns passes
with any number of rows (`checkDimensions_no_columns`), so data that pass give a
hint exactly if its words fit a buffer; such a hint has all of its rows
(`checkedCompute_outcome`).
-/

set_option autoImplicit false

namespace RingLwe

/-! ## Slices -/

section Slices

variable {α : Type} {items : List α}

/-- The items from one position up to another, unless the positions are out of order, beyond the
list or beyond a word. -/
def slice? (items : List α) (first last : Nat) : Option (List α) :=
  if first ≤ last ∧ last ≤ items.length ∧ last < UInt64.size then
    some ((items.drop first).take (last - first))
  else
    none

theorem slice?_cut {first length : Nat} (inside : first ≤ items.length)
    (small : first + length < UInt64.size) :
    slice? items first (min items.length (first + length)) =
      some ((items.drop first).take length) := by
  rw [slice?, if_pos ⟨by omega, by omega, by omega⟩, Option.some.injEq,
    List.take_eq_take_iff, List.length_drop]
  omega

/-- The slices at the multiples of a length are the runs of a list of the right length. -/
theorem slice?_run {length count : Nat} (full : items.length = length * count)
    (small : length * count < UInt64.size) {index : Nat} (inside : index < count) :
    slice? items (index * length) ((index + 1) * length) = some (run length items index) := by
  have last : (index + 1) * length ≤ length * count := by
    rw [Nat.mul_comm length]
    exact Nat.mul_le_mul_right _ inside
  have width : (index + 1) * length - index * length = length := by
    rw [Nat.succ_mul, Nat.add_sub_cancel_left]
  rw [slice?, if_pos ⟨Nat.mul_le_mul_right _ (Nat.le_succ _), by omega, by omega⟩, width, run]

end Slices

namespace Hint

/-! ## The slices of the data -/

/-- The rows of a matrix, taken as slices. -/
def rowSlices? (matrix : List UInt32) (rows columns : Nat) : Option (List (List UInt32)) :=
  (List.range rows).mapM fun row => slice? matrix (row * columns) ((row + 1) * columns)

/-- The blocks of a row, taken as slices that end where the row ends. -/
def blockSlices? (context : Context) (count : Nat) (row : List UInt32) :
    Option (List (List UInt32)) :=
  (List.range count).mapM fun block =>
    slice? row (block * context.dimension)
      (min row.length (block * context.dimension + context.dimension))

theorem checkDimensions_no_columns {context : Context} (lawful : context.Lawful) (rows : Nat) :
    checkDimensions context [] rows 0 [] = .ok () := by
  have none : blockCount context 0 = 0 := by
    have positive := lawful.dimension_pos
    rw [blockCount, Nat.zero_add]
    exact Nat.div_eq_of_lt (by omega)
  simp only [checkDimensions, none, Nat.mul_zero, List.length_nil]
  rw [if_neg (by decide), if_neg (by simp), if_neg (by simp), if_neg (by omega)]

section Accepted

variable {context : Context} (lawful : context.Lawful) {matrix : List UInt32} {rows columns : Nat}
  {seeds : List Seed} (accepted : checkDimensions context matrix rows columns seeds = .ok ())
include accepted

theorem cells_lt : columns * rows < UInt64.size := by
  unfold checkDimensions at accepted
  dsimp only at accepted
  rw [ite_error_eq_ok_iff] at accepted
  rw [Nat.mul_comm]
  exact Nat.not_le.mp accepted.1

theorem rowSlices?_eq : rowSlices? matrix rows columns = some (components columns rows matrix) := by
  rw [components_eq_map]
  exact mapM_eq_some_map fun row member => slice?_run (checkDimensions_eq_ok accepted).1
    (cells_lt accepted) (List.mem_range.mp member)

include lawful

/-- The end of the last block fits a word, since the headroom is far below it. -/
theorem blocks_lt : seeds.length * context.dimension < UInt64.size := by
  obtain ⟨_, _, few⟩ := checkDimensions_eq_ok accepted
  obtain ⟨q, member⟩ := List.exists_mem_of_ne_nil _ lawful.moduli_ne_nil
  have largest : 2 ^ 31 ≤ context.basis.maxModulus.toNat :=
    Nat.le_trans (Nat.le_of_lt (lawful.bounds member).1) (Basis.le_maxModulus member)
  have limit : headroom context ≤ (UInt64.size - 1) / 2 ^ 31 :=
    Nat.div_le_div_left largest (by decide)
  have product := Nat.mul_le_mul (Nat.le_trans few limit) lawful.dimension_le
  simp only [UInt64.size] at product ⊢
  omega

/-- Every block of a row of accepted data lies in bounds.  The number of blocks is rounded up, so that
the last one starts within the row. -/
theorem blockSlices?_eq {row : List UInt32} (member : row ∈ components columns rows matrix) :
    blockSlices? context seeds.length row =
      some (components context.dimension seeds.length row) := by
  obtain ⟨full, blocks, _⟩ := checkDimensions_eq_ok accepted
  have long := length_of_mem_components full member
  have small := blocks_lt lawful accepted
  rw [components_eq_map]
  refine mapM_eq_some_map fun block listed => ?_
  have inside := List.mem_range.mp listed
  have started : block * context.dimension ≤ row.length := by
    have least : (block + 1) * context.dimension ≤ columns + context.dimension - 1 := by
      rw [← Nat.le_div_iff_mul_le lawful.dimension_pos, ← blockCount, ← blocks]
      exact inside
    rw [Nat.succ_mul] at least
    omega
  have ended : block * context.dimension + context.dimension < UInt64.size := by
    have last := Nat.mul_le_mul_right context.dimension (Nat.succ_le_of_lt inside)
    rw [Nat.succ_mul] at last
    exact Nat.lt_of_le_of_lt last small
  exact slice?_cut started ended

end Accepted

/-! ## The outcome -/

/-- The words of a hint that fits a buffer are so few that their number fits a word. -/
theorem words_lt_of_fits {context : Context} {width : Width} {rows : Nat}
    (room : fits context width rows = true) : rows * context.dimension < UInt64.size := by
  have bytes : rows * context.dimension * (width.bits / 8) < bufferLimit := of_decide_eq_true room
  have wide : 1 ≤ width.bits / 8 := by
    cases width <;> decide
  have fewer := Nat.mul_le_mul_left (rows * context.dimension) wide
  have limit : bufferLimit < UInt64.size := by decide
  omega

/-- Once data have passed, only the length of the hint can breach a checked form. -/
theorem checked_of_prepare {context : Context} {width : Width} {matrix : List UInt32}
    {rows columns : Nat} {seeds : List Seed} {tables : SwitchTables}
    (ready : prepare context width matrix rows columns seeds = .ok tables)
    (answer : Unit → Except Failure (Hint width)) :
    checked context matrix rows columns seeds answer =
      if fits context width rows then .ok (answer ()) else .error .tooLong := by
  rw [checked, ready]

/-- What becomes of accepted data.  Every slice of them lies in bounds.  If the words of the hint do
not fit a buffer, both computations breach its length.  Otherwise both give the same hint of
exactly the declared shape, and each of its rows is a slice of as many words as the ring has
coefficients. -/
theorem checkedCompute_outcome {parameters : Parameters} {context : Context}
    (built : Context.ofParameters parameters = .ok context) {width : Width}
    {tables : SwitchTables} {matrix : List UInt32} {rows columns : Nat} {seeds : List Seed}
    (ready : prepare context width matrix rows columns seeds = .ok tables) :
    rowSlices? matrix rows columns = some (components columns rows matrix) ∧
    (∀ row ∈ components columns rows matrix, blockSlices? context seeds.length row =
      some (components context.dimension seeds.length row)) ∧
    (fits context width rows = false →
      checkedCompute context width matrix rows columns seeds = .error .tooLong ∧
      checkedComputeSequential context width matrix rows columns seeds = .error .tooLong) ∧
    (fits context width rows = true → rows * context.dimension < UInt64.size ∧
      ∃ hint : Hint width,
        checkedCompute context width matrix rows columns seeds = .ok (.ok hint) ∧
        checkedComputeSequential context width matrix rows columns seeds = .ok (.ok hint) ∧
        hint.rows = rows ∧ hint.columns = context.dimension ∧
        hint.words.length = rows * context.dimension ∧
        ∀ row < rows, (hint.row row).length = context.dimension ∧
          slice? hint.words (row * hint.columns) ((row + 1) * hint.columns) =
            some (hint.row row)) := by
  have lawful := Context.lawful_of_ofParameters built
  obtain ⟨found, prepared, result⟩ := bind_eq_ok_iff.mp ready
  obtain ⟨_, accepted, same⟩ := bind_eq_ok_iff.mp result
  refine ⟨rowSlices?_eq accepted, fun row member => blockSlices?_eq lawful accepted member,
    fun crowded => ?_, fun room => ?_⟩
  · rw [checkedCompute, checkedComputeSequential, checked_of_prepare ready,
      checked_of_prepare ready, crowded]
    exact ⟨rfl, rfl⟩
  · have few := words_lt_of_fits room
    obtain ⟨hint, computed, counted, wide, length, _⟩ := compute_eq_ok lawful prepared accepted
    have sequential := computeSequential_eq lawful width matrix rows columns seeds
    rw [Nat.mul_comm] at few
    rw [checkedCompute, checkedComputeSequential, checked_of_prepare ready,
      checked_of_prepare ready, room, sequential, computed]
    refine ⟨Nat.mul_comm rows _ ▸ few, hint, rfl, rfl, counted, wide,
      length.trans (Nat.mul_comm _ _), fun row inside => ?_⟩
    rw [Hint.row, wide]
    exact ⟨length_run length inside, slice?_run length few inside⟩

/-- In the preset of 64 bits, the hint of two rows over two blocks has two rows of all coefficients. -/
theorem checkedCompute_outcome_preset : ∃ context tables,
    Context.ofParameters (Parameters.preset .bits64) = .ok context ∧
      prepare context .bits64 (List.replicate 4097 3 ++ List.replicate 4097 5) 2 4097
        [Vector.replicate 8 0, Vector.replicate 8 1] = .ok tables ∧
      fits context .bits64 2 = true ∧
      ∃ hint : Hint .bits64,
        checkedCompute context .bits64 (List.replicate 4097 3 ++ List.replicate 4097 5) 2 4097
          [Vector.replicate 8 0, Vector.replicate 8 1] = .ok (.ok hint) ∧
        hint.words.length = 8192 ∧ (hint.row 1).length = 4096 := by
  obtain ⟨context, built⟩ := Context.exists_preset .bits64
  obtain ⟨dimension, _, _, _⟩ := Context.wide_preset_spec built
  have ready := prepare_of_checks (Context.switchTables_preset built) (accepts_two_blocks built)
  have room : fits context .bits64 2 = true := by
    rw [fits, dimension]
    decide
  obtain ⟨_, _, _, complete⟩ := checkedCompute_outcome built ready
  obtain ⟨_, hint, computed, _, _, _, length, rows⟩ := complete room
  have last := (rows 1 (by decide)).1
  rw [dimension] at length last
  exact ⟨context, _, built, ready, room, hint, computed, length, last⟩

/-- The check of the dimensions does not bound the words of a hint: the preset of 32 bits accepts a
matrix without columns and so many rows that the number of the words of its hint leaves a word, and
both computations breach the length of a buffer. -/
theorem unbounded_rows_preset : ∃ context tables,
    Context.ofParameters (Parameters.preset .bits32) = .ok context ∧
      prepare context .bits32 [] 9007199254740992 0 [] = .ok tables ∧
      UInt64.size ≤ 9007199254740992 * context.dimension ∧
      checkedCompute context .bits32 [] 9007199254740992 0 [] = .error .tooLong ∧
      checkedComputeSequential context .bits32 [] 9007199254740992 0 [] = .error .tooLong := by
  obtain ⟨context, built⟩ := Context.exists_preset .bits32
  obtain ⟨dimension, _, _, _⟩ := Context.preset_spec built
  have accepted :=
    checkDimensions_no_columns (Context.lawful_of_ofParameters built) 9007199254740992
  have ready := prepare_of_checks (Context.switchTables_preset built) accepted
  have crowded : fits context .bits32 9007199254740992 = false := by
    rw [fits, dimension]
    decide
  have many : UInt64.size ≤ 9007199254740992 * context.dimension :=
    dimension ▸ (by decide : UInt64.size ≤ 9007199254740992 * 2048)
  refine ⟨context, _, built, ready, many, ?_, ?_⟩
  · rw [checkedCompute, checked_of_prepare ready, crowded]
    rfl
  · rw [checkedComputeSequential, checked_of_prepare ready, crowded]
    rfl

end Hint

end RingLwe
