import RingLwe.Hint.Schedule
import RingLwe.Proofs.Hint

/-!
# Rows on a schedule

A row gives the same words in every workspace with full buffers and leaves one,
so whatever a batch has left behind does not matter.  While the rows of a
schedule are computed, every workspace stays full and every row that is done
has the words of an independent row in its place (`Progress.Holds`).  One row
keeps that (`Holds.perform`), and so does a whole schedule (`Holds.foldl`).

A schedule that has every row therefore gives the hint of independent rows,
which is also that of one row after the other (`computeScheduled_eq`).
-/

set_option autoImplicit false

namespace RingLwe.Hint

variable {width : Width}

namespace Progress

/-- What holds while rows are computed: every workspace is full, there is a place for each row, and
the given rows have the words of independent rows in their places. -/
structure Holds (context : Context) (tables : SwitchTables) (publics : List PublicPoly)
    (matrix : List UInt32) (rows columns : Nat) (done : List Nat) (progress : Progress width) :
    Prop where
  full : ∀ batch, (progress.workspaces batch).Full context
  length : progress.places.length = rows
  written : ∀ row ∈ done, row < rows → progress.places[row]? =
    some (Hint.computeRow context tables publics (run columns matrix row))

section Lawful

variable {context : Context} (lawful : context.Lawful) {tables : SwitchTables}
  {publics : List PublicPoly} {matrix : List UInt32} {rows columns : Nat}

theorem holds_start (lawful : context.Lawful) :
    (start context rows : Progress width).Holds context tables publics matrix rows columns [] where
  full _ := Workspace.full_fresh lawful
  length := List.length_replicate
  written _ impossible := absurd impossible List.not_mem_nil

variable (reachable : ∀ a ∈ publics, a.Reachable context) {done : List Nat}
  {progress : Progress width}
include lawful reachable

/-- A row that is computed is done, and what was done stays. -/
theorem Holds.perform
    (holds : progress.Holds context tables publics matrix rows columns done) (task : Task) :
    (progress.perform context tables publics matrix columns task).Holds context tables publics
      matrix rows columns (task.row :: done) := by
  obtain ⟨words, left⟩ := Workspace.computeRow_spec lawful reachable width tables
    (holds.full task.batch) (run columns matrix task.row)
  refine ⟨?_, ?_, ?_⟩
  · intro batch
    simp only [Progress.perform]
    split
    next => exact left
    next => exact holds.full batch
  · rw [Progress.perform, List.length_set, holds.length]
  · intro row member inside
    simp only [Progress.perform]
    by_cases same : task.row = row
    · subst same
      rw [List.getElem?_set_self (holds.length.symm ▸ inside)]
      exact congrArg some words
    · rw [List.getElem?_set_ne same]
      have earlier : row ∈ done := (List.mem_cons.mp member).resolve_left (Ne.symm same)
      exact holds.written row earlier inside

/-- After a schedule its rows are done, and what was done stays. -/
theorem Holds.foldl
    (holds : progress.Holds context tables publics matrix rows columns done)
    (schedule : List Task) :
    (schedule.foldl (Progress.perform context tables publics matrix columns) progress).Holds
      context tables publics matrix rows columns ((schedule.map Task.row).reverse ++ done) := by
  induction schedule generalizing done progress with
  | nil => exact holds
  | cons task schedule ih =>
    have rest := ih (holds.perform lawful reachable task)
    rw [List.map_cons, List.reverse_cons, List.append_assoc]
    exact rest

end Lawful

/-- When every row is done, the places hold the words of independent rows in order. -/
theorem Holds.flatten_places {context : Context} {tables : SwitchTables}
    {publics : List PublicPoly} {matrix : List UInt32} {rows columns : Nat} {done : List Nat}
    {progress : Progress width}
    (holds : progress.Holds context tables publics matrix rows columns done)
    (whole : ∀ row < rows, row ∈ done) :
    progress.places.flatten =
      (components columns rows matrix).flatMap (Hint.computeRow context tables publics) := by
  have places : progress.places =
      (components columns rows matrix).map (Hint.computeRow context tables publics) := by
    apply List.ext_getElem?
    intro row
    rcases Nat.lt_or_ge row rows with inside | beyond
    · rw [holds.written row (whole row inside) inside, List.getElem?_map,
        getElem?_components _ _ inside, Option.map_some]
    · rw [List.getElem?_eq_none (by rw [holds.length]; exact beyond),
        List.getElem?_eq_none (by rw [List.length_map, length_components]; exact beyond)]
  rw [places, List.flatMap_def]

end Progress

section Schedule

variable {context : Context} (lawful : context.Lawful) (width : Width) (matrix : List UInt32)
  {rows : Nat} (columns : Nat) (seeds : List Seed)
include lawful

/-- A schedule that has every row gives the hint of independent rows. -/
theorem computeScheduled_eq {schedule : List Task}
    (whole : ∀ row < rows, row ∈ schedule.map Task.row) :
    computeScheduled context width matrix rows columns seeds schedule =
      compute context width matrix rows columns seeds := by
  have words : ∀ tables : SwitchTables,
      (schedule.foldl (Progress.perform context tables (transposedPublics context seeds) matrix
          columns) (Progress.start context rows : Progress width)).places.flatten =
        (components columns rows matrix).flatMap
          (computeRow context tables (transposedPublics context seeds)) := by
    intro tables
    have before : (Progress.start context rows : Progress width).Holds context tables
        (transposedPublics context seeds) matrix rows columns [] := Progress.holds_start lawful
    have finished := before.foldl lawful (reachable_of_mem_transposedPublics context seeds) schedule
    apply finished.flatten_places
    intro row inside
    rw [List.append_nil, List.mem_reverse]
    exact whole row inside
  simp only [computeScheduled, compute, words]

end Schedule

/-- The words of a row do not depend on what its workspace holds.  So on every schedule, which has
every row once, in any order and in any batch, the hint is the one that is computed row after row in
a single workspace, or the same failure; and so is the hint of independent rows. -/
theorem scheduled_eq_sequential {parameters : Parameters} {context : Context}
    (built : Context.ofParameters parameters = .ok context) (width : Width) (matrix : List UInt32)
    (rows columns : Nat) (seeds : List Seed) :
    (∀ (tables : SwitchTables) (row : List UInt32) (left right : Workspace),
      left.Full context → right.Full context →
      (left.computeRow context tables (transposedPublics context seeds) row :
          List (LweWord width) × Workspace).1 =
        (right.computeRow context tables (transposedPublics context seeds) row).1) ∧
    (∀ schedule : List Task, (schedule.map Task.row).Perm (List.range rows) →
      computeScheduled context width matrix rows columns seeds schedule =
        computeSequential context width matrix rows columns seeds) ∧
    compute context width matrix rows columns seeds =
      computeSequential context width matrix rows columns seeds ∧
    checkedCompute context width matrix rows columns seeds =
      checkedComputeSequential context width matrix rows columns seeds ∧
    (fits context width rows = true →
      checkedComputeSequential context width matrix rows columns seeds =
        .ok (computeSequential context width matrix rows columns seeds)) := by
  have lawful := Context.lawful_of_ofParameters built
  have reachable := reachable_of_mem_transposedPublics context seeds
  have sequential := computeSequential_eq lawful width matrix rows columns seeds
  refine ⟨?_, ?_, sequential.symm, ?_, ?_⟩
  · intro tables row left right leftFull rightFull
    rw [(Workspace.computeRow_spec lawful reachable width tables leftFull row).1,
      (Workspace.computeRow_spec lawful reachable width tables rightFull row).1]
  · intro schedule permuted
    rw [sequential]
    apply computeScheduled_eq lawful
    intro row inside
    exact permuted.mem_iff.mpr (List.mem_range.mpr inside)
  · rw [checkedCompute, checkedComputeSequential, sequential]
  · intro small
    rw [checkedComputeSequential, checked, computeSequential]
    rcases prepare context width matrix rows columns seeds with failure | tables
    · rfl
    · exact if_pos small

/-- The preset of 64 bits has a hint of two rows, computed in two batches from the last row on. -/
theorem scheduled_eq_sequential_preset : ∃ context, ∃ hint : Hint .bits64,
    Context.ofParameters (Parameters.preset .bits64) = .ok context ∧
    computeScheduled context .bits64 (List.replicate 4097 3 ++ List.replicate 4097 5) 2 4097
      [Vector.replicate 8 0, Vector.replicate 8 1] [⟨1, 1⟩, ⟨0, 0⟩] = .ok hint ∧
    computeSequential context .bits64 (List.replicate 4097 3 ++ List.replicate 4097 5) 2 4097
      [Vector.replicate 8 0, Vector.replicate 8 1] = .ok hint ∧
    hint.words.length = 8192 := by
  obtain ⟨context, built⟩ := Context.exists_preset .bits64
  have accepted := accepts_two_blocks built
  obtain ⟨hint, computed, _, _, length, _⟩ :=
    compute_eq_ok (Context.lawful_of_ofParameters built) (Context.switchTables_preset built) accepted
  obtain ⟨_, scheduled, sequential, _⟩ :=
    scheduled_eq_sequential built .bits64 (List.replicate 4097 3 ++ List.replicate 4097 5) 2 4097
      [Vector.replicate 8 0, Vector.replicate 8 1]
  rw [computed] at sequential
  refine ⟨context, hint, built, ?_, sequential.symm, ?_⟩
  · rw [scheduled [⟨1, 1⟩, ⟨0, 0⟩] (by decide), sequential]
  · rw [length, (Context.wide_preset_spec built).1]

end RingLwe.Hint
