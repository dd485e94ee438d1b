import RingLwe.Hint.Workspace
import RingLwe.Proofs.Hint.Row

/-!
# Rows in a reused workspace

Nothing of what earlier rows left in a workspace reaches the words of a row.
A block is written over every residue of a full buffer
(`overwriteBlock_eq`), so a row gives the same words in every workspace with
full buffers, and leaves one (`Workspace.computeRow_spec`).  By induction on the
rows the hint is that of independent rows (`computeSequential_eq`).
-/

set_option autoImplicit false

namespace RingLwe.Hint

open ResiduePoly

/-! ## Overwriting -/

theorem overwrite_append (values : List UInt64) {start : Nat} {front : List UInt64}
    (here : front.length = start) (back : List UInt64) :
    overwrite start values (front ++ back) = front ++ values ++ back.drop values.length := by
  subst here
  rw [overwrite, List.take_left, List.drop_length_add_append]

/-- Writing a block from a component on leaves the components before it and nothing of those
behind it. -/
theorem overwriteBlock_append {dimension : Nat} {block : List UInt32}
    (fits : block.length ≤ dimension) (moduli : List UInt64) {component : Nat}
    {front back : List UInt64} (before : front.length = component * dimension)
    (behind : back.length = dimension * moduli.length) :
    overwriteBlock dimension block component moduli (front ++ back) =
      front ++ (moduli.map (paddedBlock dimension block)).flatten := by
  induction moduli generalizing component front back with
  | nil =>
    obtain rfl : back = [] := List.length_eq_zero_iff.mp behind
    rfl
  | cons q moduli ih =>
    rw [List.length_cons, Nat.mul_succ] at behind
    have written : (front ++ block.map fun entry : UInt32 => entry.toUInt64 % q).length =
        component * dimension + block.length := by
      rw [List.length_append, before, List.length_map]
    have rest : (back.drop block.length).drop (dimension - block.length) =
        back.drop dimension := by
      rw [List.drop_drop]
      congr 1
      omega
    have cleared : ((front ++ block.map fun entry : UInt32 => entry.toUInt64 % q) ++
        List.replicate (dimension - block.length) 0).length = (component + 1) * dimension := by
      rw [List.length_append, written, List.length_replicate, Nat.succ_mul]
      omega
    rw [overwriteBlock, overwrite_append _ before, List.length_map, overwrite_append _ written,
      List.length_replicate, rest, ih cleared (by rw [List.length_drop]; omega),
      List.map_cons, List.flatten_cons, paddedBlock, List.append_assoc, List.append_assoc,
      List.append_assoc]

/-- Writing a block over a full buffer leaves the residues of the block. -/
theorem overwriteBlock_eq {context : Context} {block : List UInt32}
    (fits : block.length ≤ context.dimension) {buffer : List UInt64}
    (full : buffer.length = context.dimension * context.primeCount) :
    overwriteBlock context.dimension block 0 context.moduli buffer =
      blockResidues context block := by
  rw [← Context.Lawful.length_moduli] at full
  have before : ([] : List UInt64).length = 0 * context.dimension := (Nat.zero_mul _).symm
  rw [blockResidues_eq]
  exact overwriteBlock_append fits context.moduli before full

namespace Workspace

/-- Whether the buffers of a workspace hold residues for every prime of a context. -/
structure Full (context : Context) (workspace : Workspace) : Prop where
  residues : workspace.residues.length = context.dimension * context.primeCount
  sums : workspace.sums.length = context.dimension * context.primeCount

section Lawful

variable {context : Context} (lawful : context.Lawful)
include lawful

theorem full_fresh : Full context (fresh context) :=
  ⟨by rw [fresh, List.length_replicate, lawful.bufferLength_eq],
    by rw [fresh, List.length_replicate, lawful.bufferLength_eq]⟩

/-! ## Rows -/

variable {publics : List PublicPoly} (reachable : ∀ a ∈ publics, a.Reachable context)
include reachable

/-- The blocks of a row leave full buffers, and the sums that they leave in any full workspace. -/
theorem addBlocks_spec {workspace : Workspace} (full : workspace.Full context)
    (row : List UInt32) :
    (workspace.addBlocks context publics row).Full context ∧
      (workspace.addBlocks context publics row).sums =
        accumulateBlocks context
          (publics.zip (components context.dimension publics.length row)) workspace.sums := by
  induction publics generalizing workspace row with
  | nil => exact ⟨full, rfl⟩
  | cons a publics ih =>
    have fits : (row.take context.dimension).length ≤ context.dimension := List.length_take_le _ _
    have written := overwriteBlock_eq fits full.residues
    have blockFull := lawful.length_forward (length_blockResidues fits)
    have publicFull := ((reachable a (List.mem_cons_self ..)).belongs lawful).2.full
    have added : workspace.addBlock context a (row.take context.dimension) =
        ⟨context.transform.forward (blockResidues context (row.take context.dimension)),
          context.transform.accumulate workspace.sums
            (context.transform.forward (blockResidues context (row.take context.dimension)))
            a.poly.residues⟩ := by
      rw [addBlock, written]
    have next : (workspace.addBlock context a (row.take context.dimension)).Full context := by
      rw [added]
      refine ⟨blockFull, ?_⟩
      have sumsFull := full.sums
      rw [← lawful.bufferLength_eq] at sumsFull blockFull publicFull ⊢
      exact Transform.length_accumulate sumsFull blockFull publicFull
    obtain ⟨stays, sums⟩ := ih (fun other member => reachable other (List.mem_cons_of_mem _ member))
      next (row.drop context.dimension)
    refine ⟨stays, ?_⟩
    rw [addBlocks, sums, added]
    rfl

/-- A row gives the same words in every full workspace, and leaves a full workspace. -/
theorem computeRow_spec (width : Width) (tables : SwitchTables) {workspace : Workspace}
    (full : workspace.Full context) (row : List UInt32) :
    (workspace.computeRow context tables publics row : List (LweWord width) × Workspace).1 =
        Hint.computeRow context tables publics row ∧
      (workspace.computeRow context tables publics row :
        List (LweWord width) × Workspace).2.Full context := by
  have cleared : Full context
      { workspace with sums := List.replicate workspace.sums.length 0 } :=
    ⟨full.residues, by rw [List.length_replicate, full.sums]⟩
  obtain ⟨stays, sums⟩ := addBlocks_spec lawful reachable cleared row
  have zeros : List.replicate workspace.sums.length (0 : UInt64) =
      List.replicate context.transform.bufferLength 0 := by
    rw [full.sums, lawful.bufferLength_eq]
  constructor
  · rw [computeRow, sums, zeros]
    rfl
  · refine ⟨stays.residues, ?_⟩
    have long := lawful.full_buffer stays.sums
    rw [← lawful.bufferLength_eq]
    exact Transform.length_inverse (Transform.length_reduce long)

/-- Rows in one workspace give the words of independent rows. -/
theorem computeRowsOnto_eq {width : Width} (tables : SwitchTables) {workspace : Workspace}
    (full : workspace.Full context) (rows : List (List UInt32)) (done : List (LweWord width)) :
    workspace.computeRowsOnto context tables publics rows done =
      done.reverse ++ rows.flatMap (Hint.computeRow context tables publics) := by
  induction rows generalizing workspace done with
  | nil => rw [computeRowsOnto, List.flatMap_nil, List.append_nil]
  | cons row rows ih =>
    obtain ⟨words, left⟩ := computeRow_spec lawful reachable width tables full row
    simp only [computeRowsOnto]
    rw [ih left, words, List.reverse_append, List.reverse_reverse,
      List.flatMap_cons, List.append_assoc]

end Lawful

end Workspace

/-- The hint of rows in one workspace is that of independent rows. -/
theorem computeSequential_eq {context : Context} (lawful : context.Lawful) (width : Width)
    (matrix : List UInt32) (rows columns : Nat) (seeds : List Seed) :
    computeSequential context width matrix rows columns seeds =
      compute context width matrix rows columns seeds := by
  have reachable := reachable_of_mem_transposedPublics context seeds
  simp only [computeSequential, compute,
    Workspace.computeRowsOnto_eq lawful reachable _ (Workspace.full_fresh lawful),
    List.reverse_nil, List.nil_append]

end RingLwe.Hint
