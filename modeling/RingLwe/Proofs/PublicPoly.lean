import RingLwe.Proofs.ResiduePoly
import RingLwe.PublicPoly

/-!
# Public polynomials of a context

The public polynomials of a context are those that are derived from seeds, and
their transposes (`Reachable`); all of them belong to the context in the
transformed domain (`Reachable.belongs`).  The matrix of the transpose of a
polynomial is the transposed matrix (`entry_transposeCoefficients`).
-/

set_option autoImplicit false

namespace RingLwe.PublicPoly

open Residue ResiduePoly

/-- The public polynomials that a context can have. -/
inductive Reachable (context : Context) : PublicPoly → Prop
  | derive (seed : Seed) : Reachable context (PublicPoly.derive context seed)
  | transpose {a : PublicPoly} : Reachable context a → Reachable context a.transpose

/-! ## Transposed runs -/

section Run

variable {q : UInt64} {words : List UInt64}

theorem length_transposeRun : (transposeRun q words).length = words.length := by
  cases words with
  | nil => rfl
  | cons constant others =>
    rw [transposeRun, List.length_cons, List.length_map, List.length_reverse, List.length_cons]

theorem transposeRun_reduced (reduced : ∀ word ∈ words, word < q) :
    ∀ word ∈ transposeRun q words, word < q := by
  cases words with
  | nil => exact reduced
  | cons constant others =>
    obtain ⟨first, rest⟩ := List.forall_mem_cons.mp reduced
    refine List.forall_mem_cons.mpr ⟨first, ?_⟩
    intro word member
    obtain ⟨origin, inside, rfl⟩ := List.mem_map.mp member
    exact neg_lt (rest origin (List.mem_reverse.mp inside))

theorem getD_transposeRun_zero : (transposeRun q words).getD 0 0 = words.getD 0 0 := by
  cases words with
  | nil => rfl
  | cons constant others => rfl

/-- Behind the constant the coefficients are backwards and negated. -/
theorem getD_transposeRun {position : Nat} (positive : 0 < position)
    (inside : position < words.length) :
    (transposeRun q words).getD position 0 =
      Residue.neg (words.getD (words.length - position) 0) q := by
  cases words with
  | nil => cases inside
  | cons constant others =>
    obtain ⟨before, rfl⟩ := Nat.exists_eq_succ_of_ne_zero (Nat.pos_iff_ne_zero.mp positive)
    rw [List.length_cons] at inside
    have short : before < others.length := Nat.lt_of_succ_lt_succ inside
    have flipped : (constant :: others).length - before.succ = others.length - 1 - before + 1 := by
      rw [List.length_cons]
      omega
    rw [transposeRun, List.getD_cons_succ, flipped, List.getD_cons_succ,
      getD_map _ _ (by simpa using short) 0 0, List.getD_eq_getElem _ _ (by simpa using short),
      List.getElem_reverse, List.getD_eq_getElem]

end Run

/-! ## Transposed polynomials -/

section Transpose

variable {context : Context} {poly : ResiduePoly} (belongs : Belongs context .coefficient poly)
include belongs

theorem length_of_transposeRun {words : List UInt64}
    (member : words ∈ components context.dimension context.moduli.length poly.residues)
    (q : UInt64) : (transposeRun q words).length = context.dimension := by
  rw [length_transposeRun]
  exact length_of_mem_components (full_moduli belongs) member

theorem run_transposeCoefficients {index : Nat} {q : UInt64}
    (present : context.moduli[index]? = some q) :
    run context.dimension (transposeCoefficients context.moduli poly).residues index =
      transposeRun q (run context.dimension poly.residues index) := by
  have inside := (List.getElem?_eq_some_iff.mp present).1
  rw [transposeCoefficients, belongs.size]
  exact run_flatten_zipWith (fun q _ words member => length_of_transposeRun belongs member q) present
    (getElem?_components _ _ inside)

theorem belongs_transposeCoefficients :
    Belongs context .coefficient (transposeCoefficients context.moduli poly) := by
  refine ⟨belongs.size, belongs.domain, ?_, fun index q present => ?_⟩
  · rw [transposeCoefficients, belongs.size,
      length_flatten_zipWith (fun q _ words member => length_of_transposeRun belongs member q)
        (length_components _ _ _).symm, Context.Lawful.length_moduli]
  · rw [run_transposeCoefficients belongs present]
    exact transposeRun_reduced (belongs.reduced index q present)

/-- The matrix of the transpose modulo every prime is the transposed matrix. -/
theorem entry_transposeCoefficients {index : Nat} {q : UInt64}
    (present : context.moduli[index]? = some q) {row column : Nat}
    (rowInside : row < context.dimension) (columnInside : column < context.dimension) :
    Negacyclic.entry context.dimension
        (classesAt q context.dimension (transposeCoefficients context.moduli poly).residues index)
        row column =
      Negacyclic.entry context.dimension
        (classesAt q context.dimension poly.residues index) column row := by
  have enough : index < context.primeCount := by
    rw [← Context.Lawful.length_moduli]
    exact (List.getElem?_eq_some_iff.mp present).1
  have long := length_run belongs.full enough
  have read : ∀ (words : List UInt64) (position : Nat),
      (words.map (classOf q)).getD position 0 = classOf q (words.getD position 0) := by
    intro words position
    have mapped := List.getD_map (l := words) (d := 0) (n := position) (classOf q)
    rwa [classOf_zero] at mapped
  rw [classesAt, run_transposeCoefficients belongs present, classesAt]
  refine Negacyclic.entry_transpose ?_ (fun position positive inside => ?_) rowInside columnInside
  · rw [read, read, getD_transposeRun_zero]
  · have flippedInside : context.dimension - position <
        (run context.dimension poly.residues index).length := by
      rw [long]
      omega
    rw [read, read, getD_transposeRun positive (by rw [long]; exact inside), long, classOf_neg]
    rw [List.getD_eq_getElem _ _ flippedInside]
    exact belongs.reduced index q present _ (List.getElem_mem flippedInside)

end Transpose

/-! ## Reachable polynomials -/

section Reachable

variable {context : Context} (lawful : context.Lawful)
include lawful

theorem belongs_derive (seed : Seed) :
    Belongs context .transformed (PublicPoly.derive context seed).poly :=
  belongs_toTransformed lawful (belongs_uniform lawful _)

omit lawful in
theorem belongs_transpose {a : PublicPoly} (lawful : a.context.Lawful)
    (belongs : Belongs a.context .transformed a.poly) :
    Belongs a.context .transformed a.transpose.poly :=
  belongs_toTransformed lawful
    (belongs_transposeCoefficients (belongs_toCoefficient lawful belongs))

theorem Reachable.belongs {a : PublicPoly} (reachable : Reachable context a) :
    a.context = context ∧ Belongs context .transformed a.poly := by
  induction reachable with
  | derive seed => exact ⟨rfl, belongs_derive lawful seed⟩
  | transpose _ ih =>
    obtain ⟨rfl, belongs⟩ := ih
    exact ⟨rfl, belongs_transpose lawful belongs⟩

theorem Reachable.coefficients_spec {a : PublicPoly} (reachable : Reachable context a) :
    Belongs context .coefficient a.coefficients ∧
      a.poly = a.coefficients.toTransformed context.transform := by
  obtain ⟨rfl, belongs⟩ := reachable.belongs lawful
  exact ⟨belongs_toCoefficient lawful belongs,
    (toTransformed_toCoefficient lawful belongs).symm⟩

theorem Reachable.coefficients_transpose {a : PublicPoly} (reachable : Reachable context a) :
    a.transpose.coefficients = transposeCoefficients context.moduli a.coefficients := by
  obtain ⟨rfl, belongs⟩ := reachable.belongs lawful
  exact toCoefficient_toTransformed lawful
    (belongs_transposeCoefficients (belongs_toCoefficient lawful belongs))

end Reachable

end RingLwe.PublicPoly
