import RingLwe.Proofs.PublicPoly
import RingLwe.Proofs.Transform.Overflow

/-!
# Transposition in place

The coefficients of a run are transposed by exchanges: those of a position and
of its mirror image trade places and are negated, from the ends to the middle,
and the coefficient in the middle is negated where it stands (`transposeRun?`).
Positions that do not exist are refused, and so are words that are not reduced.

While the exchanges go on, the run is a constant, the part that is done, the part
that is left around the middle, and the part that is done behind it
(`foldlM_exchange?`).  At the end it is the run backwards and negated behind its
constant (`transposeRun?_eq`), for every even size.  A whole public polynomial
leaves the transformed domain, is transposed run by run, and enters it again
without any refusal (`transposeInPlace?_eq`).
-/

set_option autoImplicit false

namespace RingLwe

open Residue

namespace PublicPoly

/-! ## One run -/

/-- The negatives of two residues, exchanged, with their ranges. -/
def exchange? (q low high : UInt64) : Option (UInt64 × UInt64) := do
  let first ← neg? high q
  let second ← neg? low q
  some (first, second)

/-- The transpose of the coefficients of one run in place. -/
def transposeRun? (n : Nat) (q : UInt64) (words : List UInt64) : Option (List UInt64) := do
  let exchanged ← (List.range' 1 (n / 2 - 1)).foldlM
    (fun buffer index => replacePair? (exchange? q) index (n - index) buffer) words
  let middle ← exchanged[n / 2]?
  let negated ← neg? middle q
  some (exchanged.set (n / 2) negated)

section Run

variable {q : UInt64}

theorem exchange?_eq {low high : UInt64} (lowReduced : low < q) (highReduced : high < q) :
    exchange? q low high = some (neg high q, neg low q) := by
  rw [exchange?, neg?_eq highReduced, Option.bind_eq_bind, Option.bind_some, neg?_eq lowReduced]
  rfl

/-- Exchanges from some position on.  The words that are left in front of the middle are exchanged
with those behind it, of which the last come first. -/
theorem foldlM_exchange? {n : Nat} {low back : List UInt64} (before : List UInt64) (middle : UInt64)
    (after : List UInt64) (even : low.length = back.length)
    (ends : before.length = after.length + 1)
    (whole : n = before.length + low.length + 1 + back.length + after.length)
    (lowReduced : ∀ word ∈ low, word < q) (backReduced : ∀ word ∈ back, word < q) :
    (List.range' before.length low.length).foldlM
        (fun buffer index => replacePair? (exchange? q) index (n - index) buffer)
        (before ++ (low ++ middle :: (back.reverse ++ after))) =
      some (before ++
        (back.map (neg · q) ++ middle :: ((low.map (neg · q)).reverse ++ after))) := by
  induction low generalizing back before after with
  | nil =>
    cases back with
    | nil => rfl
    | cons second back => cases even
  | cons first low ih =>
    cases back with
    | nil => cases even
    | cons second back =>
      obtain ⟨firstReduced, lowRest⟩ := List.forall_mem_cons.mp lowReduced
      obtain ⟨secondReduced, backRest⟩ := List.forall_mem_cons.mp backReduced
      simp only [List.length_cons] at even whole
      have mirror : n - before.length =
          before.length + ((low ++ middle :: back.reverse).length + 1) := by
        rw [List.length_append, List.length_cons, List.length_reverse]
        omega
      have replaced := replacePair?_eq before (low ++ middle :: back.reverse) after
        (exchange?_eq firstReduced secondReduced)
      have rest := ih (before ++ [neg second q]) (neg first q :: after) (Nat.succ.inj even)
        (by simp [ends]) (by simp; omega) lowRest backRest
      rw [← mirror] at replaced
      simp only [List.length_append, List.length_cons, List.length_nil, List.append_assoc,
        List.cons_append, List.nil_append] at replaced rest
      simp only [List.length_cons, List.range'_succ, List.foldlM_cons, List.reverse_cons,
        List.append_assoc, List.cons_append, List.nil_append, replaced, Option.bind_eq_bind,
        Option.bind_some, rest, List.map_cons]

/-- A list of an even positive length is its first item and the others around the middle. -/
theorem exists_middle {half : Nat} {words : List UInt64} (full : words.length = 2 * (half + 1)) :
    ∃ constant low middle back, words = constant :: (low ++ middle :: List.reverse back) ∧
      low.length = half ∧ back.length = half := by
  obtain ⟨constant, others, rfl⟩ := List.exists_cons_of_length_pos (by omega : 0 < words.length)
  rw [List.length_cons] at full
  obtain ⟨middle, rest, cut⟩ := List.exists_cons_of_length_pos
    (by rw [List.length_drop]; omega : 0 < (others.drop half).length)
  refine ⟨constant, others.take half, middle, rest.reverse, ?_, ?_, ?_⟩
  · rw [List.reverse_reverse, ← cut, List.take_append_drop]
  · rw [List.length_take]
    omega
  · have length := congrArg List.length cut
    rw [List.length_drop, List.length_cons] at length
    rw [List.length_reverse]
    omega

/-- In place a run of reduced words becomes its transpose. -/
theorem transposeRun?_eq {n : Nat} (even : n % 2 = 0) (positive : 0 < n) {words : List UInt64}
    (full : words.length = n) (reduced : ∀ word ∈ words, word < q) :
    transposeRun? n q words = some (transposeRun q words) := by
  obtain ⟨half, rfl⟩ : ∃ half, n = 2 * (half + 1) := ⟨n / 2 - 1, by omega⟩
  obtain ⟨constant, low, middle, back, rfl, lowFull, backFull⟩ := exists_middle full
  obtain ⟨_, othersReduced⟩ := List.forall_mem_cons.mp reduced
  obtain ⟨lowReduced, restReduced⟩ := List.forall_mem_append.mp othersReduced
  obtain ⟨middleReduced, backReduced⟩ := List.forall_mem_cons.mp restReduced
  have exchanged := foldlM_exchange? [constant] middle [] (lowFull.trans backFull.symm) rfl
    (by simp only [List.length_singleton, List.length_nil]; omega : 2 * (half + 1) = _) lowReduced
    (fun word member => backReduced word (List.mem_reverse.mpr member))
  have steps : 2 * (half + 1) / 2 - 1 = low.length := by omega
  have centre : 2 * (half + 1) / 2 = (constant :: back.map (neg · q)).length := by
    rw [List.length_cons, List.length_map]
    omega
  have found : (constant :: (back.map (neg · q) ++ middle :: (low.map (neg · q)).reverse))[
      (constant :: back.map (neg · q)).length]? = some middle := by simp
  simp only [List.append_nil, List.length_singleton, List.cons_append, List.nil_append] at exchanged
  rw [transposeRun?, steps, exchanged, Option.bind_eq_bind, Option.bind_some, centre, found,
    Option.bind_eq_bind, Option.bind_some, neg?_eq middleReduced, transposeRun]
  simp

end Run

end PublicPoly

/-! ## Changes of the domain -/

namespace ResiduePoly

/-- The polynomial in the transformed domain, with the ranges of the transform. -/
def toTransformed? (transform : Transform) (poly : ResiduePoly) : Option ResiduePoly :=
  match poly.domain with
  | .coefficient => do
    let residues ← transform.forward? poly.residues
    some { poly with residues := residues, domain := .transformed }
  | .transformed => some poly

/-- The polynomial in the coefficient domain, with the ranges of the transform. -/
def toCoefficient? (transform : Transform) (poly : ResiduePoly) : Option ResiduePoly :=
  match poly.domain with
  | .coefficient => some poly
  | .transformed => do
    let residues ← transform.inverse? poly.residues
    some { poly with residues := residues, domain := .coefficient }

section Domains

variable {context : Context} (lawful : context.Lawful) {poly : ResiduePoly}
include lawful

theorem toTransformed?_eq {domain : Domain} (belongs : Belongs context domain poly) :
    poly.toTransformed? context.transform = some (poly.toTransformed context.transform) := by
  rw [toTransformed?, toTransformed]
  cases poly.domain with
  | coefficient =>
    rw [lawful.transform_spec.1.forward?_eq (lawful.full_buffer belongs.full)]
    rfl
  | transformed => rfl

theorem toCoefficient?_eq {domain : Domain} (belongs : Belongs context domain poly) :
    poly.toCoefficient? context.transform = some (poly.toCoefficient context.transform) := by
  obtain ⟨sound, size, moduli⟩ := lawful.transform_spec
  have reduced := belongs.reduced
  rw [← size, ← moduli] at reduced
  rw [toCoefficient?, toCoefficient]
  cases poly.domain with
  | coefficient => rfl
  | transformed =>
    rw [sound.inverse?_eq (lawful.full_buffer belongs.full) reduced]
    rfl

end Domains

end ResiduePoly

/-! ## Public polynomials -/

theorem Context.Lawful.dimension_even {context : Context} (lawful : context.Lawful) :
    context.dimension % 2 = 0 := by
  have listed := mem_dimensions lawful.supported
  simp only [dimensions, List.mem_cons, List.not_mem_nil, or_false] at listed
  omega

namespace PublicPoly

open ResiduePoly

/-- The transpose of a polynomial in the coefficient domain in place. -/
def transposeCoefficients? (n : Nat) (moduli : List UInt64) (poly : ResiduePoly) :
    Option ResiduePoly := do
  let runs ← (moduli.zip (components poly.size moduli.length poly.residues)).mapM
    fun pair => transposeRun? n pair.1 pair.2
  some { poly with residues := runs.flatten }

/-- The transpose of a public polynomial in place. -/
def transposeInPlace? (a : PublicPoly) : Option PublicPoly := do
  let coefficients ← a.poly.toCoefficient? a.context.transform
  let transposed ← transposeCoefficients? a.context.dimension a.context.moduli coefficients
  let poly ← transposed.toTransformed? a.context.transform
  some { a with poly := poly, transposed := !a.transposed }

section InPlace

variable {context : Context} (lawful : context.Lawful)
include lawful

theorem transposeCoefficients?_eq {poly : ResiduePoly}
    (belongs : Belongs context .coefficient poly) :
    transposeCoefficients? context.dimension context.moduli poly =
      some (transposeCoefficients context.moduli poly) := by
  have each : ∀ index q, context.moduli[index]? = some q →
      transposeRun? context.dimension q (run context.dimension poly.residues index) =
        some (transposeRun q (run context.dimension poly.residues index)) := by
    intro index q present
    exact transposeRun?_eq lawful.dimension_even lawful.dimension_pos
      (length_run (full_moduli belongs) (List.getElem?_eq_some_iff.mp present).1)
      (belongs.reduced index q present)
  rw [transposeCoefficients?, transposeCoefficients, belongs.size,
    mapM_zip_components context.dimension each]
  rfl

/-- In place a public polynomial becomes its transpose, without any refusal. -/
theorem transposeInPlace?_eq {a : PublicPoly} (bound : a.context = context)
    (belongs : Belongs context .transformed a.poly) : a.transposeInPlace? = some a.transpose := by
  obtain rfl := bound
  have coefficients : Belongs a.context .coefficient a.coefficients :=
    belongs_toCoefficient lawful belongs
  have entered := toTransformed?_eq lawful (belongs_transposeCoefficients coefficients)
  rw [transposeInPlace?, toCoefficient?_eq lawful belongs, Option.bind_eq_bind, Option.bind_some]
  change (transposeCoefficients? a.context.dimension a.context.moduli a.coefficients).bind _ = _
  rw [transposeCoefficients?_eq lawful coefficients, Option.bind_some, entered]
  rfl

end InPlace

end PublicPoly

end RingLwe
