import RingLwe.Proofs.Context
import RingLwe.Proofs.Random
import RingLwe.PublicPoly
import RingLwe.ResiduePoly

/-!
# Polynomials of a context

A polynomial belongs to a context when it has the dimension and the primes of
the context and all of its residues are reduced (`Belongs`).  The operations
keep that, the two domains are converted back and forth without loss
(`toCoefficient_toTransformed`, `toTransformed_toCoefficient`), and the product
in the transformed domain has the classes of the product modulo `X^n + 1`
(`Transform.Sound.classes_inverse_pointwise`).
-/

set_option autoImplicit false

namespace RingLwe

open Residue

/-! ## Residues by prime -/

/-- The classes of the residues of a buffer modulo the prime of the given number. -/
def classesAt (q : UInt64) (size : Nat) (residues : List UInt64) (index : Nat) :
    List (ZMod q.toNat) :=
  (run size residues index).map (classOf q)

theorem getD_classesAt (q : UInt64) {size position : Nat} (residues : List UInt64) (index : Nat)
    (inside : position < size) :
    (classesAt q size residues index).getD position 0 =
      classOf q (residues.getD (index * size + position) 0) := by
  have mapped := List.getD_map (l := run size residues index) (d := 0) (n := position) (classOf q)
  rw [classOf_zero] at mapped
  rw [classesAt, mapped, getD_run residues index inside]

/-- The transformed product of two transforms has the classes of the product modulo `X^n + 1`. -/
theorem Transform.Sound.classes_inverse_pointwise {transform : Transform} (sound : transform.Sound)
    {left right : List UInt64} (leftFull : left.length = transform.bufferLength)
    (rightFull : right.length = transform.bufferLength) {index : Nat} {q : UInt64}
    (present : transform.moduli[index]? = some q) :
    classesAt q transform.size
        (transform.inverse (transform.pointwise (transform.forward left) (transform.forward right)))
        index =
      Negacyclic.product transform.size (classesAt q transform.size left index)
        (classesAt q transform.size right index) := by
  rw [Transform.moduli, List.getElem?_map] at present
  obtain ⟨channel, found, rfl⟩ := Option.map_eq_some_iff.mp present
  have channelSound := sound.channel found
  have leftForward := Transform.length_forward leftFull
  have rightForward := Transform.length_forward rightFull
  have leftRun := Transform.length_run_pow leftFull found
  have rightRun := Transform.length_run_pow rightFull found
  rw [classesAt, Transform.run_inverse (Transform.length_pointwise leftForward rightForward) found,
    Transform.run_pointwise leftForward rightForward found, Transform.run_forward leftFull found,
    Transform.run_forward rightFull found]
  refine channelSound.classes_inverse ?_ ?_ ?_
  · exact (channelSound.pointwise_spec (channelSound.forward_spec _).1).1
  · rw [Negacyclic.length_product, Transform.size_eq]
  · rw [channelSound.pointwise_forward leftRun rightRun, Transform.size_eq]
    rfl

/-! ## Buffers of a context -/

namespace Context.Lawful

variable {context : Context} (lawful : context.Lawful) {buffer : List UInt64}
  (full : buffer.length = context.dimension * context.primeCount)
include lawful full

theorem full_buffer : buffer.length = context.transform.bufferLength := by
  rw [lawful.bufferLength_eq, full]

theorem length_forward :
    (context.transform.forward buffer).length = context.dimension * context.primeCount := by
  rw [Transform.length_forward (lawful.full_buffer full), lawful.bufferLength_eq]

theorem length_inverse :
    (context.transform.inverse buffer).length = context.dimension * context.primeCount := by
  rw [Transform.length_inverse (lawful.full_buffer full), lawful.bufferLength_eq]

theorem reduced_forward :
    Reduced context.dimension context.moduli (context.transform.forward buffer) := by
  obtain ⟨sound, size, moduli⟩ := lawful.transform_spec
  rw [← size, ← moduli]
  exact sound.reduced_forward (lawful.full_buffer full)

variable (reduced : Reduced context.dimension context.moduli buffer)
include reduced

theorem reduced_inverse :
    Reduced context.dimension context.moduli (context.transform.inverse buffer) := by
  obtain ⟨sound, size, moduli⟩ := lawful.transform_spec
  rw [← size, ← moduli] at reduced ⊢
  exact sound.reduced_inverse (lawful.full_buffer full) reduced

theorem inverse_forward : context.transform.inverse (context.transform.forward buffer) = buffer := by
  obtain ⟨sound, size, moduli⟩ := lawful.transform_spec
  rw [← size, ← moduli] at reduced
  exact sound.inverse_forward (lawful.full_buffer full) reduced

theorem forward_inverse : context.transform.forward (context.transform.inverse buffer) = buffer := by
  obtain ⟨sound, size, moduli⟩ := lawful.transform_spec
  rw [← size, ← moduli] at reduced
  exact sound.forward_inverse (lawful.full_buffer full) reduced

end Context.Lawful

namespace ResiduePoly

/-- Whether a polynomial is one of a context, in the given domain. -/
structure Belongs (context : Context) (domain : Domain) (poly : ResiduePoly) : Prop where
  size : poly.size = context.dimension
  domain : poly.domain = domain
  full : poly.residues.length = context.dimension * context.primeCount
  reduced : Reduced context.dimension context.moduli poly.residues

theorem Belongs.transfer {context other : Context} (same : Context.SameRing context other)
    {domain : Domain} {poly : ResiduePoly} (belongs : Belongs context domain poly) :
    Belongs other domain poly := by
  obtain ⟨size, kind, full, reduced⟩ := belongs
  rw [same.dimension] at size full reduced
  rw [same.primeCount] at full
  rw [same.moduli] at reduced
  exact ⟨size, kind, full, reduced⟩

/-! ## Domains -/

section Domains

variable {context : Context} (lawful : context.Lawful) {poly : ResiduePoly}
include lawful

theorem belongs_toTransformed (belongs : Belongs context .coefficient poly) :
    Belongs context .transformed (poly.toTransformed context.transform) := by
  rw [toTransformed, belongs.domain]
  exact ⟨belongs.size, rfl, lawful.length_forward belongs.full, lawful.reduced_forward belongs.full⟩

theorem belongs_toCoefficient (belongs : Belongs context .transformed poly) :
    Belongs context .coefficient (poly.toCoefficient context.transform) := by
  rw [toCoefficient, belongs.domain]
  exact ⟨belongs.size, rfl, lawful.length_inverse belongs.full,
    lawful.reduced_inverse belongs.full belongs.reduced⟩

theorem checkedToCoefficient_eq_ok (belongs : Belongs context .transformed poly) :
    poly.checkedToCoefficient context.transform = .ok (poly.toCoefficient context.transform) := by
  rw [checkedToCoefficient, belongs.domain]
  apply Transform.checked_eq_ok
  intro buffer member
  rw [List.mem_singleton.mp member, lawful.full_buffer belongs.full]

theorem toCoefficient_toTransformed (belongs : Belongs context .coefficient poly) :
    (poly.toTransformed context.transform).toCoefficient context.transform = poly := by
  obtain ⟨residues, size, domain⟩ := poly
  obtain rfl : domain = .coefficient := belongs.domain
  simp only [toTransformed, toCoefficient, lawful.inverse_forward belongs.full belongs.reduced]

theorem toTransformed_toCoefficient (belongs : Belongs context .transformed poly) :
    (poly.toCoefficient context.transform).toTransformed context.transform = poly := by
  obtain ⟨residues, size, domain⟩ := poly
  obtain rfl : domain = .transformed := belongs.domain
  simp only [toTransformed, toCoefficient, lawful.forward_inverse belongs.full belongs.reduced]

end Domains

/-! ## Arithmetic -/

section Combine

variable {operation : UInt64 → UInt64 → UInt64 → UInt64} {size : Nat}

/-- On lists of the right length every pair of runs is combined. -/
theorem combineRuns_eq (moduli : List UInt64) {left right : List UInt64}
    (leftFull : left.length = size * moduli.length)
    (rightFull : right.length = size * moduli.length) :
    combineRuns operation size moduli left right =
      (List.zipWith (fun q (pair : List UInt64 × List UInt64) =>
        List.zipWith (operation · · q) pair.1 pair.2) moduli
          ((components size moduli.length left).zip (components size moduli.length right))).flatten := by
  induction moduli generalizing left right with
  | nil => exact List.length_eq_zero_iff.mp leftFull
  | cons q moduli ih =>
    rw [List.length_cons, Nat.mul_succ] at leftFull rightFull
    rw [combineRuns, ih (by rw [List.length_drop]; omega) (by rw [List.length_drop]; omega)]
    rfl

variable {moduli left right : List UInt64} (leftFull : left.length = size * moduli.length)
  (rightFull : right.length = size * moduli.length)
include leftFull rightFull

theorem length_of_mem_zip {pair : List UInt64 × List UInt64}
    (member : pair ∈ (components size moduli.length left).zip (components size moduli.length right))
    (q : UInt64) : (List.zipWith (operation · · q) pair.1 pair.2).length = size := by
  obtain ⟨leftMember, rightMember⟩ := List.of_mem_zip member
  rw [List.length_zipWith, length_of_mem_components leftFull leftMember,
    length_of_mem_components rightFull rightMember, Nat.min_self]

theorem length_combineRuns :
    (combineRuns operation size moduli left right).length = size * moduli.length := by
  rw [combineRuns_eq moduli leftFull rightFull]
  refine length_flatten_zipWith (fun q _ pair member => ?_) ?_
  · exact length_of_mem_zip leftFull rightFull member q
  · rw [List.length_zip, length_components, length_components, Nat.min_self]

theorem run_combineRuns {index : Nat} {q : UInt64} (present : moduli[index]? = some q) :
    run size (combineRuns operation size moduli left right) index =
      List.zipWith (operation · · q) (run size left index) (run size right index) := by
  have inside := (List.getElem?_eq_some_iff.mp present).1
  rw [combineRuns_eq moduli leftFull rightFull]
  refine run_flatten_zipWith (fun q _ pair member => ?_) present
    (getElem?_zip_components size left right inside)
  exact length_of_mem_zip leftFull rightFull member q

end Combine

section Operations

variable {context : Context} (lawful : context.Lawful) {left right : ResiduePoly}
include lawful

/-- The product of transformed polynomials of a context is one. -/
theorem belongs_mul (leftBelongs : Belongs context .transformed left)
    (rightBelongs : Belongs context .transformed right) :
    Belongs context .transformed (left.mul context.transform right) := by
  obtain ⟨sound, size, moduli⟩ := lawful.transform_spec
  have leftFull := lawful.full_buffer leftBelongs.full
  have rightFull := lawful.full_buffer rightBelongs.full
  have rightReduced := rightBelongs.reduced
  refine ⟨leftBelongs.size, rfl, ?_, ?_⟩
  · rw [mul, Transform.length_pointwise leftFull rightFull, lawful.bufferLength_eq]
  · rw [← size, ← moduli] at rightReduced ⊢
    exact sound.reduced_pointwise leftFull rightFull rightReduced

omit lawful in
theorem full_moduli {domain : Domain} (belongs : Belongs context domain left) :
    left.residues.length = context.dimension * context.moduli.length := by
  rw [belongs.full, Context.Lawful.length_moduli]

variable {domain : Domain} (leftBelongs : Belongs context domain left)
  (rightBelongs : Belongs context domain right)
include leftBelongs rightBelongs

omit lawful in
theorem run_add {index : Nat} {q : UInt64} (present : context.moduli[index]? = some q) :
    run context.dimension (left.add context.moduli right).residues index =
      List.zipWith (Residue.add · · q) (run context.dimension left.residues index)
        (run context.dimension right.residues index) := by
  have leftFull := full_moduli leftBelongs
  rw [add, combine, leftBelongs.size]
  exact run_combineRuns leftFull (full_moduli rightBelongs) present

theorem belongs_add : Belongs context domain (left.add context.moduli right) := by
  refine ⟨leftBelongs.size, leftBelongs.domain, ?_, fun index q present word member => ?_⟩
  · rw [add, combine, leftBelongs.size, length_combineRuns (full_moduli leftBelongs)
      (full_moduli rightBelongs), Context.Lawful.length_moduli]
  · have positive : 0 < q.toNat := (lawful.prime (List.mem_of_getElem? present)).pos
    rw [run_add leftBelongs rightBelongs present, ← List.map_uncurry_zip_eq_zipWith] at member
    obtain ⟨pair, _, rfl⟩ := List.mem_map.mp member
    exact add_lt positive _ _

/-- The class of a residue of a sum. -/
theorem classOf_add_at {index position : Nat} {q : UInt64}
    (present : context.moduli[index]? = some q) (inside : position < context.dimension) :
    classOf q ((left.add context.moduli right).residues.getD (index * context.dimension + position) 0) =
      classOf q (left.residues.getD (index * context.dimension + position) 0) +
        classOf q (right.residues.getD (index * context.dimension + position) 0) := by
  have positive : 0 < q.toNat := (lawful.prime (List.mem_of_getElem? present)).pos
  have enough : index < context.primeCount := by
    rw [← Context.Lawful.length_moduli]
    exact (List.getElem?_eq_some_iff.mp present).1
  have leftLong := length_run leftBelongs.full enough
  have rightLong := length_run rightBelongs.full enough
  rw [← getD_run _ index inside, run_add leftBelongs rightBelongs present,
    getD_zipWith _ _ _ (by rw [leftLong]; exact inside) (by rw [rightLong]; exact inside) 0 0 0,
    classOf_add positive, getD_run _ index inside, getD_run _ index inside]

end Operations

/-! ## Small integers -/

section Integers

variable {context : Context} {coefficients : List Int}
  (many : coefficients.length = context.dimension)
include many

theorem run_ofIntegers {index : Nat} {q : UInt64} (present : context.moduli[index]? = some q) :
    run context.dimension (ofIntegers coefficients context.moduli).residues index =
      coefficients.map (ofInt · q) := by
  rw [ofIntegers, List.flatMap_def]
  refine run_flatten (fun run member => ?_) ?_
  · obtain ⟨_, _, rfl⟩ := List.mem_map.mp member
    rw [List.length_map, many]
  · rw [List.getElem?_map, present, Option.map_some]

/-- The polynomial of as many integers as the dimension belongs to the context. -/
theorem belongs_ofIntegers (lawful : context.Lawful) :
    Belongs context .coefficient (ofIntegers coefficients context.moduli) := by
  have even : ∀ run ∈ context.moduli.map fun q => coefficients.map (ofInt · q),
      run.length = context.dimension := by
    intro run member
    obtain ⟨_, _, rfl⟩ := List.mem_map.mp member
    rw [List.length_map, many]
  refine ⟨many, rfl, ?_, fun index q present word member => ?_⟩
  · rw [ofIntegers, List.flatMap_def, length_flatten_of_even _ even, List.length_map,
      Context.Lawful.length_moduli]
  · rw [run_ofIntegers many present] at member
    obtain ⟨integer, _, rfl⟩ := List.mem_map.mp member
    exact ofInt_lt (lawful.prime (List.mem_of_getElem? present)).pos integer

theorem classOf_ofIntegers_at (lawful : context.Lawful) {index position : Nat} {q : UInt64}
    (present : context.moduli[index]? = some q) (inside : position < context.dimension) :
    classOf q ((ofIntegers coefficients context.moduli).residues.getD
        (index * context.dimension + position) 0) =
      ((coefficients.getD position 0 : Int) : ZMod q.toNat) := by
  rw [← getD_run _ index inside, run_ofIntegers many present,
    getD_map _ _ (by rw [many]; exact inside) 0 0,
    classOf_ofInt (lawful.prime (List.mem_of_getElem? present)).pos]

end Integers

/-! ## Uniform polynomials -/

/-- A uniform polynomial of any number of coefficients has reduced residues for every prime. -/
theorem uniform_spec {context : Context} (lawful : context.Lawful) (size : Nat) :
    Stream.Gives (uniform size context.moduli) fun poly =>
      poly.size = size ∧ poly.domain = .coefficient ∧
        poly.residues.length = size * context.primeCount ∧
        Reduced size context.moduli poly.residues := by
  have runs : Stream.Gives
      (context.moduli.mapM fun q => Stream.times size (Stream.below q))
      (List.Forall₂ (fun q run => run.length = size ∧ ∀ word ∈ run, word < q) context.moduli) :=
    Stream.Gives.mapM fun q member =>
      Stream.times_spec (Stream.below_lt (lawful.prime member).pos) size
  refine Stream.Gives.bind runs fun runs valid => Stream.Gives.pure ?_
  have even : ∀ run ∈ runs, run.length = size := by
    intro run member
    obtain ⟨_, _, length, _⟩ := exists_of_mem_of_forall₂ valid member
    exact length
  refine ⟨rfl, rfl, ?_, fun index q present word member => ?_⟩
  · rw [length_flatten_of_even _ even, ← valid.length_eq, Context.Lawful.length_moduli]
  · obtain ⟨inside, found⟩ := List.getElem?_eq_some_iff.mp present
    have enough : index < runs.length := valid.length_eq ▸ inside
    rw [run_flatten even (List.getElem?_eq_getElem enough)] at member
    have related := (List.forall₂_iff_get.mp valid).2 index inside enough
    simp only [List.get_eq_getElem, found] at related
    exact related.2 word member

theorem belongs_uniform {context : Context} (lawful : context.Lawful) :
    Stream.Gives (uniform context.dimension context.moduli) (Belongs context .coefficient) := by
  refine (uniform_spec lawful context.dimension).mono fun poly spec => ?_
  obtain ⟨size, domain, full, reduced⟩ := spec
  exact ⟨size, domain, full, reduced⟩

end ResiduePoly

end RingLwe
