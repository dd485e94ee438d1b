import RingLwe.Proofs.Layout
import RingLwe.Proofs.Transform.Network

/-!
# Butterfly networks in place

The networks once more, stage by stage on one buffer: all nodes of a depth
before those of the next.  A butterfly reads two positions of the buffer and
writes them back, a node takes its butterflies from the front, and every node
reads its twiddle factor from a table.  A position or a factor that does not
exist is refused, and so is a butterfly that leaves its range.

The nodes of a stage work on consecutive runs of the buffer (`onNodes`), and
one node replaces the halves of its run (`block?_eq`, `stage?_eq`).  So a stage
turns the networks that are still to be done at its nodes into those of their
children (`onNodes_forward`), and the networks that are done at the children
into those of the nodes (`onNodes_inverse`).  Going from the root to the leaves
therefore gives the forward network (`forwardStages?_eq`), and going from the
leaves to the root the inverse one (`inverseStages?_eq`).
-/

set_option autoImplicit false

namespace RingLwe.Network

variable {α : Type}

/-! ## Stages -/

/-- The butterflies of one node, whose run begins at a position and has twice the stride. -/
def block? (butterfly? : α → α → Option (α × α)) (stride start : Nat) (buffer : List α) :
    Option (List α) :=
  (List.range' start stride).foldlM
    (fun buffer position => replacePair? butterfly? position (position + stride) buffer) buffer

section Tables

variable (butterfly? : α → α → α → Option (α × α)) (twiddle? : Nat → Option α)

/-- The nodes of one stage.  The numbers of the nodes begin at their count. -/
def stage? (stride count : Nat) (buffer : List α) : Option (List α) :=
  (List.range' 0 count).foldlM
    (fun buffer index => do
      let factor ← twiddle? (count + index)
      block? (butterfly? factor) stride (2 * index * stride) buffer)
    buffer

/-- The stages from the nodes of a count down to the leaves.  The strides are halved. -/
def forwardStages? : (depth count : Nat) → List α → Option (List α)
  | 0, _, buffer => some buffer
  | depth + 1, count, buffer => do
    let next ← stage? butterfly? twiddle? (1 <<< depth) count buffer
    forwardStages? depth (2 * count) next

/-- The stages from nodes of a stride up to the root.  The strides are doubled. -/
def inverseStages? : (depth stride : Nat) → List α → Option (List α)
  | 0, _, buffer => some buffer
  | depth + 1, stride, buffer => do
    let next ← stage? butterfly? twiddle? stride (1 <<< depth) buffer
    inverseStages? depth (2 * stride) next

end Tables

/-! ## Butterflies -/

section Butterflies

variable (add sub mul : α → α → α)

/-- A butterfly of the forward network. -/
def scaleFirst (factor low high : α) : α × α :=
  (add low (mul high factor), sub low (mul high factor))

/-- A butterfly of the inverse network. -/
def scaleLast (factor low high : α) : α × α :=
  (add low high, mul (sub low high) factor)

variable (add? sub? mul? : α → α → Option α)

/-- A butterfly of the forward network, with operations that may be refused. -/
def scaleFirst? (factor low high : α) : Option (α × α) := do
  let scaled ← mul? high factor
  let sum ← add? low scaled
  let difference ← sub? low scaled
  some (sum, difference)

/-- A butterfly of the inverse network, with operations that may be refused. -/
def scaleLast? (factor low high : α) : Option (α × α) := do
  let sum ← add? low high
  let difference ← sub? low high
  let scaled ← mul? difference factor
  some (sum, scaled)

end Butterflies

/-- A butterfly that answers on valid words, with valid words. -/
structure Answers (butterfly? : α → α → α → Option (α × α)) (butterfly : α → α → α → α × α)
    (valid : α → Prop) : Prop where
  answer : ∀ factor low high, valid factor → valid low → valid high →
    butterfly? factor low high = some (butterfly factor low high)
  left : ∀ factor low high, valid factor → valid low → valid high →
    valid (butterfly factor low high).1
  right : ∀ factor low high, valid factor → valid low → valid high →
    valid (butterfly factor low high).2

/-- Operations that are not refused on valid words, beside those that are never refused. -/
structure InRange (add? sub? mul? : α → α → Option α) (add sub mul : α → α → α)
    (valid : α → Prop) : Prop where
  add : ∀ left right, valid left → valid right → add? left right = some (add left right)
  sub : ∀ left right, valid left → valid right → sub? left right = some (sub left right)
  mul : ∀ left right, valid left → valid right → mul? left right = some (mul left right)

namespace InRange

variable {R : Type} [CommRing R] {add? sub? mul? : α → α → Option α} {add sub mul : α → α → α}
  {valid : α → Prop} {view : α → R} (inRange : InRange add? sub? mul? add sub mul valid)
  (reading : Reading add sub mul valid view)
include inRange reading

theorem answers_scaleFirst :
    Answers (scaleFirst? add? sub? mul?) (scaleFirst add sub mul) valid where
  answer := by
    intro factor low high factorValid lowValid highValid
    have scaledValid := reading.valid_mul high factor highValid factorValid
    rw [scaleFirst?, inRange.mul _ _ highValid factorValid, Option.bind_eq_bind, Option.bind_some,
      inRange.add _ _ lowValid scaledValid, Option.bind_some, inRange.sub _ _ lowValid scaledValid]
    rfl
  left := fun _ _ _ factorValid lowValid highValid =>
    reading.valid_add _ _ lowValid (reading.valid_mul _ _ highValid factorValid)
  right := fun _ _ _ factorValid lowValid highValid =>
    reading.valid_sub _ _ lowValid (reading.valid_mul _ _ highValid factorValid)

theorem answers_scaleLast :
    Answers (scaleLast? add? sub? mul?) (scaleLast add sub mul) valid where
  answer := by
    intro factor low high factorValid lowValid highValid
    have differenceValid := reading.valid_sub low high lowValid highValid
    rw [scaleLast?, inRange.add _ _ lowValid highValid, Option.bind_eq_bind, Option.bind_some,
      inRange.sub _ _ lowValid highValid, Option.bind_some,
      inRange.mul _ _ differenceValid factorValid]
    rfl
  left := fun _ _ _ _ lowValid highValid => reading.valid_add _ _ lowValid highValid
  right := fun _ _ _ factorValid lowValid highValid =>
    reading.valid_mul _ _ (reading.valid_sub _ _ lowValid highValid) factorValid

end InRange

/-! ## One node -/

/-- What the butterflies of a node make of the halves of its run. -/
def combine (butterfly : α → α → α × α) (low high : List α) : List α :=
  List.zipWith (fun left right => (butterfly left right).1) low high ++
    List.zipWith (fun left right => (butterfly left right).2) low high

section Block

variable {butterfly? : α → α → Option (α × α)} {butterfly : α → α → α × α}

variable {valid : α → Prop}
  (answer : ∀ low high, valid low → valid high → butterfly? low high = some (butterfly low high))
include answer

/-- The butterflies of a node from some position on.  The items done so far lie before the low and
before the high items that are left. -/
theorem foldlM_replacePair? {stride : Nat} (after : List α) {low high : List α} (before middle : List α)
    (even : low.length = high.length) (apart : low.length + middle.length = stride)
    (lowValid : ∀ word ∈ low, valid word) (highValid : ∀ word ∈ high, valid word) :
    (List.range' before.length low.length).foldlM
        (fun buffer position => replacePair? butterfly? position (position + stride) buffer)
        (before ++ (low ++ middle ++ (high ++ after))) =
      some (before ++ (List.zipWith (fun left right => (butterfly left right).1) low high ++ middle ++
        (List.zipWith (fun left right => (butterfly left right).2) low high ++ after))) := by
  induction low generalizing high before middle with
  | nil =>
    cases high with
    | nil => rfl
    | cons second high => cases even
  | cons first low ih =>
    cases high with
    | nil => cases even
    | cons second high =>
      obtain ⟨firstValid, lowRest⟩ := List.forall_mem_cons.mp lowValid
      obtain ⟨secondValid, highRest⟩ := List.forall_mem_cons.mp highValid
      have stride_eq : stride = (low ++ middle).length + 1 := by
        rw [← apart, List.length_cons, List.length_append]
        omega
      have replaced := replacePair?_eq before (low ++ middle) (high ++ after)
        (answer first second firstValid secondValid)
      have rest := ih (before ++ [(butterfly first second).1])
        (middle ++ [(butterfly first second).2]) (Nat.succ.inj even)
        (by rw [stride_eq]; simp [Nat.add_assoc]) lowRest highRest
      rw [← stride_eq] at replaced
      simp only [List.length_append, List.length_cons, List.length_nil, List.append_assoc,
        List.cons_append, List.nil_append] at replaced rest
      simp only [List.length_cons, List.range'_succ, List.foldlM_cons, List.append_assoc,
        List.cons_append, replaced, Option.bind_eq_bind, Option.bind_some, rest,
        List.zipWith_cons_cons]

theorem block?_eq (before after : List α) {low high : List α} (even : low.length = high.length)
    (lowValid : ∀ word ∈ low, valid word) (highValid : ∀ word ∈ high, valid word) :
    block? butterfly? low.length before.length (before ++ (low ++ high ++ after)) =
      some (before ++ (combine butterfly low high ++ after)) := by
  have done := foldlM_replacePair? answer after before [] even rfl lowValid highValid
  rw [block?, combine, List.append_assoc low, List.append_assoc (List.zipWith _ _ _)]
  simpa only [List.append_nil, List.length_nil, Nat.add_zero] using done

end Block

/-! ## All nodes of a stage -/

/-- Applies a network to each of the runs of a list, for nodes with numbers from some number on. -/
def onNodes (network : Nat → List α → List α) (size count node : Nat) (values : List α) : List α :=
  (List.zipWith network (List.range' node count) (components size count values)).flatten

/-- The butterflies of a node on its run. -/
def atNode (butterfly : α → α → α → α × α) (twiddle : Nat → α) (stride node : Nat)
    (values : List α) : List α :=
  combine (butterfly (twiddle node)) (values.take stride) (values.drop stride)

theorem onNodes_append (network : Nat → List α → List α) {size : Nat} (count node : Nat)
    {values : List α} (full : values.length = size) (rest : List α) :
    onNodes network size (count + 1) node (values ++ rest) =
      network node values ++ onNodes network size count (node + 1) rest := by
  simp only [onNodes, List.range'_succ, components, List.take_left' full, List.drop_left' full,
    List.zipWith_cons_cons, List.flatten_cons]

theorem onNodes_children (network : Nat → List α → List α) {size : Nat} (count node : Nat)
    {low high : List α} (lowFull : low.length = size) (highFull : high.length = size)
    (rest : List α) :
    onNodes network size (2 * (count + 1)) (2 * node) (low ++ high ++ rest) =
      network (2 * node) low ++ network (2 * node + 1) high ++
        onNodes network size (2 * count) (2 * (node + 1)) rest := by
  rw [List.append_assoc low, Nat.mul_succ, onNodes_append network (2 * count + 1) _ lowFull,
    onNodes_append network (2 * count) _ highFull, List.append_assoc, Nat.mul_succ]

theorem atNode_append (butterfly : α → α → α → α × α) (twiddle : Nat → α) {stride : Nat}
    (node : Nat) {low : List α} (lowFull : low.length = stride) (high : List α) :
    atNode butterfly twiddle stride node (low ++ high) =
      combine (butterfly (twiddle node)) low high := by
  rw [atNode, List.take_left' lowFull, List.drop_left' lowFull]

theorem length_combine (butterfly : α → α → α × α) {low high : List α}
    (even : low.length = high.length) :
    (combine butterfly low high).length = low.length + high.length := by
  rw [combine, List.length_append, List.length_zipWith, List.length_zipWith, even, Nat.min_self]

/-- A list with runs of an even size begins with the two halves of a run. -/
theorem exists_halves {stride count : Nat} {values : List α}
    (full : values.length = 2 * stride * (count + 1)) :
    ∃ low high rest, values = low ++ high ++ rest ∧ low.length = stride ∧ high.length = stride ∧
      rest.length = 2 * stride * count := by
  rw [Nat.mul_succ] at full
  refine ⟨values.take stride, (values.drop stride).take stride, (values.drop stride).drop stride,
    ?_, ?_, ?_, ?_⟩
  · rw [List.append_assoc, List.take_append_drop, List.take_append_drop]
  · rw [List.length_take]
    omega
  · rw [List.length_take, List.length_drop]
    omega
  · rw [List.length_drop, List.length_drop]
    omega

section Stage

variable {butterfly? : α → α → α → Option (α × α)} {butterfly : α → α → α → α × α}
  {valid : α → Prop} {twiddle? : Nat → Option α} {twiddle : Nat → α}
  (answers : Answers butterfly? butterfly valid) (twiddleValid : ∀ node, valid (twiddle node))
include answers twiddleValid

omit twiddleValid in
theorem Answers.combine_valid {factor : α} (factorValid : valid factor) {low high : List α}
    (lowValid : ∀ word ∈ low, valid word) (highValid : ∀ word ∈ high, valid word) :
    ∀ word ∈ combine (butterfly factor) low high, valid word := by
  refine List.forall_mem_append.mpr ⟨?_, ?_⟩
  · exact forall_mem_zipWith (fun first second => answers.left factor first second factorValid)
      lowValid highValid
  · exact forall_mem_zipWith (fun first second => answers.right factor first second factorValid)
      lowValid highValid

/-- The nodes of a stage from some index on.  The runs that are done lie before the others. -/
theorem foldlM_block? (stride count : Nat) (total index : Nat) (done : List α) {rest : List α}
    (place : done.length = 2 * index * stride) (full : rest.length = 2 * stride * count)
    (present : ∀ later < index + count, twiddle? (total + later) = some (twiddle (total + later)))
    (restValid : ∀ word ∈ rest, valid word) :
    (List.range' index count).foldlM
        (fun buffer index => do
          let factor ← twiddle? (total + index)
          block? (butterfly? factor) stride (2 * index * stride) buffer)
        (done ++ rest) =
      some (done ++ onNodes (atNode butterfly twiddle stride) (2 * stride) count (total + index)
        rest) := by
  induction count generalizing index done rest with
  | zero =>
    rw [List.length_eq_zero_iff.mp full]
    rfl
  | succ count ih =>
    obtain ⟨low, high, rest, rfl, lowFull, highFull, restFull⟩ := exists_halves full
    have even := lowFull.trans highFull.symm
    obtain ⟨runValid, laterValid⟩ := List.forall_mem_append.mp restValid
    obtain ⟨lowValid, highValid⟩ := List.forall_mem_append.mp runValid
    have factorValid := twiddleValid (total + index)
    have block := block?_eq (fun low high => answers.answer _ low high factorValid) done rest even
      lowValid highValid
    rw [lowFull, place] at block
    have runFull : (low ++ high).length = 2 * stride := by
      rw [List.length_append]
      omega
    have made : (combine (butterfly (twiddle (total + index))) low high).length = 2 * stride := by
      rw [length_combine _ even]
      omega
    have later := ih (index + 1) (done ++ combine (butterfly (twiddle (total + index))) low high)
      (by rw [List.length_append, place, made]; ring) restFull
      (fun later before => present later (by omega)) laterValid
    rw [List.append_assoc, List.append_assoc] at later
    rw [onNodes_append _ _ _ runFull, atNode_append _ _ _ lowFull, Nat.add_assoc, ← later]
    simp only [List.range'_succ, List.foldlM_cons, present index (by omega), Option.bind_eq_bind,
      Option.bind_some]
    exact congrArg (Option.bind · _) block

theorem stage?_eq (stride count : Nat) {buffer : List α} (full : buffer.length = 2 * stride * count)
    (present : ∀ node < 2 * count, twiddle? node = some (twiddle node))
    (bufferValid : ∀ word ∈ buffer, valid word) :
    stage? butterfly? twiddle? stride count buffer =
      some (onNodes (atNode butterfly twiddle stride) (2 * stride) count count buffer) :=
  foldlM_block? answers twiddleValid stride count count 0 [] (by simp) full
    (fun later before => present _ (by omega)) bufferValid

end Stage

section Runs

variable {network : Nat → List α → List α} {size : Nat}

theorem length_onNodes
    (keeps : ∀ node values, values.length = size → (network node values).length = size)
    {count node : Nat} {values : List α} (full : values.length = size * count) :
    (onNodes network size count node values).length = size * count := by
  have joined : (onNodes network size count node values).length =
      size * (List.range' node count).length := by
    refine length_flatten_zipWith (fun node _ run member => ?_) ?_
    · exact keeps node run (length_of_mem_components full member)
    · rw [List.length_range', length_components]
  rw [joined, List.length_range']

theorem forall_mem_onNodes {valid : α → Prop}
    (keeps : ∀ node values, (∀ word ∈ values, valid word) → ∀ word ∈ network node values, valid word)
    {count : Nat} (node : Nat) {values : List α} (full : values.length = size * count)
    (valuesValid : ∀ word ∈ values, valid word) :
    ∀ word ∈ onNodes network size count node values, valid word := by
  intro word member
  obtain ⟨run, runMember, inside⟩ := List.mem_flatten.mp member
  rw [← List.map_uncurry_zip_eq_zipWith] at runMember
  obtain ⟨⟨number, values⟩, pairMember, rfl⟩ := List.mem_map.mp runMember
  have component := (List.of_mem_zip pairMember).2
  refine keeps number values (fun item itemMember => valuesValid item ?_) word inside
  rw [← flatten_components size count _ full]
  exact List.mem_flatten.mpr ⟨values, component, itemMember⟩

end Runs

theorem length_atNode (butterfly : α → α → α → α × α) (twiddle : Nat → α) {stride : Nat}
    (node : Nat) {values : List α} (full : values.length = 2 * stride) :
    (atNode butterfly twiddle stride node values).length = 2 * stride := by
  have low : (values.take stride).length = stride := by
    rw [List.length_take]
    omega
  have high : (values.drop stride).length = stride := by
    rw [List.length_drop]
    omega
  rw [atNode, length_combine _ (low.trans high.symm), low, high, Nat.two_mul]

/-! ## All stages -/

section Networks

variable (add sub mul : α → α → α) (twiddle : Nat → α)

/-- Before the stages below it, a stage does the butterflies of its nodes. -/
theorem onNodes_forward (depth count node : Nat) {values : List α}
    (full : values.length = 2 * 2 ^ depth * count) :
    onNodes (forward add sub mul twiddle (depth + 1)) (2 * 2 ^ depth) count node values =
      onNodes (forward add sub mul twiddle depth) (2 ^ depth) (2 * count) (2 * node)
        (onNodes (atNode (scaleFirst add sub mul) twiddle (2 ^ depth)) (2 * 2 ^ depth) count node
          values) := by
  induction count generalizing node values with
  | zero => rfl
  | succ count ih =>
    obtain ⟨low, high, rest, rfl, lowFull, highFull, restFull⟩ := exists_halves full
    have even := lowFull.trans highFull.symm
    have runFull : (low ++ high).length = 2 * 2 ^ depth := by
      rw [List.length_append]
      omega
    have left : (List.zipWith (fun left right =>
        (scaleFirst add sub mul (twiddle node) left right).1) low high).length = 2 ^ depth := by
      rw [List.length_zipWith, ← even, Nat.min_self, lowFull]
    have right : (List.zipWith (fun left right =>
        (scaleFirst add sub mul (twiddle node) left right).2) low high).length = 2 ^ depth := by
      rw [List.length_zipWith, ← even, Nat.min_self, lowFull]
    rw [onNodes_append _ _ _ runFull, onNodes_append _ _ _ runFull, ih (node + 1) restFull,
      atNode_append _ _ _ lowFull, combine, onNodes_children _ _ _ left right,
      forward_append add sub mul twiddle node high lowFull]
    rfl

/-- After the stages below it, a stage does the butterflies of its nodes. -/
theorem onNodes_inverse (depth count node : Nat) {values : List α}
    (full : values.length = 2 * 2 ^ depth * count) :
    onNodes (inverse add sub mul twiddle (depth + 1)) (2 * 2 ^ depth) count node values =
      onNodes (atNode (scaleLast add sub mul) twiddle (2 ^ depth)) (2 * 2 ^ depth) count node
        (onNodes (inverse add sub mul twiddle depth) (2 ^ depth) (2 * count) (2 * node) values) := by
  induction count generalizing node values with
  | zero => rfl
  | succ count ih =>
    obtain ⟨low, high, rest, rfl, lowFull, highFull, restFull⟩ := exists_halves full
    have runFull : (low ++ high).length = 2 * 2 ^ depth := by
      rw [List.length_append]
      omega
    have left := length_inverse add sub mul twiddle depth (2 * node) low lowFull
    have right := length_inverse add sub mul twiddle depth (2 * node + 1) high highFull
    have bothFull : (inverse add sub mul twiddle depth (2 * node) low ++
        inverse add sub mul twiddle depth (2 * node + 1) high).length = 2 * 2 ^ depth := by
      rw [List.length_append]
      omega
    rw [onNodes_append _ _ _ runFull, ih (node + 1) restFull, onNodes_children _ _ _ lowFull highFull,
      onNodes_append _ _ _ bothFull, atNode_append _ _ _ left,
      inverse_append add sub mul twiddle node high lowFull]
    rfl

end Networks

/-- Networks without stages leave a list as it is. -/
theorem onNodes_id (count node : Nat) (values : List α) (full : values.length = count) :
    onNodes (fun _ values => values) 1 count node values = values := by
  induction values generalizing count node with
  | nil =>
    cases full
    rfl
  | cons value values ih =>
    cases full
    have first := onNodes_append (fun _ values => values) values.length node
      (List.length_singleton : [value].length = 1) values
    rwa [ih _ (node + 1) rfl] at first

theorem onNodes_root (network : Nat → List α → List α) {size : Nat} {values : List α}
    (full : values.length = size) : onNodes network size 1 1 values = network 1 values := by
  have only := onNodes_append network 0 1 full []
  rwa [List.append_nil, show onNodes network size 0 (1 + 1) [] = [] from rfl,
    List.append_nil] at only

section Refinement

variable {add sub mul : α → α → α} {valid : α → Prop} {twiddle? : Nat → Option α}
  {twiddle : Nat → α} (twiddleValid : ∀ node, valid (twiddle node))
include twiddleValid

/-- What a stage leaves has the same length and valid words. -/
theorem Answers.stage_spec {butterfly? : α → α → α → Option (α × α)}
    {butterfly : α → α → α → α × α} (answers : Answers butterfly? butterfly valid)
    (stride count node : Nat) {values : List α} (full : values.length = 2 * stride * count)
    (valuesValid : ∀ word ∈ values, valid word) :
    (onNodes (atNode butterfly twiddle stride) (2 * stride) count node values).length =
        2 * stride * count ∧
      ∀ word ∈ onNodes (atNode butterfly twiddle stride) (2 * stride) count node values,
        valid word := by
  refine ⟨length_onNodes (fun node _ => length_atNode butterfly twiddle node) full, ?_⟩
  refine forall_mem_onNodes (fun node run runValid => ?_) node full valuesValid
  exact answers.combine_valid (twiddleValid node)
    (fun word member => runValid word (List.mem_of_mem_take member))
    (fun word member => runValid word (List.mem_of_mem_drop member))

/-- The stages from some nodes to the leaves give the forward networks of the nodes. -/
theorem forwardStages?_eq_onNodes {butterfly? : α → α → α → Option (α × α)}
    (answers : Answers butterfly? (scaleFirst add sub mul) valid) (depth count : Nat)
    {buffer : List α} (full : buffer.length = 2 ^ depth * count)
    (present : ∀ node < 2 ^ depth * count, twiddle? node = some (twiddle node))
    (bufferValid : ∀ word ∈ buffer, valid word) :
    forwardStages? butterfly? twiddle? depth count buffer =
      some (onNodes (forward add sub mul twiddle depth) (2 ^ depth) count count buffer) := by
  induction depth generalizing count buffer with
  | zero =>
    rw [pow_zero, Nat.one_mul] at full
    exact congrArg some (onNodes_id count count buffer full).symm
  | succ depth ih =>
    have children : 2 ^ (depth + 1) * count = 2 ^ depth * (2 * count) := by ring
    have double : 2 ^ (depth + 1) = 2 * 2 ^ depth := Nat.pow_succ'
    have most : 2 * count ≤ 2 ^ depth * (2 * count) :=
      Nat.le_mul_of_pos_left _ (Nat.two_pow_pos depth)
    rw [double] at full
    rw [children] at present
    have stage := stage?_eq answers twiddleValid (2 ^ depth) count full
      (fun node before => present node (by omega)) bufferValid
    obtain ⟨nextFull, nextValid⟩ := answers.stage_spec twiddleValid (2 ^ depth) count count full
      bufferValid
    rw [double, onNodes_forward add sub mul twiddle depth count count full, forwardStages?,
      Nat.one_shiftLeft, stage, Option.bind_eq_bind, Option.bind_some]
    exact ih (2 * count) (by rw [nextFull]; ring) present nextValid

/-- The stages from nodes that are done up to the root give the inverse network of the root. -/
theorem inverseStages?_of_done {butterfly? : α → α → α → Option (α × α)}
    (answers : Answers butterfly? (scaleLast add sub mul) valid) (depth height : Nat)
    {values : List α} (full : values.length = 2 ^ height * 2 ^ depth)
    (present : ∀ node < 2 ^ depth, twiddle? node = some (twiddle node))
    {buffer : List α} (done : buffer =
      onNodes (inverse add sub mul twiddle height) (2 ^ height) (2 ^ depth) (2 ^ depth) values)
    (bufferValid : ∀ word ∈ buffer, valid word) :
    inverseStages? butterfly? twiddle? depth (2 ^ height) buffer =
      some (inverse add sub mul twiddle (height + depth) 1 values) := by
  induction depth generalizing height buffer with
  | zero =>
    rw [pow_zero, Nat.mul_one] at full
    exact congrArg some (done.trans (onNodes_root _ full))
  | succ depth ih =>
    have nodes : 2 ^ (depth + 1) = 2 * 2 ^ depth := Nat.pow_succ'
    have double : 2 ^ (height + 1) = 2 * 2 ^ height := Nat.pow_succ'
    have runs : 2 ^ height * (2 * 2 ^ depth) = 2 * 2 ^ height * 2 ^ depth := by ring
    have bufferFull : buffer.length = 2 ^ height * 2 ^ (depth + 1) := by
      rw [done]
      exact length_onNodes (fun node run => length_inverse add sub mul twiddle height node run) full
    rw [nodes, runs] at full bufferFull
    rw [nodes] at done present
    have stage := stage?_eq answers twiddleValid (2 ^ height) (2 ^ depth) bufferFull present
      bufferValid
    obtain ⟨_, nextValid⟩ := answers.stage_spec twiddleValid (2 ^ height) (2 ^ depth) (2 ^ depth)
      bufferFull bufferValid
    rw [done, ← onNodes_inverse add sub mul twiddle height (2 ^ depth) (2 ^ depth) full,
      ← double] at nextValid stage
    rw [inverseStages?, Nat.one_shiftLeft, done, stage, Option.bind_eq_bind, Option.bind_some,
      ← double, Nat.add_comm depth 1, ← Nat.add_assoc]
    exact ih (height + 1) (by rw [full, double]) (fun node before => present node (by omega)) rfl
      nextValid

section Whole

variable (depth : Nat) {buffer : List α} (full : buffer.length = 2 ^ depth)
  (present : ∀ node < 2 ^ depth, twiddle? node = some (twiddle node))
  (bufferValid : ∀ word ∈ buffer, valid word)
include full present bufferValid

/-- The stages from the root to the leaves give the forward network. -/
theorem forwardStages?_eq {butterfly? : α → α → α → Option (α × α)}
    (answers : Answers butterfly? (scaleFirst add sub mul) valid) :
    forwardStages? butterfly? twiddle? depth 1 buffer =
      some (forward add sub mul twiddle depth 1 buffer) := by
  rw [← onNodes_root (forward add sub mul twiddle depth) full]
  rw [← Nat.mul_one (2 ^ depth)] at full present
  exact forwardStages?_eq_onNodes twiddleValid answers depth 1 full present bufferValid

/-- The stages from the leaves to the root give the inverse network. -/
theorem inverseStages?_eq {butterfly? : α → α → α → Option (α × α)}
    (answers : Answers butterfly? (scaleLast add sub mul) valid) :
    inverseStages? butterfly? twiddle? depth 1 buffer =
      some (inverse add sub mul twiddle depth 1 buffer) := by
  have start : buffer =
      onNodes (inverse add sub mul twiddle 0) (2 ^ 0) (2 ^ depth) (2 ^ depth) buffer :=
    (onNodes_id (2 ^ depth) (2 ^ depth) buffer full).symm
  have whole := inverseStages?_of_done twiddleValid answers depth 0
    (by rw [full, pow_zero, Nat.one_mul]) present start bufferValid
  rwa [pow_zero, Nat.zero_add] at whole

end Whole

end Refinement

end RingLwe.Network
