import RingLwe.Proofs.Layout
import RingLwe.Proofs.Modular.Search
import RingLwe.Proofs.Outcomes
import RingLwe.Proofs.Transform.Channel

/-!
# The transform of component-major buffers

Every operation of a transform works run by run: run `j` of its answer is the
answer of channel `j` for the runs of its arguments (`run_forward`,
`run_inverse`, `run_pointwise`, `run_accumulate`, `run_reduce`).  So the
inverse undoes the forward transform up to reduction
(`inverse_forward_eq_reduce`), and the two undo each other on reduced buffers
(`inverse_forward`, `forward_inverse`).
-/

set_option autoImplicit false

namespace RingLwe

/-- Whether every residue of a component-major buffer is below its modulus. -/
def Reduced (size : Nat) (moduli : List UInt64) (buffer : List UInt64) : Prop :=
  ∀ index q, moduli[index]? = some q → ∀ word ∈ run size buffer index, word < q

theorem reduced_cons_iff {size : Nat} {q : UInt64} {moduli buffer : List UInt64} :
    Reduced size (q :: moduli) buffer ↔
      (∀ word ∈ buffer.take size, word < q) ∧ Reduced size moduli (buffer.drop size) := by
  rw [← run_zero]
  constructor
  · intro reduced
    refine ⟨reduced 0 q rfl, fun index other present => ?_⟩
    rw [← run_succ]
    exact reduced (index + 1) other present
  · rintro ⟨here, rest⟩ index other present
    cases index with
    | zero =>
      cases present
      exact here
    | succ index =>
      rw [run_succ]
      exact rest index other present

/-- A residue of a reduced buffer is reduced. -/
theorem Reduced.getD_lt {size count : Nat} {moduli residues : List UInt64}
    (reduced : Reduced size moduli residues) (full : residues.length = size * count)
    {index position : Nat} {q : UInt64} (present : moduli[index]? = some q) (enough : index < count)
    (inside : position < size) : residues.getD (index * size + position) 0 < q := by
  have short : position < (run size residues index).length := by
    rw [length_run full enough]
    exact inside
  rw [← getD_run residues index inside, List.getD_eq_getElem _ _ short]
  exact reduced index q present _ (List.getElem_mem short)

namespace Transform

variable {transform : Transform}

theorem size_eq : transform.size = 2 ^ transform.depth :=
  Nat.one_shiftLeft _

/-! ## Run by run -/

theorem channel_present {index : Nat} (inside : index < transform.count) :
    ∃ channel, transform.channels[index]? = some channel :=
  ⟨transform.channels[index], List.getElem?_eq_getElem inside⟩

theorem index_lt {index : Nat} {channel : Channel}
    (present : transform.channels[index]? = some channel) : index < transform.count :=
  (List.getElem?_eq_some_iff.mp present).1

theorem modulus_present {index : Nat} {channel : Channel}
    (present : transform.channels[index]? = some channel) :
    transform.moduli[index]? = some channel.modulus := by
  rw [moduli, List.getElem?_map, present, Option.map_some]

section Runs

variable {operation : Channel → List UInt64 → List UInt64}
  (keeps : ∀ channel words, words.length = transform.size →
    (operation channel words).length = transform.size)
  {buffer : List UInt64} (full : buffer.length = transform.bufferLength)
include keeps full

theorem length_onComponents :
    (transform.onComponents operation buffer).length = transform.bufferLength := by
  refine length_flatten_zipWith (fun channel _ words member => ?_) ?_
  · exact keeps channel words (length_of_mem_components full member)
  · rw [length_components, count]

theorem run_onComponents {index : Nat} {channel : Channel}
    (present : transform.channels[index]? = some channel) :
    run transform.size (transform.onComponents operation buffer) index =
      operation channel (run transform.size buffer index) := by
  refine run_flatten_zipWith (fun channel _ words member => ?_) present ?_
  · exact keeps channel words (length_of_mem_components full member)
  · exact getElem?_components _ _ (index_lt present)

end Runs

theorem keeps_forward (channel : Channel) (words : List UInt64)
    (full : words.length = transform.size) :
    (channel.forward transform.depth words).length = transform.size := by
  rw [size_eq] at full ⊢
  exact Channel.Sound.length_forward full

theorem keeps_inverse (channel : Channel) (words : List UInt64)
    (full : words.length = transform.size) :
    (channel.inverse transform.depth words).length = transform.size := by
  rw [size_eq] at full ⊢
  exact Channel.Sound.length_inverse full

theorem length_run_pow {buffer : List UInt64} (full : buffer.length = transform.bufferLength)
    {index : Nat} {channel : Channel} (present : transform.channels[index]? = some channel) :
    (run transform.size buffer index).length = 2 ^ transform.depth := by
  rw [length_run full (index_lt present), size_eq]

section Unary

variable {buffer : List UInt64} (full : buffer.length = transform.bufferLength)
include full

theorem length_forward : (transform.forward buffer).length = transform.bufferLength :=
  length_onComponents keeps_forward full

theorem length_inverse : (transform.inverse buffer).length = transform.bufferLength :=
  length_onComponents keeps_inverse full

variable {index : Nat} {channel : Channel} (present : transform.channels[index]? = some channel)
include present

theorem run_forward : run transform.size (transform.forward buffer) index =
    channel.forward transform.depth (run transform.size buffer index) :=
  run_onComponents keeps_forward full present

theorem run_inverse : run transform.size (transform.inverse buffer) index =
    channel.inverse transform.depth (run transform.size buffer index) :=
  run_onComponents keeps_inverse full present

end Unary

section Binary

variable {left right : List UInt64} (leftFull : left.length = transform.bufferLength)
  (rightFull : right.length = transform.bufferLength)
include leftFull rightFull

theorem length_of_mem_zip_components {pair : List UInt64 × List UInt64}
    (member : pair ∈ (components transform.size transform.count left).zip
      (components transform.size transform.count right)) (channel : Channel) :
    (channel.pointwise pair.1 pair.2).length = transform.size := by
  obtain ⟨leftMember, rightMember⟩ := List.of_mem_zip member
  rw [Channel.pointwise, List.length_zipWith, length_of_mem_components leftFull leftMember,
    length_of_mem_components rightFull rightMember, Nat.min_self]

theorem length_pointwise : (transform.pointwise left right).length = transform.bufferLength := by
  refine length_flatten_zipWith (fun channel _ pair member => ?_) ?_
  · exact length_of_mem_zip_components leftFull rightFull member channel
  · rw [List.length_zip, length_components, length_components, Nat.min_self, count]

theorem run_pointwise {index : Nat} {channel : Channel}
    (present : transform.channels[index]? = some channel) :
    run transform.size (transform.pointwise left right) index =
      channel.pointwise (run transform.size left index) (run transform.size right index) := by
  have pair := getElem?_zip_components transform.size left right (index_lt present)
  refine run_flatten_zipWith (fun channel _ pair member => ?_) present pair
  exact length_of_mem_zip_components leftFull rightFull member channel

end Binary

theorem length_accumulate {sums left right : List UInt64}
    (sumsFull : sums.length = transform.bufferLength)
    (leftFull : left.length = transform.bufferLength)
    (rightFull : right.length = transform.bufferLength) :
    (transform.accumulate sums left right).length = transform.bufferLength := by
  rw [accumulate, List.length_zipWith, sumsFull, length_pointwise leftFull rightFull, Nat.min_self]

theorem run_accumulate (sums : List UInt64) {left right : List UInt64}
    (leftFull : left.length = transform.bufferLength)
    (rightFull : right.length = transform.bufferLength) {index : Nat} {channel : Channel}
    (present : transform.channels[index]? = some channel) :
    run transform.size (transform.accumulate sums left right) index =
      List.zipWith (· + ·) (run transform.size sums index)
        (channel.pointwise (run transform.size left index) (run transform.size right index)) := by
  rw [accumulate, run_zipWith, run_pointwise leftFull rightFull present]

/-- On a list of the right length every run is reduced by its modulus. -/
theorem reduceRuns_eq (size : Nat) (moduli items : List UInt64)
    (full : items.length = size * moduli.length) :
    reduceRuns size moduli items =
      (List.zipWith (fun q (words : List UInt64) => words.map (· % q)) moduli
        (components size moduli.length items)).flatten := by
  induction moduli generalizing items with
  | nil => exact List.length_eq_zero_iff.mp full
  | cons q moduli ih =>
    rw [List.length_cons, Nat.mul_succ] at full
    have long : ¬ items.length < size := by omega
    rw [reduceRuns, if_neg long, ih _ (by rw [List.length_drop]; omega)]
    rfl

section Reduce

variable {buffer : List UInt64} (full : buffer.length = transform.bufferLength)
include full

theorem reduce_eq : transform.reduce buffer =
    (List.zipWith (fun q (words : List UInt64) => words.map (· % q)) transform.moduli
      (components transform.size transform.moduli.length buffer)).flatten :=
  reduceRuns_eq _ _ _ (by rw [full, bufferLength, count, moduli, List.length_map])

theorem length_reduce : (transform.reduce buffer).length = transform.bufferLength := by
  have same : transform.moduli.length = transform.count := List.length_map _
  rw [reduce_eq full, length_flatten_zipWith (fun q _ words member => ?_) ?_, same, bufferLength]
  · rw [length_components]
  · rw [List.length_map]
    exact length_of_mem_components (same ▸ full) member

theorem run_reduce {index : Nat} {channel : Channel}
    (present : transform.channels[index]? = some channel) :
    run transform.size (transform.reduce buffer) index =
      (run transform.size buffer index).map (· % channel.modulus) := by
  have same : transform.moduli.length = transform.count := List.length_map _
  rw [reduce_eq full]
  refine run_flatten_zipWith (fun q _ words member => ?_) (modulus_present present) ?_
  · rw [List.length_map]
    exact length_of_mem_components (same ▸ full) member
  · exact getElem?_components _ _ (same ▸ index_lt present)

/-- A word of a reduced buffer is the residue of the word at its place. -/
theorem getD_reduce {index position : Nat} {q : UInt64} (present : transform.moduli[index]? = some q)
    (inside : position < transform.size) :
    (transform.reduce buffer).getD (index * transform.size + position) 0 =
      buffer.getD (index * transform.size + position) 0 % q := by
  rw [moduli, List.getElem?_map] at present
  obtain ⟨channel, found, rfl⟩ := Option.map_eq_some_iff.mp present
  have short : position < (run transform.size buffer index).length := by
    rw [length_run full (index_lt found)]
    exact inside
  rw [← getD_run _ index inside, run_reduce full found, getD_map _ _ short 0 0,
    getD_run _ index inside]

end Reduce

/-! ## Transforms of primes -/

/-- What holds of a transform that was built for primes. -/
def Sound (transform : Transform) : Prop :=
  ∀ channel ∈ transform.channels, channel.Sound transform.depth

/-- Primes that are one more than a multiple of twice a power of two have a transform of that
size. -/
theorem exists_ofModuli {depth : Nat} {moduli : List UInt64} (nonempty : moduli ≠ [])
    (primes : ∀ q ∈ moduli, Nat.Prime q.toNat)
    (congruent : ∀ q ∈ moduli, q.toNat % (2 * 2 ^ depth) = 1) :
    ∃ transform, ofModuli (2 ^ depth) moduli = .ok transform := by
  have power : isPowerOfTwo (2 ^ depth) = true := isPowerOfTwo_iff.mpr ⟨depth, rfl⟩
  have listed : moduli.isEmpty = false := List.isEmpty_eq_false_iff.mpr nonempty
  have channels : ∃ channels, moduli.mapM (Channel.ofModulus depth) = .ok channels := by
    clear nonempty listed
    induction moduli with
    | nil => exact ⟨[], rfl⟩
    | cons q moduli ih =>
      obtain ⟨prime, others⟩ := List.forall_mem_cons.mp primes
      obtain ⟨first, rest⟩ := List.forall_mem_cons.mp congruent
      obtain ⟨channel, built⟩ := Channel.exists_ofModulus prime first
      obtain ⟨channels, made⟩ := ih others rest
      refine ⟨channel :: channels, ?_⟩
      rw [List.mapM_cons, built, ok_bind, made]
      rfl
  obtain ⟨channels, made⟩ := channels
  refine ⟨⟨depth, channels⟩, ?_⟩
  rw [ofModuli, power, listed, Nat.log2_two_pow, made]
  rfl

/-- A transform that is built has the wanted size, and the channels that are built for the moduli. -/
theorem ofModuli_eq_ok {n : Nat} {moduli : List UInt64} {transform : Transform}
    (built : ofModuli n moduli = .ok transform) :
    transform.size = n ∧
      List.Forall₂ (fun q channel => Channel.ofModulus transform.depth q = .ok channel) moduli
        transform.channels := by
  unfold ofModuli at built
  split at built
  next => cases built
  next power =>
    split at built
    next => cases built
    next =>
      have whole : n = 1 <<< n.log2 := by
        simpa [isPowerOfTwo] using power
      rcases made : moduli.mapM (Channel.ofModulus n.log2) with fault | channels
      · rw [made] at built
        cases built
      · rw [made] at built
        cases built
        exact ⟨whole.symm, forall₂_of_mapM_eq_ok made⟩

/-- A transform that is built for primes is sound, and has their size and moduli. -/
theorem sound_of_ofModuli {n : Nat} {moduli : List UInt64} {transform : Transform}
    (primes : ∀ q ∈ moduli, Nat.Prime q.toNat) (halves : ∀ q ∈ moduli, 2 * q.toNat < UInt64.size)
    (built : ofModuli n moduli = .ok transform) :
    transform.Sound ∧ transform.size = n ∧ transform.moduli = moduli := by
  obtain ⟨size, pairs⟩ := ofModuli_eq_ok built
  refine ⟨fun channel member => ?_, size, ?_⟩
  · obtain ⟨q, inside, found⟩ := exists_of_mem_of_forall₂ pairs member
    exact (Channel.sound_of_ofModulus (primes q inside) (halves q inside) found).1
  · exact map_eq_of_forall₂ pairs fun q member channel found =>
      (Channel.sound_of_ofModulus (primes q member) (halves q member) found).2

namespace Sound

variable (sound : transform.Sound)
include sound

theorem channel {index : Nat} {channel : Channel}
    (present : transform.channels[index]? = some channel) : channel.Sound transform.depth :=
  sound channel (List.mem_of_getElem? present)

omit sound in
theorem reduced_of_runs {buffer : List UInt64}
    (runs : ∀ index channel, transform.channels[index]? = some channel →
      ∀ word ∈ run transform.size buffer index, word < channel.modulus) :
    Reduced transform.size transform.moduli buffer := by
  intro index q present
  rw [moduli, List.getElem?_map] at present
  obtain ⟨channel, found, rfl⟩ := Option.map_eq_some_iff.mp present
  exact runs index channel found

theorem reduced_forward {buffer : List UInt64} (full : buffer.length = transform.bufferLength) :
    Reduced transform.size transform.moduli (transform.forward buffer) := by
  refine reduced_of_runs ?_
  intro index channel present
  rw [run_forward full present]
  exact ((sound.channel present).forward_spec _).1

theorem reduced_inverse {buffer : List UInt64} (full : buffer.length = transform.bufferLength)
    (reduced : Reduced transform.size transform.moduli buffer) :
    Reduced transform.size transform.moduli (transform.inverse buffer) := by
  refine reduced_of_runs ?_
  intro index channel present
  rw [run_inverse full present]
  exact ((sound.channel present).inverse_spec (reduced index _ (modulus_present present))).1

theorem reduced_pointwise {left right : List UInt64}
    (leftFull : left.length = transform.bufferLength)
    (rightFull : right.length = transform.bufferLength)
    (rightReduced : Reduced transform.size transform.moduli right) :
    Reduced transform.size transform.moduli (transform.pointwise left right) := by
  refine reduced_of_runs ?_
  intro index channel present
  rw [run_pointwise leftFull rightFull present]
  exact ((sound.channel present).pointwise_spec
    (rightReduced index _ (modulus_present present))).1

theorem reduced_reduce {buffer : List UInt64} (full : buffer.length = transform.bufferLength) :
    Reduced transform.size transform.moduli (transform.reduce buffer) := by
  refine reduced_of_runs ?_
  intro index channel present
  rw [run_reduce full present]
  intro word member
  obtain ⟨origin, _, rfl⟩ := List.mem_map.mp member
  exact UInt64.mod_lt origin (UInt64.lt_iff_toNat_lt.mpr (sound.channel present).modulus_pos)

/-- The inverse undoes the forward transform up to reduction. -/
theorem inverse_forward_eq_reduce {buffer : List UInt64}
    (full : buffer.length = transform.bufferLength) :
    transform.inverse (transform.forward buffer) = transform.reduce buffer := by
  have forwardFull := length_forward full
  refine eq_of_run_eq (length_inverse forwardFull) (length_reduce full) ?_
  intro index inside
  obtain ⟨channel, present⟩ := channel_present inside
  rw [run_inverse forwardFull present, run_forward full present, run_reduce full present]
  exact (sound.channel present).inverse_forward (length_run_pow full present)

omit sound in
/-- Reduction keeps a reduced buffer. -/
theorem reduce_of_reduced {buffer : List UInt64} (full : buffer.length = transform.bufferLength)
    (reduced : Reduced transform.size transform.moduli buffer) :
    transform.reduce buffer = buffer := by
  refine eq_of_run_eq (length_reduce full) full ?_
  intro index inside
  obtain ⟨channel, present⟩ := channel_present inside
  rw [run_reduce full present]
  refine (List.map_congr_left fun word member => ?_).trans (List.map_id _)
  exact UInt64.mod_eq_of_lt (reduced index _ (modulus_present present) word member)

theorem inverse_forward {buffer : List UInt64} (full : buffer.length = transform.bufferLength)
    (reduced : Reduced transform.size transform.moduli buffer) :
    transform.inverse (transform.forward buffer) = buffer :=
  (sound.inverse_forward_eq_reduce full).trans (reduce_of_reduced full reduced)

/-- The forward transform undoes the inverse of a reduced buffer. -/
theorem forward_inverse {buffer : List UInt64} (full : buffer.length = transform.bufferLength)
    (reduced : Reduced transform.size transform.moduli buffer) :
    transform.forward (transform.inverse buffer) = buffer := by
  have inverseFull := length_inverse full
  refine eq_of_run_eq (length_forward inverseFull) full ?_
  intro index inside
  obtain ⟨channel, present⟩ := channel_present inside
  rw [run_forward inverseFull present, run_inverse full present]
  exact (sound.channel present).forward_inverse (length_run_pow full present)
    (reduced index _ (modulus_present present))

end Sound

/-! ## Checked forms -/

theorem checked_eq_ok {α : Type} {buffers : List (List UInt64)} (answer : Unit → α)
    (full : ∀ buffer ∈ buffers, buffer.length = transform.bufferLength) :
    transform.checked buffers answer = .ok (answer ()) := by
  have all : buffers.all (·.length == transform.bufferLength) = true := by
    simpa only [List.all_eq_true, beq_iff_eq] using full
  rw [checked, if_pos all]

end Transform

end RingLwe
