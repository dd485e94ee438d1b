import RingLwe.Proofs.Modular.Ranges
import RingLwe.Proofs.Transform.Buffer
import RingLwe.Proofs.Transform.Stages

/-!
# The transforms in place, without overflow

A second form of the two transforms, in place and stage by stage.  Every sum,
difference and product is refused when it leaves its range: one word for the
operations on residues, two words inside the Montgomery product.  Only the
product with the negative inverse wraps, which is what it is for.  Positions of
the buffer and of the tables of twiddle factors are refused when they do not
exist.

The second form of the forward transform answers, and gives what the forward
transform gives, for buffers of arbitrary words (`Sound.forward?_eq`).  That of
the inverse does so for reduced buffers (`Sound.inverse?_eq`).  Both follow from
one lemma for each operation on residues, and from the stages of the networks,
which keep their words reduced.
-/

set_option autoImplicit false

namespace RingLwe

/-! ## Montgomery products -/

namespace Montgomery

/-- The Montgomery product, with its ranges. -/
def mul? (arithmetic : Montgomery) (left right : UInt64) : Option UInt64 := do
  let product ← Exact.mulWide left right
  let multiple ← Exact.mulWide (product.low * arithmetic.negInverse) arithmetic.modulus
  let sum ← Exact.addWide product multiple
  if arithmetic.modulus ≤ sum.high then Exact.sub sum.high arithmetic.modulus else some sum.high

/-- The Montgomery form of a word, with its ranges. -/
def enter? (arithmetic : Montgomery) (word : UInt64) : Option UInt64 :=
  arithmetic.mul? word arithmetic.radixSquared

variable {arithmetic : Montgomery} (half : 2 * arithmetic.modulus.toNat < UInt64.size)
include half

theorem mul?_eq {left right : UInt64}
    (bound : left.toNat * right.toNat < arithmetic.modulus.toNat * UInt64.size) :
    arithmetic.mul? left right = some (arithmetic.mul left right) := by
  have sum : ∀ multiple : UInt64,
      Exact.addWide (Wide.mul left right) (Wide.mul multiple arithmetic.modulus) =
        some ((Wide.mul left right).add (Wide.mul multiple arithmetic.modulus)) := by
    intro multiple
    have fits := sum_lt_size half bound multiple
    rw [← Wide.toNat_mul, ← Wide.toNat_mul] at fits
    exact if_pos fits
  rw [mul?, mul, Exact.mulWide_eq, Option.bind_eq_bind, Option.bind_some, Exact.mulWide_eq,
    Option.bind_some, sum, Option.bind_some, Exact.sub_of_le_or_self]

end Montgomery

/-! ## One prime -/

namespace Channel

variable (channel : Channel)

/-- The forward transform of one run in place, with its ranges and the bounds of its buffers. -/
def forward? (depth : Nat) (residues : List UInt64) : Option (List UInt64) := do
  let arithmetic := channel.arithmetic
  let entered ← residues.mapM arithmetic.enter?
  let butterfly := Network.scaleFirst? (Residue.addReduced? · · arithmetic.modulus)
    (Residue.sub? · · arithmetic.modulus) arithmetic.mul?
  Network.forwardStages? butterfly (channel.twiddles[·]?) depth 1 entered

/-- The inverse transform of one run in place, with its ranges and the bounds of its buffers. -/
def inverse? (depth : Nat) (residues : List UInt64) : Option (List UInt64) := do
  let arithmetic := channel.arithmetic
  let butterfly := Network.scaleLast? (Residue.addReduced? · · arithmetic.modulus)
    (Residue.sub? · · arithmetic.modulus) arithmetic.mul?
  let values ← Network.inverseStages? butterfly (channel.inverseTwiddles[·]?) depth 1 residues
  let scaled ← values.mapM (arithmetic.mul? · channel.sizeInverse)
  scaled.mapM (arithmetic.mul? · 1)

namespace Sound

theorem getElem?_table {table : Array UInt64} {count : Nat} (size : table.size = count) :
    ∀ node < count, table[node]? = some (table.getD node 0) := by
  intro node inside
  rw [Array.getD_eq_getD_getElem?, Array.getElem?_eq_getElem (size.symm ▸ inside), Option.getD_some]

variable {channel : Channel} {depth : Nat} (sound : channel.Sound depth)
include sound

/-- Reduced words keep every operation on residues in its range. -/
theorem inRange : Network.InRange (Residue.addReduced? · · channel.modulus)
    (Residue.sub? · · channel.modulus) channel.arithmetic.mul?
    (Residue.addReduced · · channel.modulus) (Residue.sub · · channel.modulus)
    channel.arithmetic.mul (· < channel.modulus) where
  add := fun _ _ leftLt rightLt => Residue.addReduced?_eq leftLt rightLt sound.half
  sub := fun _ _ leftLt rightLt => Residue.sub?_eq leftLt rightLt sound.half
  mul := fun left _ _ rightLt => Montgomery.mul?_eq sound.half (Montgomery.mul_bound left rightLt)

/-- Products with a reduced word are in their range for all words. -/
theorem mapM_mul?_eq {factor : UInt64} (reduced : factor < channel.modulus) (words : List UInt64) :
    words.mapM (channel.arithmetic.mul? · factor) =
      some (words.map (channel.arithmetic.mul · factor)) :=
  mapM_eq_some_map fun word _ => Montgomery.mul?_eq sound.half (Montgomery.mul_bound word reduced)

/-- No operation of the forward transform of one run leaves its range, for any words. -/
theorem forward?_eq {words : List UInt64} (full : words.length = 2 ^ depth) :
    channel.forward? depth words = some (channel.forward depth words) := by
  have squareLt : channel.arithmetic.radixSquared < channel.modulus := by
    rw [sound.arithmetic]
    exact (Montgomery.radixSquaredOf_spec sound.modulus_pos).1
  have entered : words.mapM channel.arithmetic.enter? =
      some (words.map channel.arithmetic.enter) := sound.mapM_mul?_eq squareLt words
  rw [forward?, entered]
  exact Network.forwardStages?_eq sound.twiddle_lt depth (by rw [List.length_map, full])
    (getElem?_table sound.twiddles_size) (sound.entered_lt words)
    (sound.inRange.answers_scaleFirst sound.reading)

/-- No operation of the inverse transform of one run leaves its range, for reduced words. -/
theorem inverse?_eq {words : List UInt64} (full : words.length = 2 ^ depth)
    (reduced : ∀ word ∈ words, word < channel.modulus) :
    channel.inverse? depth words = some (channel.inverse depth words) := by
  have stages := Network.inverseStages?_eq sound.inverseTwiddle_lt depth full
    (getElem?_table sound.inverseTwiddles_size) reduced
    (sound.inRange.answers_scaleLast sound.reading)
  have leaves : ∀ words : List UInt64, words.mapM (channel.arithmetic.mul? · 1) =
      some (words.map channel.arithmetic.leave) :=
    fun words => mapM_eq_some_map fun word _ =>
      Montgomery.mul?_eq sound.half (Montgomery.leave_bound sound.modulus_pos word)
  refine (congrArg (Option.bind · _) stages).trans ?_
  rw [Option.bind_some, sound.mapM_mul?_eq sound.sizeInverse_lt, Option.bind_eq_bind,
    Option.bind_some, leaves, List.map_map]
  rfl

end Sound

end Channel

/-! ## All primes -/

/-- Operations that answer for the runs of a list, one by one. -/
theorem mapM_zip_components {α β γ : Type} {operation? : α → List β → Option γ}
    {operation : α → List β → γ} (length : Nat) {left : List α} {items : List β}
    (each : ∀ index first, left[index]? = some first →
      operation? first (run length items index) =
        some (operation first (run length items index))) :
    ((left.zip (components length left.length items)).mapM fun pair =>
        operation? pair.1 pair.2) =
      some (List.zipWith operation left (components length left.length items)) := by
  rw [← List.map_uncurry_zip_eq_zipWith]
  refine mapM_eq_some_map fun pair member => ?_
  obtain ⟨index, found⟩ := List.mem_iff_getElem?.mp member
  obtain ⟨present, taken⟩ := List.getElem?_zip_eq_some.mp found
  rw [getElem?_components _ _ (List.getElem?_eq_some_iff.mp present).1, Option.some.injEq] at taken
  rw [Function.uncurry, ← taken]
  exact each index _ present

namespace Transform

variable (transform : Transform)

/-- Applies an operation of the channels that may be refused to the runs of a buffer. -/
def onComponents? (operation? : Channel → List UInt64 → Option (List UInt64))
    (buffer : List UInt64) : Option (List UInt64) := do
  let runs ← (transform.channels.zip (components transform.size transform.count buffer)).mapM
    fun pair => operation? pair.1 pair.2
  some runs.flatten

/-- The forward transform of a buffer, with its ranges. -/
def forward? (buffer : List UInt64) : Option (List UInt64) :=
  transform.onComponents? (·.forward? transform.depth) buffer

/-- The inverse transform of a buffer, with its ranges. -/
def inverse? (buffer : List UInt64) : Option (List UInt64) :=
  transform.onComponents? (·.inverse? transform.depth) buffer

variable {transform : Transform}

theorem onComponents?_eq {operation? : Channel → List UInt64 → Option (List UInt64)}
    {operation : Channel → List UInt64 → List UInt64} {buffer : List UInt64}
    (each : ∀ index channel, transform.channels[index]? = some channel →
      operation? channel (run transform.size buffer index) =
        some (operation channel (run transform.size buffer index))) :
    transform.onComponents? operation? buffer = some (transform.onComponents operation buffer) := by
  rw [onComponents?, count, mapM_zip_components transform.size each]
  rfl

namespace Sound

variable (sound : transform.Sound) {buffer : List UInt64}
  (full : buffer.length = transform.bufferLength)
include sound full

/-- No operation of the forward transform leaves its range, for any buffer. -/
theorem forward?_eq : transform.forward? buffer = some (transform.forward buffer) :=
  onComponents?_eq fun _ _ present =>
    (sound.channel present).forward?_eq (length_run_pow full present)

/-- No operation of the inverse transform leaves its range, for a reduced buffer. -/
theorem inverse?_eq (reduced : Reduced transform.size transform.moduli buffer) :
    transform.inverse? buffer = some (transform.inverse buffer) :=
  onComponents?_eq fun index _ present =>
    (sound.channel present).inverse?_eq (length_run_pow full present)
      (reduced index _ (modulus_present present))

end Sound

end Transform

end RingLwe
