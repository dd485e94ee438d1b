import RingLwe.Proofs.Transform.Evaluation

/-!
# The two transforms undo each other

For primes that have a transform, the inverse of the forward transform of any
buffer is the buffer of its residues, and the forward transform of the inverse
of a reduced buffer is that buffer (`Transform.inverse_and_forward`).  The
inverse of a reduced buffer is reduced and holds plain coefficients: they are
those of the polynomials whose values the given buffer holds (`HoldsValues`).
So the inverse permutes the reduced buffers.
-/

set_option autoImplicit false

namespace RingLwe

/-- Whether a buffer holds the residues of another buffer, word by word. -/
def HoldsResidues (depth : Nat) (moduli words residues : List UInt64) : Prop :=
  residues.length = words.length ∧
    ∀ index q, moduli[index]? = some q → ∀ position < 2 ^ depth,
      residues.getD (index * 2 ^ depth + position) 0 =
        words.getD (index * 2 ^ depth + position) 0 % q

/-- The reduced buffers of full length. -/
def reducedBuffers (depth : Nat) (moduli : List UInt64) : Set (List UInt64) :=
  { buffer | buffer.length = 2 ^ depth * moduli.length ∧ Reduced (2 ^ depth) moduli buffer }

namespace Transform

variable {transform : Transform}

theorem holdsResidues_reduce {buffer : List UInt64}
    (full : buffer.length = transform.bufferLength) :
    HoldsResidues transform.depth transform.moduli buffer (transform.reduce buffer) := by
  refine ⟨(length_reduce full).trans full.symm, ?_⟩
  intro index q present position inside
  rw [← size_eq] at inside ⊢
  exact getD_reduce full present inside

theorem mem_reducedBuffers {buffer : List UInt64} :
    buffer ∈ reducedBuffers transform.depth transform.moduli ↔
      buffer.length = transform.bufferLength ∧
        Reduced transform.size transform.moduli buffer := by
  have same : transform.moduli.length = transform.count := List.length_map _
  rw [bufferLength, size_eq, ← same]
  exact Iff.rfl

/-- The inverse is a bijection on reduced buffers, because the forward transform undoes it on both
sides. -/
theorem Sound.bijOn_inverse (sound : transform.Sound) : Set.BijOn transform.inverse
    (reducedBuffers transform.depth transform.moduli)
    (reducedBuffers transform.depth transform.moduli) := by
  have inverses : Set.InvOn transform.forward transform.inverse
      (reducedBuffers transform.depth transform.moduli)
      (reducedBuffers transform.depth transform.moduli) := by
    constructor
    · intro buffer member
      obtain ⟨full, reduced⟩ := mem_reducedBuffers.mp member
      exact sound.forward_inverse full reduced
    · intro buffer member
      obtain ⟨full, reduced⟩ := mem_reducedBuffers.mp member
      exact sound.inverse_forward full reduced
  refine inverses.bijOn ?_ ?_
  · intro buffer member
    obtain ⟨full, reduced⟩ := mem_reducedBuffers.mp member
    exact mem_reducedBuffers.mpr ⟨length_inverse full, sound.reduced_inverse full reduced⟩
  · intro buffer member
    obtain ⟨full, _⟩ := mem_reducedBuffers.mp member
    exact mem_reducedBuffers.mpr ⟨length_forward full, sound.reduced_forward full⟩

/-- For primes below `2^63` that are one more than a multiple of twice a power of two there is a
transform of that size.  Its inverse undoes its forward transform up to reduction for every buffer,
and its forward transform undoes its inverse for every reduced buffer.  There the inverse is
reduced and in plain form, and it is a bijection.  In place, stage by stage, no operation of either
leaves its range and every position and factor exists. -/
theorem inverse_and_forward {depth : Nat} {moduli : List UInt64}
    (primes : ∀ q ∈ moduli, Nat.Prime q.toNat) (bounded : ∀ q ∈ moduli, q.toNat < 2 ^ 63)
    (congruent : ∀ q ∈ moduli, q.toNat % (2 * 2 ^ depth) = 1) :
    (moduli ≠ [] → ∃ transform, ofModuli (2 ^ depth) moduli = .ok transform) ∧
      ∀ transform, ofModuli (2 ^ depth) moduli = .ok transform →
        (∀ buffer : List UInt64, buffer.length = 2 ^ depth * moduli.length →
          ∃ image residues, transform.checkedForward buffer = .ok image ∧
            transform.forward? buffer = some image ∧
            transform.checkedInverse image = .ok residues ∧
            transform.inverse? image = some residues ∧
            HoldsResidues depth moduli buffer residues) ∧
        (∀ buffer ∈ reducedBuffers depth moduli,
          ∃ coefficients ∈ reducedBuffers depth moduli,
            transform.checkedInverse buffer = .ok coefficients ∧
            transform.inverse? buffer = some coefficients ∧
            HoldsValues depth moduli coefficients buffer ∧
            transform.checkedForward coefficients = .ok buffer) ∧
        Set.BijOn transform.inverse (reducedBuffers depth moduli) (reducedBuffers depth moduli) := by
  refine ⟨fun nonempty => exists_ofModuli nonempty primes congruent, ?_⟩
  intro transform built
  obtain ⟨rooted, rfl, rfl, length⟩ := spec_of_ofModuli primes bounded built
  have sound := rooted.sound
  have bijective := sound.bijOn_inverse
  refine ⟨?_, ?_, bijective⟩
  · intro buffer full
    rw [← length] at full
    have imageFull := length_forward full
    refine ⟨transform.forward buffer, transform.reduce buffer,
      checked_eq_ok _ (List.forall_mem_singleton.mpr full), sound.forward?_eq full, ?_, ?_,
      holdsResidues_reduce full⟩
    · rw [← sound.inverse_forward_eq_reduce full]
      exact checked_eq_ok _ (List.forall_mem_singleton.mpr imageFull)
    · rw [← sound.inverse_forward_eq_reduce full]
      exact sound.inverse?_eq imageFull (sound.reduced_forward full)
  · intro buffer member
    obtain ⟨full, reduced⟩ := mem_reducedBuffers.mp member
    have inverseFull := length_inverse full
    have back := sound.forward_inverse full reduced
    have holds := rooted.holdsValues_forward inverseFull
    have answered : transform.checkedForward (transform.inverse buffer) =
        .ok (transform.forward (transform.inverse buffer)) :=
      checked_eq_ok _ (List.forall_mem_singleton.mpr inverseFull)
    rw [back] at holds answered
    exact ⟨transform.inverse buffer, bijective.mapsTo member,
      checked_eq_ok _ (List.forall_mem_singleton.mpr full), sound.inverse?_eq full reduced, holds,
      answered⟩

/-- A buffer that is not reduced, and one that is. -/
theorem inverse_and_forward_unreduced : ∃ transform, ofModuli (2 ^ 1) [5, 13] = .ok transform ∧
    (∃ image residues, transform.checkedForward [7, 3, 20, 1] = .ok image ∧
      transform.forward? [7, 3, 20, 1] = some image ∧
      transform.checkedInverse image = .ok residues ∧ transform.inverse? image = some residues ∧
      HoldsResidues 1 [5, 13] [7, 3, 20, 1] residues) ∧
    [4, 0, 12, 7] ∈ reducedBuffers 1 [5, 13] ∧
    ∃ coefficients, transform.checkedInverse [4, 0, 12, 7] = .ok coefficients ∧
      transform.inverse? [4, 0, 12, 7] = some coefficients ∧
      transform.checkedForward coefficients = .ok [4, 0, 12, 7] := by
  have reduced : [4, 0, 12, 7] ∈ reducedBuffers 1 [5, 13] := by
    refine ⟨rfl, ?_⟩
    rintro (_ | _ | index) q present
    · cases present
      simp [run]
    · cases present
      simp [run]
    · cases present
  obtain ⟨usable, each⟩ :=
    @inverse_and_forward 1 [5, 13] prime_of_mem_five_thirteen (by simp) (by simp)
  obtain ⟨transform, built⟩ := usable (by decide)
  obtain ⟨restores, inverts, _⟩ := each transform built
  obtain ⟨coefficients, _, inverted, inPlace, _, forwarded⟩ := inverts _ reduced
  exact ⟨transform, built, restores [7, 3, 20, 1] rfl, reduced, coefficients, inverted, inPlace,
    forwarded⟩

end Transform

end RingLwe
