import RingLwe.Proofs.Transform.Accumulation
import RingLwe.Proofs.Transform.Overflow

/-!
# Lazy sums are exact

Pointwise products of buffers are added up as words and reduced once, at the
end.  A second form of the accumulation refuses every product and every sum that
leaves its range (`Transform.accumulate?`).

The invariant of a run over pairs of buffers is that every word is the exact sum
of the words of the products so far (`Transform.Sums`).  A product is reduced, so
the words stay within the number of pairs times the largest residue, and one more
product is not refused as long as that number fits a word (`Sound.sums_add`).
So no word overflows within the headroom, and reduction leaves the sums of the
products modulo every prime (`Sound.accumulateAll?_eq`, `Sums.getD_reduce`).
-/

set_option autoImplicit false

namespace RingLwe

/-! ## Accumulation with its ranges -/

/-- The pointwise product of one run, with its ranges. -/
def Channel.pointwise? (channel : Channel) (left right : List UInt64) : Option (List UInt64) :=
  (left.zip right).mapM fun pair => channel.arithmetic.mul? pair.1 pair.2

namespace Transform

/-- The pointwise product of two transformed buffers, with its ranges. -/
def pointwise? (transform : Transform) (left right : List UInt64) : Option (List UInt64) := do
  let runs ← (transform.channels.zip
    ((components transform.size transform.count left).zip
      (components transform.size transform.count right))).mapM
    fun (channel, pair) => channel.pointwise? pair.1 pair.2
  some runs.flatten

/-- Adds the pointwise product of two transformed buffers to a buffer, with its ranges. -/
def accumulate? (transform : Transform) (sums left right : List UInt64) : Option (List UInt64) := do
  let products ← transform.pointwise? left right
  (sums.zip products).mapM fun pair => Exact.add pair.1 pair.2

/-- Adds the pointwise products of pairs of transformed buffers to a buffer of zeros. -/
def accumulateAll (transform : Transform) (pairs : List (List UInt64 × List UInt64)) :
    List UInt64 :=
  pairs.foldl (fun sums pair => transform.accumulate sums pair.1 pair.2)
    (List.replicate transform.bufferLength 0)

/-- Adds the pointwise products of pairs of transformed buffers to a buffer of zeros, with its
ranges. -/
def accumulateAll? (transform : Transform) (pairs : List (List UInt64 × List UInt64)) :
    Option (List UInt64) :=
  pairs.foldlM (fun sums pair => transform.accumulate? sums pair.1 pair.2)
    (List.replicate transform.bufferLength 0)

variable (transform : Transform) (pairs : List (List UInt64 × List UInt64))
  (pair : List UInt64 × List UInt64)

theorem accumulateAll_concat : transform.accumulateAll (pairs ++ [pair]) =
    transform.accumulate (transform.accumulateAll pairs) pair.1 pair.2 := by
  rw [accumulateAll, List.foldl_append]
  rfl

theorem accumulateAll?_concat : transform.accumulateAll? (pairs ++ [pair]) =
    (transform.accumulateAll? pairs).bind
      fun sums => transform.accumulate? sums pair.1 pair.2 := by
  rw [accumulateAll?, List.foldlM_append]
  simp only [List.foldlM_cons, List.foldlM_nil, bind_pure]
  rfl

end Transform

/-! ## Products -/

theorem Channel.Sound.pointwise?_eq {channel : Channel} {depth : Nat} (sound : channel.Sound depth)
    (left : List UInt64) {right : List UInt64} (reduced : ∀ word ∈ right, word < channel.modulus) :
    channel.pointwise? left right = some (channel.pointwise left right) := by
  rw [pointwise?, pointwise, ← List.map_uncurry_zip_eq_zipWith]
  refine mapM_eq_some_map fun pair member => ?_
  have below := reduced pair.2 (List.of_mem_zip member).2
  exact Montgomery.mul?_eq sound.half (Montgomery.mul_bound pair.1 below)

/-- A word of a reduced buffer is below every bound of the moduli. -/
theorem Reduced.toNat_le {size limit : Nat} {moduli residues : List UInt64}
    (reduced : Reduced size moduli residues) (full : residues.length = size * moduli.length)
    (bounded : ∀ q ∈ moduli, q.toNat ≤ limit) (place : Nat) :
    (residues.getD place 0).toNat ≤ limit - 1 := by
  rcases Nat.lt_or_ge place residues.length with inside | beyond
  · have positive : 0 < size := by
      rw [full] at inside
      exact Nat.pos_of_mul_pos_right (Nat.zero_lt_of_lt inside)
    have enough : place / size < moduli.length := by
      rw [full] at inside
      exact Nat.div_lt_of_lt_mul inside
    have below := reduced.getD_lt full (List.getElem?_eq_getElem enough) enough
      (Nat.mod_lt place positive)
    rw [Nat.div_add_mod'] at below
    have small := bounded _ (List.getElem_mem enough)
    have order := UInt64.lt_iff_toNat_lt.mp below
    omega
  · rw [List.getD_eq_default _ _ beyond, UInt64.toNat_zero]
    exact Nat.zero_le _

namespace Transform

variable {transform : Transform}

/-- What is asked of a pair of buffers whose product is added: both have the full length, and the
second one is reduced. -/
structure Operands (transform : Transform) (pair : List UInt64 × List UInt64) : Prop where
  left : pair.1.length = transform.bufferLength
  right : pair.2.length = transform.bufferLength
  reduced : Reduced transform.size transform.moduli pair.2

/-- Whether every word of a buffer is the exact sum of the words of the products of pairs. -/
structure Sums (transform : Transform) (pairs : List (List UInt64 × List UInt64))
    (words : List UInt64) : Prop where
  full : words.length = transform.bufferLength
  exact : ∀ place, (words.getD place 0).toNat =
    (pairs.map fun pair => ((transform.pointwise pair.1 pair.2).getD place 0).toNat).sum

theorem sums_nil (transform : Transform) :
    Sums transform [] (List.replicate transform.bufferLength 0) := by
  refine ⟨List.length_replicate, fun place => ?_⟩
  rw [List.map_nil, List.sum_nil]
  rcases Nat.lt_or_ge place transform.bufferLength with inside | beyond
  · rw [List.getD_replicate _ inside, UInt64.toNat_zero]
  · rw [List.getD_eq_default _ _ (by rw [List.length_replicate]; exact beyond), UInt64.toNat_zero]

theorem Sums.getD_reduce {pairs : List (List UInt64 × List UInt64)} {words : List UInt64}
    (sums : Sums transform pairs words) {index position : Nat} {q : UInt64}
    (present : transform.moduli[index]? = some q) (inside : position < transform.size) :
    ((transform.reduce words).getD (index * transform.size + position) 0).toNat =
      (pairs.map fun pair => ((transform.pointwise pair.1 pair.2).getD
        (index * transform.size + position) 0).toNat).sum % q.toNat := by
  rw [Transform.getD_reduce sums.full present inside, UInt64.toNat_mod, sums.exact]

namespace Sound

variable (sound : transform.Sound)
include sound

/-- No product of a pair leaves its range. -/
theorem pointwise?_eq {pair : List UInt64 × List UInt64} (operands : Operands transform pair) :
    transform.pointwise? pair.1 pair.2 = some (transform.pointwise pair.1 pair.2) := by
  rw [pointwise?, pointwise, ← List.map_uncurry_zip_eq_zipWith]
  have runs : (transform.channels.zip
      ((components transform.size transform.count pair.1).zip
        (components transform.size transform.count pair.2))).mapM
        (fun (channel, pair) => channel.pointwise? pair.1 pair.2) =
      some ((transform.channels.zip
        ((components transform.size transform.count pair.1).zip
          (components transform.size transform.count pair.2))).map
        (Function.uncurry fun channel pair => channel.pointwise pair.1 pair.2)) := by
    refine mapM_eq_some_map ?_
    rintro ⟨channel, left, right⟩ member
    obtain ⟨index, found⟩ := List.getElem?_of_mem member
    obtain ⟨present, beside⟩ := List.getElem?_zip_eq_some.mp found
    rw [getElem?_zip_components _ _ _ (index_lt present), Option.some.injEq, Prod.mk.injEq]
      at beside
    obtain ⟨_, rfl⟩ := beside
    exact (sound.channel present).pointwise?_eq left
      (operands.reduced index _ (modulus_present present))
  rw [runs]
  rfl

theorem toNat_pointwise_le {pair : List UInt64 × List UInt64} (operands : Operands transform pair)
    {limit : Nat} (bounded : ∀ q ∈ transform.moduli, q.toNat ≤ limit) (place : Nat) :
    ((transform.pointwise pair.1 pair.2).getD place 0).toNat ≤ limit - 1 := by
  have reduced := sound.reduced_pointwise operands.left operands.right operands.reduced
  refine reduced.toNat_le ?_ bounded place
  rw [length_pointwise operands.left operands.right, bufferLength, moduli, List.length_map, count]

variable {limit : Nat} (bounded : ∀ q ∈ transform.moduli, q.toNat ≤ limit)
include bounded

/-- Sums are at most as many largest residues as there are pairs. -/
theorem toNat_sums_le {pairs : List (List UInt64 × List UInt64)}
    (operands : ∀ pair ∈ pairs, Operands transform pair) {words : List UInt64}
    (sums : Sums transform pairs words) (place : Nat) :
    (words.getD place 0).toNat ≤ pairs.length * (limit - 1) := by
  rw [sums.exact]
  refine (List.sum_le_card_nsmul _ (limit - 1) fun term member => ?_).trans_eq ?_
  · obtain ⟨pair, inside, rfl⟩ := List.mem_map.mp member
    exact sound.toNat_pointwise_le (operands pair inside) bounded place
  · rw [List.length_map, smul_eq_mul]

/-- The product of one more pair is added without refusal, and keeps the sums exact. -/
theorem sums_add {pairs : List (List UInt64 × List UInt64)}
    (operands : ∀ pair ∈ pairs, Operands transform pair) {words : List UInt64}
    (sums : Sums transform pairs words) {pair : List UInt64 × List UInt64}
    (next : Operands transform pair) (room : (pairs.length + 1) * (limit - 1) < UInt64.size) :
    transform.accumulate? words pair.1 pair.2 = some (transform.accumulate words pair.1 pair.2) ∧
      Sums transform (pairs ++ [pair]) (transform.accumulate words pair.1 pair.2) := by
  have productFull := length_pointwise next.left next.right
  have fits : ∀ place, (words.getD place 0).toNat +
      ((transform.pointwise pair.1 pair.2).getD place 0).toNat < UInt64.size := by
    intro place
    have before := sound.toNat_sums_le bounded operands sums place
    have added := sound.toNat_pointwise_le next bounded place
    rw [Nat.succ_mul] at room
    omega
  refine ⟨?_, length_accumulate sums.full next.left next.right, fun place => ?_⟩
  · rw [accumulate?, sound.pointwise?_eq next, Option.bind_eq_bind, Option.bind_some, accumulate,
      ← List.map_uncurry_zip_eq_zipWith]
    refine mapM_eq_some_map ?_
    rintro ⟨word, term⟩ member
    obtain ⟨place, found⟩ := List.getElem?_of_mem member
    obtain ⟨left, right⟩ := List.getElem?_zip_eq_some.mp found
    have sum := fits place
    rw [List.getD_eq_getElem?_getD, left, List.getD_eq_getElem?_getD, right] at sum
    exact if_pos sum
  · rw [List.map_append, List.sum_append, List.map_singleton, List.sum_singleton, ← sums.exact]
    rcases Nat.lt_or_ge place transform.bufferLength with inside | beyond
    · rw [accumulate, getD_zipWith _ _ _ (by rw [sums.full]; exact inside)
        (by rw [productFull]; exact inside) 0 0 0, Montgomery.toNat_add_of_room (fits place)]
    · have accumulated := length_accumulate sums.full next.left next.right
      rw [List.getD_eq_default _ _ (by rw [accumulated]; exact beyond),
        List.getD_eq_default _ _ (by rw [sums.full]; exact beyond),
        List.getD_eq_default _ _ (by rw [productFull]; exact beyond)]
      rfl

/-- No word overflows within the headroom, and every word is the exact sum.  The accumulation runs from
the front, so the induction takes the pairs off the end. -/
theorem accumulateAll?_eq {pairs : List (List UInt64 × List UInt64)}
    (operands : ∀ pair ∈ pairs, Operands transform pair)
    (room : pairs.length * (limit - 1) < UInt64.size) :
    transform.accumulateAll? pairs = some (transform.accumulateAll pairs) ∧
      Sums transform pairs (transform.accumulateAll pairs) := by
  induction pairs using List.reverseRecOn with
  | nil => exact ⟨rfl, sums_nil transform⟩
  | append_singleton pairs pair ih =>
    rw [List.length_append, List.length_singleton] at room
    have earlier : ∀ other ∈ pairs, Operands transform other :=
      fun other member => operands other (List.mem_append_left _ member)
    obtain ⟨answered, sums⟩ := ih earlier (Nat.lt_of_le_of_lt
      (Nat.mul_le_mul_right _ (Nat.le_succ _)) room)
    obtain ⟨added, exact⟩ := sound.sums_add bounded earlier sums
      (operands pair (List.mem_append_right _ (List.mem_singleton_self pair))) room
    rw [accumulateAll?_concat, answered, Option.bind_some, accumulateAll_concat]
    exact ⟨added, exact⟩

end Sound

end Transform

end RingLwe
