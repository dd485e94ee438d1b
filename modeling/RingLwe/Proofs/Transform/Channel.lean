import RingLwe.Proofs.Modular.Power
import RingLwe.Proofs.Transform.Root
import RingLwe.Proofs.Transform.Twiddle
import RingLwe.Transform

/-!
# The transform modulo one prime

A channel is built for every prime that is one more than a multiple of twice
the size (`Channel.exists_ofModulus`), and has the tables of a root of `-1`
(`Channel.Sound`, `Channel.sound_of_ofModulus`).  Its forward transform denotes the forward
network over residue classes (`forward_spec`), and what the inverse transform
gives for reduced words is determined by what they denote (`inverse_spec`).
So the inverse undoes the forward transform up to reduction
(`inverse_forward`), the forward transform undoes the inverse of reduced words
(`forward_inverse`), and pointwise products are those modulo `X^n + 1`
(`pointwise_forward`).
-/

set_option autoImplicit false

namespace RingLwe

open Residue

namespace Channel

/-! ## What words denote -/

/-- The classes that transformed words denote. -/
def decodeList (channel : Channel) (words : List UInt64) : List (ZMod channel.modulus.toNat) :=
  words.map (Montgomery.decode channel.modulus)

/-- The classes of words. -/
def classes (channel : Channel) (words : List UInt64) : List (ZMod channel.modulus.toNat) :=
  words.map (classOf channel.modulus)

/-- What a twiddle factor denotes. -/
def factor (channel : Channel) (node : Nat) : ZMod channel.modulus.toNat :=
  Montgomery.decode channel.modulus (channel.twiddles.getD node 0)

/-- What an inverse twiddle factor denotes. -/
def inverseFactor (channel : Channel) (node : Nat) : ZMod channel.modulus.toNat :=
  Montgomery.decode channel.modulus (channel.inverseTwiddles.getD node 0)

/-- What holds of a channel of size `2^depth` that was built for a prime. -/
structure Sound (channel : Channel) (depth : Nat) : Prop where
  arithmetic : channel.arithmetic = Montgomery.ofModulus channel.modulus
  odd : channel.modulus.toNat % 2 = 1
  half : 2 * channel.modulus.toNat < UInt64.size
  twiddles_size : channel.twiddles.size = 2 ^ depth
  inverseTwiddles_size : channel.inverseTwiddles.size = 2 ^ depth
  twiddle_lt : ∀ node, channel.twiddles.getD node 0 < channel.modulus
  inverseTwiddle_lt : ∀ node, channel.inverseTwiddles.getD node 0 < channel.modulus
  sizeInverse_lt : channel.sizeInverse < channel.modulus
  roots : Negacyclic.SquareRoots channel.factor (2 ^ depth)
  first : 0 < depth → channel.factor 1 ^ 2 = -1
  units : ∀ node, 0 < node → node < 2 ^ depth → channel.factor node * channel.inverseFactor node = 1
  size : 2 ^ depth * Montgomery.decode channel.modulus channel.sizeInverse = 1

/-! ## Construction -/

section Construction

variable {q : UInt64} (prime : Nat.Prime q.toNat)
include prime

theorem fermatInverse_spec {residue : UInt64} (nonzero : classOf q residue ≠ 0) :
    fermatInverse residue q < q ∧ classOf q residue * classOf q (fermatInverse residue q) = 1 :=
  ⟨powAboveOne_lt prime.two_le _ _, classOf_mul_powAboveOne prime nonzero⟩

/-- The channel of a root of `-1`. -/
theorem sound_ofRoot {depth : Nat} (odd : q.toNat % 2 = 1) (half : 2 * q.toNat < UInt64.size)
    (fits : 2 ^ depth < UInt64.size) {root : UInt64} (negative : classOf q root ^ 2 ^ depth = -1) :
    (ofRoot depth q root).Sound depth := by
  have fact : Fact q.toNat.Prime := ⟨prime⟩
  have size : (1 <<< depth : Nat).toUInt64.toNat = 2 ^ depth := by
    rw [Nat.one_shiftLeft]
    exact UInt64.toNat_ofNat_of_lt' fits
  have sizeClass : classOf q (1 <<< depth : Nat).toUInt64 = 2 ^ depth := by
    rw [classOf, size, Nat.cast_pow, Nat.cast_ofNat]
  have two : (2 : ZMod q.toNat) ≠ 0 := by
    intro zero
    have divides : q.toNat ∣ 2 := (ZMod.natCast_eq_zero_iff 2 q.toNat).mp zero
    have := Nat.le_of_dvd (by decide) divides
    have := prime.two_le
    omega
  have rootNonzero : classOf q root ≠ 0 := by
    intro zero
    rw [zero, zero_pow (Nat.pos_iff_ne_zero.mp (Nat.two_pow_pos depth))] at negative
    exact one_ne_zero (neg_eq_zero.mp negative.symm)
  obtain ⟨_, rootUnit⟩ := fermatInverse_spec prime rootNonzero
  obtain ⟨_, sizeUnit⟩ := fermatInverse_spec prime (sizeClass ▸ pow_ne_zero depth two)
  obtain ⟨enteredLt, entered⟩ := Montgomery.enter_spec odd half root
  obtain ⟨inverseLt, inverse⟩ := Montgomery.enter_spec odd half (fermatInverse root q)
  obtain ⟨sizeLt, sizeInverse⟩ :=
    Montgomery.enter_spec odd half (fermatInverse (1 <<< depth : Nat).toUInt64 q)
  have powers := Twiddle.powers_table odd half depth enteredLt
  have inversePowers := Twiddle.powers_table odd half depth inverseLt
  rw [entered] at powers
  rw [inverse] at inversePowers
  exact
    { arithmetic := rfl
      odd
      half
      twiddles_size := Twiddle.size_table _ depth _
      inverseTwiddles_size := Twiddle.size_table _ depth _
      twiddle_lt := Twiddle.getD_table_lt odd half depth enteredLt
      inverseTwiddle_lt := Twiddle.getD_table_lt odd half depth inverseLt
      sizeInverse_lt := sizeLt
      roots := powers.squareRoots negative
      first := powers.sq_first negative
      units := fun _ _ below => powers.mul_eq_one inversePowers rootUnit below
      size := by rw [sizeClass] at sizeUnit; exact (congrArg _ sizeInverse).trans sizeUnit }

/-- The order of the root of a channel is a word. -/
theorem order_lt_size {depth : Nat} (congruent : q.toNat % (2 * 2 ^ depth) = 1) :
    2 * 2 ^ depth < UInt64.size := by
  have above := prime.two_le
  have small := q.toNat_lt
  have order : 2 * 2 ^ depth ≤ q.toNat := by
    by_contra large
    rw [Nat.mod_eq_of_lt (by omega)] at congruent
    omega
  simp only [UInt64.size]
  omega

/-- Modulo a prime that is one more than a multiple of twice the size, the search finds a root of `-1`. -/
theorem exists_primitive? {depth : Nat} (congruent : q.toNat % (2 * 2 ^ depth) = 1) :
    ∃ root, Root.primitive? (2 * 2 ^ depth : Nat).toUInt64 q = some root ∧
      classOf q root ^ 2 ^ depth = -1 := by
  have order : (2 * 2 ^ depth : Nat).toUInt64.toNat = 2 * 2 ^ depth :=
    UInt64.toNat_ofNat_of_lt' (order_lt_size prime congruent)
  have even : (2 * 2 ^ depth : Nat).toUInt64.toNat % 2 = 0 := by rw [order, Nat.mul_mod_right]
  obtain ⟨_, root, _, _, _, found, _, _, ordered⟩ :=
    Root.exists_primitive? prime even (order.symm ▸ congruent)
  have negative := (Root.pow_of_hasOrder prime even ordered).2
  rw [order, Nat.mul_div_cancel_left _ (by decide)] at negative
  exact ⟨root, found, negative⟩

theorem exists_ofModulus {depth : Nat} (congruent : q.toNat % (2 * 2 ^ depth) = 1) :
    ∃ channel, ofModulus depth q = .ok channel := by
  obtain ⟨root, found, _⟩ := exists_primitive? prime congruent
  refine ⟨ofRoot depth q root, ?_⟩
  simp only [ofModulus, Nat.one_shiftLeft, if_pos congruent, found]

omit prime in
/-- A channel that is built is the channel of the root that the search finds. -/
theorem ofModulus_eq_ok {depth : Nat} {channel : Channel} (built : ofModulus depth q = .ok channel) :
    q.toNat % (2 * 2 ^ depth) = 1 ∧
      ∃ root, Root.primitive? (2 * 2 ^ depth : Nat).toUInt64 q = some root ∧
        channel = ofRoot depth q root := by
  simp only [ofModulus, Nat.one_shiftLeft] at built
  split at built
  next congruent =>
    split at built
    next root found =>
      cases built
      exact ⟨congruent, root, found, rfl⟩
    next => cases built
  next => cases built

omit prime in
theorem odd_of_congruent {depth : Nat} (congruent : q.toNat % (2 * 2 ^ depth) = 1) :
    q.toNat % 2 = 1 := by
  rw [← Nat.mod_mul_right_mod q.toNat 2 (2 ^ depth), congruent]

theorem pow_eq_neg_one_of_primitive? {depth : Nat} (congruent : q.toNat % (2 * 2 ^ depth) = 1)
    {root : UInt64} (found : Root.primitive? (2 * 2 ^ depth : Nat).toUInt64 q = some root) :
    classOf q root ^ 2 ^ depth = -1 := by
  obtain ⟨other, first, negative⟩ := exists_primitive? prime congruent
  cases first.symm.trans found
  exact negative

/-- A channel that is built for a prime is sound. -/
theorem sound_of_ofModulus {depth : Nat} (half : 2 * q.toNat < UInt64.size) {channel : Channel}
    (built : ofModulus depth q = .ok channel) : channel.Sound depth ∧ channel.modulus = q := by
  obtain ⟨congruent, root, found, rfl⟩ := ofModulus_eq_ok built
  have fits := order_lt_size prime congruent
  have negative := pow_eq_neg_one_of_primitive? prime congruent found
  exact ⟨sound_ofRoot prime (odd_of_congruent congruent) half (by omega) negative, rfl⟩

end Construction

/-! ## Behaviour -/

namespace Sound

variable {channel : Channel} {depth : Nat} (sound : channel.Sound depth)
include sound

theorem modulus_pos : 0 < channel.modulus.toNat := by
  have := sound.odd
  omega

/-- Reduced words in Montgomery form stand for what they denote. -/
theorem reading : Network.Reading (addReduced · · channel.modulus) (sub · · channel.modulus)
    channel.arithmetic.mul (· < channel.modulus) (Montgomery.decode channel.modulus) := by
  rw [sound.arithmetic]
  exact
    { valid_add := fun _ _ leftLt rightLt => addReduced_lt leftLt rightLt sound.half
      valid_sub := fun _ _ leftLt rightLt => sub_lt leftLt rightLt
      valid_mul := fun left _ _ rightLt =>
        Montgomery.mul_lt sound.odd sound.half (Montgomery.mul_bound left rightLt)
      view_add := fun _ _ leftLt rightLt =>
        Montgomery.decode_addReduced leftLt rightLt sound.half
      view_sub := fun _ _ leftLt rightLt => Montgomery.decode_sub leftLt rightLt
      view_mul := fun left _ _ rightLt =>
        Montgomery.decode_mul sound.odd sound.half (Montgomery.mul_bound left rightLt) }

theorem entered_lt (words : List UInt64) :
    ∀ word ∈ words.map channel.arithmetic.enter, word < channel.modulus := by
  intro word member
  obtain ⟨origin, _, rfl⟩ := List.mem_map.mp member
  rw [sound.arithmetic]
  exact (Montgomery.enter_spec sound.odd sound.half origin).1

/-- The forward transform of any words is reduced and denotes the network over their classes. -/
theorem forward_spec (words : List UInt64) :
    (∀ word ∈ channel.forward depth words, word < channel.modulus) ∧
      channel.decodeList (channel.forward depth words) =
        Network.ringForward channel.factor depth 1 (channel.classes words) := by
  have denoted : (words.map channel.arithmetic.enter).map (Montgomery.decode channel.modulus) =
      channel.classes words := by
    rw [List.map_map, sound.arithmetic]
    exact List.map_congr_left fun word _ =>
      (Montgomery.enter_spec sound.odd sound.half word).2
  obtain ⟨reduced, network⟩ :=
    sound.reading.forward sound.twiddle_lt depth 1 (sound.entered_lt words)
  rw [denoted] at network
  exact ⟨reduced, network⟩

omit sound in
theorem length_forward {words : List UInt64} (full : words.length = 2 ^ depth) :
    (channel.forward depth words).length = 2 ^ depth :=
  Network.length_forward _ _ _ _ depth 1 _ (by rw [List.length_map, full])

omit sound in
theorem length_inverse {words : List UInt64} (full : words.length = 2 ^ depth) :
    (channel.inverse depth words).length = 2 ^ depth := by
  rw [inverse, List.length_map]
  exact Network.length_inverse _ _ _ _ depth 1 _ full

/-- The inverse transform of reduced words is reduced, and its classes are those of the inverse
network divided by the size. -/
theorem inverse_spec {words : List UInt64} (wordsReduced : ∀ word ∈ words, word < channel.modulus) :
    (∀ word ∈ channel.inverse depth words, word < channel.modulus) ∧
      channel.classes (channel.inverse depth words) =
        (Network.ringInverse channel.inverseFactor depth 1 (channel.decodeList words)).map
          (· * Montgomery.decode channel.modulus channel.sizeInverse) := by
  obtain ⟨_, network⟩ := sound.reading.inverse sound.inverseTwiddle_lt depth 1 wordsReduced
  constructor
  · intro word member
    obtain ⟨value, _, rfl⟩ := List.mem_map.mp member
    rw [sound.arithmetic]
    exact (Montgomery.leave_spec sound.odd sound.half _).1
  · have unfolded : Network.ringInverse channel.inverseFactor depth 1 (channel.decodeList words) =
        (Network.inverse (addReduced · · channel.modulus) (sub · · channel.modulus)
          channel.arithmetic.mul (channel.inverseTwiddles.getD · 0) depth 1 words).map
          (Montgomery.decode channel.modulus) := network.symm
    rw [unfolded, classes, inverse, List.map_map, List.map_map]
    refine List.map_congr_left ?_
    intro value _
    rw [Function.comp_apply, Function.comp_apply, sound.arithmetic,
      (Montgomery.leave_spec sound.odd sound.half _).2]
    exact Montgomery.decode_mul sound.odd sound.half (Montgomery.mul_bound _ sound.sizeInverse_lt)

/-- The inverse transform recovers the values of which reduced words denote the transform. -/
theorem classes_inverse {words : List UInt64}
    (wordsReduced : ∀ word ∈ words, word < channel.modulus)
    {values : List (ZMod channel.modulus.toNat)} (full : values.length = 2 ^ depth)
    (denoted : channel.decodeList words = Network.ringForward channel.factor depth 1 values) :
    channel.classes (channel.inverse depth words) = values := by
  rw [(sound.inverse_spec wordsReduced).2, denoted,
    Network.ringInverse_ringForward sound.units depth Nat.one_pos (Nat.le_refl _) full,
    List.map_map]
  refine (List.map_congr_left fun value _ => ?_).trans (List.map_id values)
  have size := sound.size
  simp only [Function.comp_apply, id_eq]
  linear_combination value * size

/-- The inverse undoes the forward transform up to reduction. -/
theorem inverse_forward {words : List UInt64} (full : words.length = 2 ^ depth) :
    channel.inverse depth (channel.forward depth words) = words.map (· % channel.modulus) := by
  obtain ⟨reduced, denoted⟩ := sound.forward_spec words
  refine eq_of_map_classOf_eq (sound.inverse_spec reduced).1 ?_ ?_
  · intro word member
    obtain ⟨origin, _, rfl⟩ := List.mem_map.mp member
    exact UInt64.mod_lt origin (UInt64.lt_iff_toNat_lt.mpr sound.modulus_pos)
  · have restored := sound.classes_inverse reduced (by rw [classes, List.length_map, full]) denoted
    rw [List.map_map]
    refine restored.trans ?_
    exact List.map_congr_left fun word _ => (classOf_mod word).symm

/-- The forward transform undoes the inverse of reduced words. -/
theorem forward_inverse {words : List UInt64} (full : words.length = 2 ^ depth)
    (wordsReduced : ∀ word ∈ words, word < channel.modulus) :
    channel.forward depth (channel.inverse depth words) = words := by
  obtain ⟨reduced, denoted⟩ := sound.forward_spec (channel.inverse depth words)
  have decoded : channel.decodeList (channel.forward depth (channel.inverse depth words)) =
      channel.decodeList words := by
    have decodedFull : (channel.decodeList words).length = 2 ^ depth := by
      rw [decodeList, List.length_map, full]
    have size := sound.size
    have scaled : (Network.ringInverse channel.inverseFactor depth 1 (channel.decodeList words)).map
          (· * Montgomery.decode channel.modulus channel.sizeInverse) =
        (Network.ringInverse channel.inverseFactor depth 1 (channel.decodeList words)).map
          (Montgomery.decode channel.modulus channel.sizeInverse * ·) :=
      List.map_congr_left fun value _ => mul_comm _ _
    rw [denoted, (sound.inverse_spec wordsReduced).2, scaled,
      Network.ringForward_scale _ _ _ _ _ (Network.length_ringInverse _ _ decodedFull),
      Network.ringForward_ringInverse sound.units depth Nat.one_pos (Nat.le_refl _) decodedFull,
      List.map_map]
    refine (List.map_congr_left fun value _ => ?_).trans (List.map_id _)
    simp only [Function.comp_apply, id_eq]
    linear_combination value * size
  have scaled := congrArg
    (List.map (· * (UInt64.size : ZMod channel.modulus.toNat))) decoded
  refine eq_of_map_classOf_eq reduced wordsReduced ?_
  have restore : ∀ words : List UInt64,
      (channel.decodeList words).map (· * (UInt64.size : ZMod channel.modulus.toNat)) =
        channel.classes words := by
    intro words
    rw [decodeList, List.map_map]
    refine List.map_congr_left ?_
    intro word _
    simp only [Function.comp_apply, Montgomery.decode]
    linear_combination classOf channel.modulus word * Montgomery.size_mul_inv sound.odd
  rwa [restore, restore] at scaled

/-- The pointwise product of reduced words is reduced and denotes the pointwise product. -/
theorem pointwise_spec {left right : List UInt64}
    (rightReduced : ∀ word ∈ right, word < channel.modulus) :
    (∀ word ∈ channel.pointwise left right, word < channel.modulus) ∧
      channel.decodeList (channel.pointwise left right) =
        List.zipWith (· * ·) (channel.decodeList left) (channel.decodeList right) := by
  rw [pointwise, sound.arithmetic]
  induction left generalizing right with
  | nil => simp [decodeList]
  | cons first left ih =>
    cases right with
    | nil => simp [decodeList]
    | cons second right =>
      obtain ⟨secondLt, rightRest⟩ := List.forall_mem_cons.mp rightReduced
      obtain ⟨others, rest⟩ := ih rightRest
      have bound := Montgomery.mul_bound first secondLt
      refine ⟨List.forall_mem_cons.mpr ⟨Montgomery.mul_lt sound.odd sound.half bound, others⟩, ?_⟩
      simp only [decodeList, List.zipWith_cons_cons, List.map_cons,
        Montgomery.decode_mul sound.odd sound.half bound] at rest ⊢
      rw [rest]

/-- The pointwise product of transforms denotes the transform of the product modulo `X^n + 1`. -/
theorem pointwise_forward {left right : List UInt64} (leftFull : left.length = 2 ^ depth)
    (rightFull : right.length = 2 ^ depth) :
    channel.decodeList
        (channel.pointwise (channel.forward depth left) (channel.forward depth right)) =
      Network.ringForward channel.factor depth 1
        (Negacyclic.product (2 ^ depth) (channel.classes left) (channel.classes right)) := by
  obtain ⟨_, leftDenoted⟩ := sound.forward_spec left
  obtain ⟨rightReduced, rightDenoted⟩ := sound.forward_spec right
  rw [(sound.pointwise_spec rightReduced).2, leftDenoted, rightDenoted]
  exact (Negacyclic.ringForward_product sound.roots sound.first
    (by rw [classes, List.length_map, leftFull]) (by rw [classes, List.length_map, rightFull])).symm

end Sound

end Channel

end RingLwe
