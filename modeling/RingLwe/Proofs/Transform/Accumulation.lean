import RingLwe.Proofs.Transform.Buffer

/-!
# Lazy accumulation

Pointwise products of transforms may be added up as words, without reduction,
as long as there are so few of them that no sum leaves its word
(`room_of_quotient`).  Such sums denote the transform of the sum of the products
(`Accumulates`): zeros do, one more product keeps it (`accumulates_add`), and
after one reduction the inverse transform has the classes of the sum
(`Accumulates.classes_inverse`).
-/

set_option autoImplicit false

namespace RingLwe

open Residue

namespace Montgomery

variable {q : UInt64}

theorem decode_zero : decode q 0 = 0 := by
  rw [decode, classOf_zero, zero_mul]

theorem decode_mod (word : UInt64) : decode q (word % q) = decode q word := by
  rw [decode, classOf_mod, decode]

theorem toNat_add_of_room {left right : UInt64} (room : left.toNat + right.toNat < UInt64.size) :
    (left + right).toNat = left.toNat + right.toNat := by
  rw [UInt64.toNat_add]
  exact Nat.mod_eq_of_lt room

theorem decode_add {left right : UInt64} (room : left.toNat + right.toNat < UInt64.size) :
    decode q (left + right) = decode q left + decode q right := by
  rw [decode, classOf, toNat_add_of_room room, Nat.cast_add, add_mul, decode, decode, classOf,
    classOf]

end Montgomery

/-- As many terms as fit into a word, for terms below a bound. -/
theorem room_of_quotient {terms limit : Nat} (few : terms ≤ (UInt64.size - 1) / limit) :
    terms * (limit - 1) < UInt64.size := by
  have product : terms * (limit - 1) ≤ (UInt64.size - 1) / limit * limit :=
    Nat.mul_le_mul few (Nat.sub_le _ _)
  have whole : (UInt64.size - 1) / limit * limit ≤ UInt64.size - 1 := Nat.div_mul_le_self _ _
  have positive : 0 < UInt64.size := by decide
  omega

namespace Channel

/-! ## One prime -/

/-- Whether words are sums of so many reduced words, and denote the transform of the values. -/
structure Accumulates (channel : Channel) (depth terms : Nat) (words : List UInt64)
    (values : List (ZMod channel.modulus.toNat)) : Prop where
  full : values.length = 2 ^ depth
  bound : ∀ word ∈ words, word.toNat ≤ terms * (channel.modulus.toNat - 1)
  denoted : channel.decodeList words = Network.ringForward channel.factor depth 1 values

theorem accumulates_zero (channel : Channel) (depth : Nat) :
    Accumulates channel depth 0 (List.replicate (2 ^ depth) 0) (List.replicate (2 ^ depth) 0) := by
  refine ⟨List.length_replicate, fun word member => ?_, ?_⟩
  · rw [List.eq_of_mem_replicate member, UInt64.toNat_zero]
    exact Nat.zero_le _
  · rw [decodeList, List.map_replicate, Montgomery.decode_zero, Negacyclic.ringForward_zero]

/-- Sums of words that do not overflow denote the sums. -/
theorem decodeList_add (channel : Channel) {left right : List UInt64} {leftBound rightBound : Nat}
    (leftSmall : ∀ word ∈ left, word.toNat ≤ leftBound)
    (rightSmall : ∀ word ∈ right, word.toNat ≤ rightBound)
    (room : leftBound + rightBound < UInt64.size) :
    (∀ word ∈ List.zipWith (· + ·) left right, word.toNat ≤ leftBound + rightBound) ∧
      channel.decodeList (List.zipWith (· + ·) left right) =
        List.zipWith (· + ·) (channel.decodeList left) (channel.decodeList right) := by
  induction left generalizing right with
  | nil => simp [decodeList]
  | cons first left ih =>
    cases right with
    | nil => simp [decodeList]
    | cons second right =>
      obtain ⟨firstSmall, leftRest⟩ := List.forall_mem_cons.mp leftSmall
      obtain ⟨secondSmall, rightRest⟩ := List.forall_mem_cons.mp rightSmall
      obtain ⟨bounds, rest⟩ := ih leftRest rightRest
      have fits : first.toNat + second.toNat < UInt64.size :=
        Nat.lt_of_le_of_lt (Nat.add_le_add firstSmall secondSmall) room
      refine ⟨List.forall_mem_cons.mpr ⟨?_, bounds⟩, ?_⟩
      · rw [Montgomery.toNat_add_of_room fits]
        exact Nat.add_le_add firstSmall secondSmall
      · simp only [decodeList, List.zipWith_cons_cons, List.map_cons,
          Montgomery.decode_add fits] at rest ⊢
        rw [rest]

section Step

variable {channel : Channel} {depth : Nat} (sound : channel.Sound depth) {terms : Nat}
  {sums : List UInt64} {values : List (ZMod channel.modulus.toNat)}
  (accumulates : Accumulates channel depth terms sums values)
include sound accumulates

/-- The product of one more pair keeps the sums sums of products.  The factors may change places
among the values. -/
theorem accumulates_add (room : (terms + 1) * (channel.modulus.toNat - 1) < UInt64.size)
    {left right : List UInt64} (leftFull : left.length = 2 ^ depth)
    (rightFull : right.length = 2 ^ depth) :
    Accumulates channel depth (terms + 1)
      (List.zipWith (· + ·) sums
        (channel.pointwise (channel.forward depth left) (channel.forward depth right)))
      (List.zipWith (· + ·) values
        (Negacyclic.product (2 ^ depth) (channel.classes right) (channel.classes left))) := by
  have rightReduced := (sound.forward_spec right).1
  have small : ∀ word ∈ channel.pointwise (channel.forward depth left)
      (channel.forward depth right), word.toNat ≤ channel.modulus.toNat - 1 := by
    intro word member
    have below := UInt64.lt_iff_toNat_lt.mp ((sound.pointwise_spec rightReduced).1 word member)
    omega
  rw [Nat.succ_mul] at room
  obtain ⟨bounds, denoted⟩ := decodeList_add channel accumulates.bound small room
  have leftClasses : (channel.classes left).length = 2 ^ depth := by
    rw [classes, List.length_map, leftFull]
  have rightClasses : (channel.classes right).length = 2 ^ depth := by
    rw [classes, List.length_map, rightFull]
  have commuted : Network.ringForward channel.factor depth 1
      (Negacyclic.product (2 ^ depth) (channel.classes left) (channel.classes right)) =
        Network.ringForward channel.factor depth 1
          (Negacyclic.product (2 ^ depth) (channel.classes right) (channel.classes left)) := by
    rw [Negacyclic.ringForward_product sound.roots sound.first leftClasses rightClasses,
      Negacyclic.ringForward_product sound.roots sound.first rightClasses leftClasses]
    exact List.zipWith_comm_of_comm mul_comm
  refine ⟨?_, ?_, ?_⟩
  · rw [List.length_zipWith, accumulates.full, Negacyclic.length_product, Nat.min_self]
  · rw [Nat.succ_mul]
    exact bounds
  · rw [denoted, accumulates.denoted, sound.pointwise_forward leftFull rightFull, commuted,
      Negacyclic.ringForward_add sound.roots accumulates.full (Negacyclic.length_product _ _ _)]

theorem Accumulates.classes_inverse :
    channel.classes (channel.inverse depth (sums.map (· % channel.modulus))) = values := by
  refine sound.classes_inverse (fun word member => ?_) accumulates.full ?_
  · obtain ⟨origin, _, rfl⟩ := List.mem_map.mp member
    exact UInt64.mod_lt origin (UInt64.lt_iff_toNat_lt.mpr sound.modulus_pos)
  · rw [← accumulates.denoted, decodeList, decodeList, List.map_map]
    exact List.map_congr_left fun word _ => Montgomery.decode_mod word

end Step

end Channel

end RingLwe
