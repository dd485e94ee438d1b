import RingLwe.Proofs.Wire

/-!
# Storing piece by piece

An object is stored by a cursor over the first bytes of the buffer of the caller,
as many as the size that was computed for the object: the parts of the header,
the fields and the words, one after the other.  A piece that does not fit is
written as far as there is room, and the writing fails.

So a size that is too small would leave a part of the object in the buffer, and
one that is too large some bytes of the caller (`storePieces_of_room`).  With the
size of the joined pieces the store is all or nothing, and a fresh buffer of that
size holds the object also when the answer is not looked at
(`storesWhole_of_size`).
-/

set_option autoImplicit false

namespace RingLwe.Wire

/-! ## Cursors -/

/-- A position in a window of a buffer. -/
structure Cursor where
  window : List UInt8
  position : Nat

/-- Writes a piece at the position of a cursor, as far as there is room, and fails with what was
written if that is not all of it. -/
def Cursor.write (cursor : Cursor) (piece : List UInt8) : Except Cursor Cursor :=
  let fitting := piece.take (cursor.window.length - cursor.position)
  let reached := cursor.position + fitting.length
  let after : Cursor :=
    ⟨cursor.window.take cursor.position ++ fitting ++ cursor.window.drop reached, reached⟩
  if fitting.length < piece.length then .error after else .ok after

namespace Cursor

variable {done rest piece : List UInt8}

/-- A piece that fits is written behind what is there already. -/
theorem write_of_room (room : piece.length ≤ rest.length) :
    (⟨done ++ rest, done.length⟩ : Cursor).write piece =
      .ok ⟨done ++ piece ++ rest.drop piece.length, (done ++ piece).length⟩ := by
  have free : (done ++ rest).length - done.length = rest.length := by
    rw [List.length_append, Nat.add_sub_cancel_left]
  rw [write]
  dsimp only
  rw [free, List.take_of_length_le room, if_neg (Nat.lt_irrefl _), List.take_left,
    List.drop_append, List.drop_eq_nil_of_le (Nat.le_add_right ..), List.nil_append,
    Nat.add_sub_cancel_left, List.length_append]

/-- Of a piece that does not fit, a part fills the window. -/
theorem write_of_no_room (few : rest.length < piece.length) :
    (⟨done ++ rest, done.length⟩ : Cursor).write piece =
      .error ⟨done ++ piece.take rest.length, (done ++ rest).length⟩ := by
  have free : (done ++ rest).length - done.length = rest.length := by
    rw [List.length_append, Nat.add_sub_cancel_left]
  have part : (piece.take rest.length).length = rest.length := by
    rw [List.length_take, Nat.min_eq_left (Nat.le_of_lt few)]
  rw [write]
  dsimp only
  rw [free, part, if_pos few, List.take_left, ← List.length_append, List.drop_length,
    List.append_nil]

/-- Pieces that fit together are written one behind the other, and others fill the window. -/
theorem foldlM_write (pieces : List (List UInt8)) (done rest : List UInt8) :
    pieces.foldlM write ⟨done ++ rest, done.length⟩ =
      if pieces.flatten.length ≤ rest.length then
        .ok ⟨done ++ pieces.flatten ++ rest.drop pieces.flatten.length,
          (done ++ pieces.flatten).length⟩
      else
        .error ⟨done ++ pieces.flatten.take rest.length, (done ++ rest).length⟩ := by
  induction pieces generalizing done rest with
  | nil =>
    rw [List.flatten_nil, List.length_nil, if_pos (Nat.zero_le _), List.append_nil, List.drop_zero]
    rfl
  | cons piece pieces ih =>
    have joined : (piece ++ pieces.flatten).length = piece.length + pieces.flatten.length :=
      List.length_append
    rw [List.foldlM_cons, List.flatten_cons]
    by_cases room : piece.length ≤ rest.length
    · have left : (rest.drop piece.length).length = rest.length - piece.length :=
        List.length_drop
      rw [write_of_room room, ok_bind, ih, left]
      by_cases enough : pieces.flatten.length ≤ rest.length - piece.length
      · rw [if_pos enough, if_pos (by omega), List.drop_drop, List.append_assoc done, joined]
      · have filled : (done ++ piece ++ rest.drop piece.length).length = (done ++ rest).length := by
          simp only [List.length_append, left]
          omega
        rw [if_neg enough, if_neg (by omega), filled, List.take_append,
          List.take_of_length_le room, List.append_assoc]
    · have short : rest.length < piece.length := Nat.lt_of_not_le room
      rw [write_of_no_room short, if_neg (by omega),
        List.take_append_of_le_length (Nat.le_of_lt short)]
      rfl

end Cursor

/-! ## Stores -/

/-- Why a store fails: for one of the reasons of the program, or because a piece did not fit. -/
inductive StoreFault where
  | failed (failure : Failure)
  | noRoom

/-- The answer of a store, and the buffer afterwards. -/
structure Effect where
  answer : Except StoreFault Nat
  buffer : List UInt8

/-- The effect of a store that writes nothing when it is refused. -/
def Effect.ofStored (buffer : List UInt8) : Except Failure Stored → Effect
  | .ok (written, bytes) => ⟨.ok written, bytes⟩
  | .error failure => ⟨.error (.failed failure), buffer⟩

/-- Writes pieces to the first bytes of a buffer, as many as the given size. -/
def storePieces (size : Nat) (pieces : List (List UInt8)) (buffer : List UInt8) : Effect :=
  if buffer.length < size then
    ⟨.error (.failed (.bufferTooSmall size buffer.length)), buffer⟩
  else
    match pieces.foldlM Cursor.write ⟨buffer.take size, 0⟩ with
    | .ok cursor => ⟨.ok size, cursor.window ++ buffer.drop size⟩
    | .error cursor => ⟨.error .noRoom, cursor.window ++ buffer.drop size⟩

/-- What pieces leave in a buffer with room for the size, whatever the size is. -/
theorem storePieces_of_room {size : Nat} (pieces : List (List UInt8)) {buffer : List UInt8}
    (room : size ≤ buffer.length) :
    storePieces size pieces buffer =
      ⟨if pieces.flatten.length ≤ size then .ok size else .error .noRoom,
        pieces.flatten.take size ++ buffer.drop (min pieces.flatten.length size)⟩ := by
  have window : (buffer.take size).length = size := by
    rw [List.length_take, Nat.min_eq_left room]
  have run := Cursor.foldlM_write pieces [] (buffer.take size)
  rw [List.nil_append, List.length_nil, window] at run
  rw [storePieces, if_neg (Nat.not_lt.mpr room), run]
  by_cases enough : pieces.flatten.length ≤ size
  · have behind : (buffer.take size).drop pieces.flatten.length ++ buffer.drop size =
        buffer.drop pieces.flatten.length := by
      have split := List.take_append_drop (size - pieces.flatten.length)
        (buffer.drop pieces.flatten.length)
      rwa [List.drop_drop, Nat.add_sub_cancel' enough, ← List.drop_take] at split
    rw [if_pos enough, if_pos enough, Nat.min_eq_left enough, List.take_of_length_le enough]
    dsimp only
    rw [List.nil_append, List.append_assoc, behind]
  · rw [if_neg enough, if_neg enough, Nat.min_eq_right (Nat.le_of_not_le enough)]
    rfl

/-- With the size of the joined pieces, writing the pieces is storing the object at once. -/
theorem storePieces_of_size {size : Nat} {pieces : List (List UInt8)}
    (sized : pieces.flatten.length = size) (buffer : List UInt8) :
    storePieces size pieces buffer =
      Effect.ofStored buffer (storeObject size pieces.flatten buffer) := by
  rw [storeObject]
  split
  next few => exact if_pos few
  next enough =>
    rw [storePieces_of_room pieces (Nat.le_of_not_lt enough), if_pos (Nat.le_of_eq sized),
      List.take_of_length_le (Nat.le_of_eq sized), sized, Nat.min_self]
    rfl

example : storePieces 2 [[1, 2], [3]] [9, 9, 9, 9] = ⟨.error .noRoom, [1, 2, 9, 9]⟩ :=
  rfl

/-! ## Whole objects -/

/-- Whether an object of a kind is stored whole or not at all: over the front of every buffer that
has room for it, with nothing of any other buffer changed, and so that a fresh buffer of its size
holds it, whether the answer is looked at or not.  Writing piece by piece has the effect of the
store. -/
structure StoresWhole (kind : Kind) (size : Nat) (object : List UInt8)
    (store : List UInt8 → Except Failure Stored) (stepwise : List UInt8 → Effect) : Prop where
  effect : ∀ buffer, stepwise buffer = Effect.ofStored buffer (store buffer)
  answer : ∀ buffer written,
    (stepwise buffer).answer = .ok written ↔ size ≤ buffer.length ∧ written = size
  accepted : ∀ buffer, size ≤ buffer.length →
    (stepwise buffer).buffer = object ++ buffer.drop size
  refused : ∀ buffer, buffer.length < size →
    stepwise buffer = ⟨.error (.failed (.bufferTooSmall size buffer.length)), buffer⟩
  length : object.length = size
  header : header kind <+: object
  fresh : stepwise (List.replicate size 0) = ⟨.ok size, object⟩

/-- With the size of the joined pieces a store is all or nothing. -/
theorem storesWhole_of_size {kind : Kind} {size : Nat} {pieces : List (List UInt8)}
    (sized : pieces.flatten.length = size) (headed : header kind <+: pieces.flatten) :
    StoresWhole kind size pieces.flatten (storeObject size pieces.flatten)
      (storePieces size pieces) := by
  have accepted : ∀ buffer, size ≤ buffer.length →
      storePieces size pieces buffer = ⟨.ok size, pieces.flatten ++ buffer.drop size⟩ := by
    intro buffer room
    rw [storePieces_of_size sized, storeObject, if_neg (Nat.not_lt.mpr room), Effect.ofStored]
  have refused : ∀ buffer, buffer.length < size → storePieces size pieces buffer =
      ⟨.error (.failed (.bufferTooSmall size buffer.length)), buffer⟩ :=
    fun _ few => if_pos few
  refine ⟨storePieces_of_size sized, fun buffer written => ?_, fun buffer room => ?_, refused,
    sized, headed, ?_⟩
  · by_cases room : size ≤ buffer.length
    · rw [accepted buffer room]
      simp only [Except.ok.injEq, room, true_and, eq_comm]
    · rw [refused buffer (Nat.lt_of_not_le room)]
      simp only [reduceCtorEq, room, false_and]
  · rw [accepted buffer room]
  · rw [accepted _ (Nat.le_of_eq List.length_replicate.symm), List.drop_replicate, Nat.sub_self,
      List.replicate_zero, List.append_nil]

/-- The pieces in which an object is written: the parts of its header, its fields, and its words. -/
def objectPieces (kind : Kind) (fields : List (List UInt8)) (words : List UInt64) :
    List (List UInt8) :=
  [magic, [version], [kind.byte], [0], [0]] ++ fields ++ words.map Bytes.ofWord64

theorem flatten_objectPieces (kind : Kind) (fields : List (List UInt8)) (words : List UInt64) :
    (objectPieces kind fields words).flatten =
      Wire.header kind ++ fields.flatten ++ wordBytes words := by
  rw [objectPieces, List.flatten_append, List.flatten_append, wordBytes, List.flatMap_def]
  rfl

/-- An object whose fields have the length of its kind is stored whole. -/
theorem storesWhole_of_fields {kind : Kind} {fields : List (List UInt8)}
    (sized : fields.flatten.length = kind.fieldLength) (words : List UInt64) {object : List UInt8}
    (encoded : object = header kind ++ fields.flatten ++ wordBytes words) :
    StoresWhole kind (objectLength kind words.length) object
      (storeObject (objectLength kind words.length) object)
      (storePieces (objectLength kind words.length) (objectPieces kind fields words)) := by
  rw [← flatten_objectPieces] at encoded
  subst encoded
  refine storesWhole_of_size ?_ ?_
  · rw [flatten_objectPieces, List.length_append, List.length_append, length_header,
      length_wordBytes, sized, objectLength]
  · rw [flatten_objectPieces, List.append_assoc]
    exact List.prefix_append _ _

end RingLwe.Wire
