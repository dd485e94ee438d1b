import RingLwe.Proofs.Ciphertext.Truncation
import RingLwe.Proofs.PublicPoly.InPlace
import RingLwe.Proofs.Session

/-!
# Methods that work in place

Reloading a key, setting a plaintext, transposing a public polynomial and
truncating a ciphertext as methods on one object, which they change step by step
(`Method`).  A method that fails leaves the object as it is at that point.  A
position that does not exist stops a method without any answer.

On the objects of a session every method answers, and leaves what the operation
on the object gives; where it fails, it has not changed anything yet (`Settles`).
So a session whose operations leave behind whatever their methods leave goes the
same way as a session whose operations are refused as a whole
(`performInPlace?_eq`), from the first operation on (`reachedInPlace?_eq`).

The objects of every session that operations reach are well formed, and a failing
call leaves the session as it is (`objects_of_reached`).
-/

set_option autoImplicit false

namespace RingLwe

/-! ## Methods -/

/-- A method that changes an object in place.  Where it fails it leaves the object behind. -/
abbrev Method (σ α : Type) : Type :=
  ExceptT Failure (StateT σ Option) α

/-- The answer to an operation and what it leaves: its result, or what there was before. -/
def leave {ε σ : Type} (before : σ) : Except ε σ → Except ε Unit × σ
  | .ok result => (.ok (), result)
  | .error fault => (.error fault, before)

namespace Method

variable {σ α β : Type}

/-- What a method answers for an object, and the object that it leaves, unless a position does not
exist. -/
def call (method : Method σ α) (object : σ) : Option (Except Failure α × σ) :=
  method.run.run object

/-- Whether a method leaves for an object what an operation gives, and the object itself where the
operation fails. -/
def Settles (method : Method σ Unit) (object : σ) (outcome : Except Failure σ) : Prop :=
  method.call object = some (leave object outcome)

section Call

variable (object : σ) (next : α → Method σ β)

theorem call_get (next : σ → Method σ β) : call (get >>= next) object = (next object).call object :=
  rfl

theorem call_bind (method : Method σ α) (next : α → Method σ β) :
    call (method >>= next) object = (method.call object).bind fun
      | (.ok value, left) => (next value).call left
      | (.error failure, left) => some (.error failure, left) := by
  change (method.call object).bind _ = _
  refine congrArg _ (funext fun answer => ?_)
  rcases answer with ⟨_ | _, _⟩ <;> rfl

theorem call_outcome (outcome : Except Failure α) :
    call (liftExcept outcome >>= next) object =
      match outcome with
      | .ok value => (next value).call object
      | .error failure => some (.error failure, object) := by
  cases outcome <;> rfl

theorem call_position (found : Option α) :
    call (liftM found >>= next) object = found.bind fun value => (next value).call object := by
  cases found <;> rfl

end Call

end Method

namespace SecretKey

/-- Reloads a key in place: what is read replaces the key once it has been read as a whole. -/
def reloadInPlace (bytes : List UInt8) : Method SecretKey Unit := do
  let key ← get
  let fresh ← liftExcept (SecretKey.load key.context bytes)
  set fresh

theorem settles_reload (key : SecretKey) (bytes : List UInt8) :
    (reloadInPlace bytes).Settles key (key.reload bytes) := by
  unfold Method.Settles reloadInPlace
  rw [Method.call_get, Method.call_outcome, reload]
  cases SecretKey.load key.context bytes <;> rfl

end SecretKey

namespace Plaintext

/-- The value of a slot: the one that is given for it, reduced, or zero behind the given ones. -/
def slotValue? (p : UInt64) (values : List UInt64) (slot : Nat) : Option UInt64 :=
  if slot < values.length then values[slot]?.map (· % p) else some 0

/-- Writes the value of a slot. -/
def writeSlot (values : List UInt64) (slot : Nat) : Method Plaintext Unit := do
  let plaintext ← get
  let value ← liftM (slotValue? plaintext.context.plaintextModulus values slot)
  modify fun plaintext => { plaintext with values := plaintext.values.set slot value }

/-- Sets a plaintext in place, slot by slot. -/
def setInPlace (values : List UInt64) : Method Plaintext Unit := do
  let plaintext ← get
  if plaintext.context.dimension < values.length then
    throw (.plaintextTooLong values.length plaintext.context.dimension)
  else do
    forM (List.range plaintext.values.length) (writeSlot values)
    modify fun plaintext => { plaintext with length := values.length }

theorem slotValue?_eq (context : Context) {values : List UInt64} {slot : Nat}
    (inside : slot < context.dimension) :
    slotValue? context.plaintextModulus values slot =
      (padded context values)[slot]? := by
  rw [slotValue?, padded]
  split
  next given => rw [List.getElem?_append_left (by simpa using given), List.getElem?_map]
  next beyond =>
    rw [List.getElem?_append_right (by simpa using beyond), List.getElem?_replicate,
      if_pos (by rw [List.length_map]; omega)]

theorem call_writeSlot (context : Context) (values front rest : List UInt64) {value old : UInt64}
    (length : Nat) (known : slotValue? context.plaintextModulus values front.length = some value) :
    (writeSlot values front.length).call ⟨context, front ++ old :: rest, length⟩ =
      some (.ok (), ⟨context, front ++ value :: rest, length⟩) := by
  have written : (front ++ old :: rest).set front.length value = front ++ value :: rest := by simp
  rw [writeSlot, Method.call_get, Method.call_position, known, ← written]
  rfl

/-- Writing the slots behind some front replaces what is behind it by the padded values. -/
theorem call_writeSlots {context : Context} {values : List UInt64}
    (fits : values.length ≤ context.dimension) (length : Nat) (front : List UInt64)
    {rest : List UInt64} (full : front.length + rest.length = context.dimension) :
    Method.call (forM (List.range' front.length rest.length) (writeSlot values))
        ⟨context, front ++ rest, length⟩ =
      some (.ok (), ⟨context, front ++ (padded context values).drop front.length, length⟩) := by
  have many : (padded context values).length = context.dimension := SecretKey.length_padded fits
  induction rest generalizing front with
  | nil =>
    rw [List.drop_eq_nil_of_le (by rw [many, ← full]; exact Nat.le_refl _)]
    rfl
  | cons old rest ih =>
    rw [List.length_cons] at full
    have inside : front.length < (padded context values).length := by omega
    have known := @slotValue?_eq context values _ (many ▸ inside)
    rw [List.getElem?_eq_getElem inside] at known
    have later := ih (front ++ [(padded context values)[front.length]])
      (by rw [List.length_append, List.length_singleton]; omega)
    rw [List.length_append, List.length_singleton, List.append_assoc, List.append_assoc] at later
    rw [List.length_cons, List.range'_succ, List.forM_cons, Method.call_bind,
      call_writeSlot context values front rest length known, Option.bind_some,
      List.drop_eq_getElem_cons inside]
    exact later

theorem settles_set {plaintext : Plaintext} (wellFormed : plaintext.WellFormed)
    (values : List UInt64) :
    (setInPlace values).Settles plaintext (plaintext.set values) := by
  obtain ⟨context, old, length⟩ := plaintext
  have full : old.length = context.dimension := wellFormed.length
  unfold Method.Settles setInPlace
  rw [Method.call_get, Plaintext.set, ofValues]
  by_cases long : context.dimension < values.length
  · rw [if_pos long, if_pos long]
    rfl
  · rw [if_neg long, if_neg long]
    have front : ([] : List UInt64).length + old.length = context.dimension := by
      rw [List.length_nil, Nat.zero_add, full]
    have written := call_writeSlots (Nat.le_of_not_lt long) length [] front
    rw [List.length_nil, List.nil_append, List.drop_zero, List.nil_append] at written
    rw [Method.call_bind, List.range_eq_range', written]
    rfl

end Plaintext

namespace PublicPoly

/-- Transposes a public polynomial in place. -/
def transposeMethod : Method PublicPoly Unit := do
  let a ← get
  let transposed ← liftM a.transposeInPlace?
  set transposed

theorem settles_transpose {a : PublicPoly} (lawful : a.context.Lawful)
    (belongs : a.poly.Belongs a.context .transformed) :
    transposeMethod.Settles a (.ok a.transpose) := by
  unfold Method.Settles transposeMethod
  rw [Method.call_get, Method.call_position, transposeInPlace?_eq lawful rfl belongs]
  rfl

end PublicPoly

namespace Ciphertext

/-- Truncates a ciphertext in place: moves the kept parts of its runs to the front, cuts the rest off,
and then changes the number of coefficients. -/
def truncateMethod (kept : Nat) : Method Ciphertext Unit := do
  let ciphertext ← get
  if ciphertext.count < kept then
    throw (.truncationOutOfRange kept ciphertext.count)
  else if kept = ciphertext.count then
    return
  else do
    let primes := ciphertext.context.primeCount
    let moved ← liftM (moveRuns? ciphertext.count kept primes ciphertext.residues)
    modify fun ciphertext => { ciphertext with residues := moved }
    modify fun ciphertext =>
      { ciphertext with residues := ciphertext.residues.take (kept * primes) }
    modify fun ciphertext => { ciphertext with count := kept }

theorem settles_truncate {ciphertext : Ciphertext} (belongs : ciphertext.Belongs ciphertext.context)
    (kept : Nat) : (truncateMethod kept).Settles ciphertext (ciphertext.truncate kept) := by
  have inPlace := truncateInPlace?_eq belongs kept
  unfold Method.Settles truncateMethod
  rw [Method.call_get]
  rw [truncateInPlace?] at inPlace
  by_cases few : ciphertext.count < kept
  · rw [if_pos few, Option.some.injEq] at inPlace
    rw [if_pos few, ← inPlace]
    rfl
  · rw [if_neg few] at inPlace ⊢
    by_cases whole : kept = ciphertext.count
    · rw [if_pos whole, Option.some.injEq] at inPlace
      rw [if_pos whole, ← inPlace]
      rfl
    · rw [if_neg whole] at inPlace ⊢
      obtain ⟨moved, moves, result⟩ := Option.bind_eq_some_iff.mp inPlace
      rw [Option.pure_def, Option.some.injEq] at result
      rw [Method.call_position, moves, ← result]
      rfl

end Ciphertext

/-! ## Sessions -/

namespace Session

/-- Calls a method on the object of the given number, and puts the object that the method leaves back
into the session. -/
def callOn? {α : Type} (objects : List α) (number : Nat) (method : Method α Unit)
    (put : List α → Session) : Option (Except Refusal Unit × Session) :=
  match objects[number]? with
  | none => some (.error .missing, put objects)
  | some object => do
    let (answer, left) ← method.call object
    some (attempt answer, put (objects.set number left))

/-- The answer to an operation whose method works in place, and the session that is left.  The other
operations make an object or nothing. -/
def performInPlace? (contexts : List Context) (session : Session) :
    Operation → Option (Except Refusal Unit × Session)
  | .reloadKey number bytes =>
    callOn? session.keys number (SecretKey.reloadInPlace bytes)
      fun keys => { session with keys := keys }
  | .transposePublic number =>
    callOn? session.publics number PublicPoly.transposeMethod
      fun publics => { session with publics := publics }
  | .setPlaintext number values =>
    callOn? session.plaintexts number (Plaintext.setInPlace values)
      fun plaintexts => { session with plaintexts := plaintexts }
  | .truncate number count =>
    callOn? session.ciphertexts number (Ciphertext.truncateMethod count)
      fun ciphertexts => { session with ciphertexts := ciphertexts }
  | operation => some (leave session (step contexts session operation))

/-- The session that a sequence of operations leaves whose methods work in place. -/
def reachedInPlace? (contexts : List Context) (operations : List Operation) : Option Session :=
  operations.foldlM
    (fun session operation => (performInPlace? contexts session operation).map Prod.snd) empty

/-- A method that settles replaces its object, or leaves everything as it was. -/
theorem callOn?_eq {α : Type} {objects : List α} {number : Nat} {method : Method α Unit}
    {operation : α → Except Failure α} (put : List α → Session)
    (settles : ∀ object ∈ objects, method.Settles object (operation object)) :
    callOn? objects number method put =
      some (leave (put objects) (find objects number >>= fun object =>
        attempt (operation object) >>= fun fresh => .ok (put (objects.set number fresh)))) := by
  unfold callOn? find
  cases present : objects[number]? with
  | none => rfl
  | some object =>
    have called := settles object (List.mem_of_getElem? present)
    unfold Method.Settles at called
    change (method.call object).bind _ = some (leave (put objects)
      (attempt (operation object) >>= fun fresh => .ok (put (objects.set number fresh))))
    rw [called]
    cases operation object with
    | ok fresh => rfl
    | error failure =>
      change some (_, put (objects.set number object)) = _
      rw [set_of_present present]
      rfl

section Runs

variable {contexts : List Context} (lawful : ∀ context ∈ contexts, context.Lawful)
include lawful

/-- On the objects of a session the methods in place leave what the operations give. -/
theorem performInPlace?_eq {session : Session} (wellFormed : session.WellFormed contexts)
    (operation : Operation) :
    performInPlace? contexts session operation =
      some (leave session (step contexts session operation)) := by
  cases operation with
  | reloadKey number bytes =>
    exact callOn?_eq (fun keys => { session with keys := keys }) fun key _ =>
      SecretKey.settles_reload key bytes
  | transposePublic number =>
    have settles : ∀ a ∈ session.publics,
        PublicPoly.transposeMethod.Settles a (.ok a.transpose) := by
      intro a member
      obtain ⟨own, belongs⟩ := wellFormed.publics a member
      exact PublicPoly.settles_transpose (lawful _ own) belongs
    exact callOn?_eq (fun publics => { session with publics := publics }) settles
  | setPlaintext number values =>
    exact callOn?_eq (fun plaintexts => { session with plaintexts := plaintexts })
      fun plaintext member =>
        Plaintext.settles_set (wellFormed.plaintexts plaintext member).2 values
  | truncate number count =>
    exact callOn?_eq (fun ciphertexts => { session with ciphertexts := ciphertexts })
      fun ciphertext member =>
        Ciphertext.settles_truncate (wellFormed.ciphertexts ciphertext member).2 count
  | _ => rfl

omit lawful in
theorem leave_step (session : Session) (operation : Operation) :
    (leave session (step contexts session operation)).2 = perform contexts session operation := by
  rw [perform]
  cases step contexts session operation <;> rfl

/-- Methods in place reach the sessions that the operations reach. -/
theorem reachedInPlace?_eq (distinguished : Context.Distinguished contexts)
    (operations : List Operation) :
    reachedInPlace? contexts operations = some (reached contexts operations) := by
  induction operations using List.reverseRecOn with
  | nil => rfl
  | append_singleton operations operation ih =>
    have wellFormed := wellFormed_reached lawful distinguished operations
    rw [reachedInPlace?] at ih
    rw [reachedInPlace?, List.foldlM_append, ih]
    change ((performInPlace? contexts (reached contexts operations) operation).map Prod.snd).bind
      some = _
    rw [performInPlace?_eq lawful wellFormed, Option.map_some, Option.bind_some, leave_step, reached,
      reached, List.foldl_append]
    rfl

end Runs

/-- The objects of every session that operations reach under contexts that were built are well
formed.  Methods in place reach the same session, and a call that fails leaves it as it is. -/
theorem objects_of_reached {contexts : List Context}
    (built : ∀ context ∈ contexts, ∃ parameters, Context.ofParameters parameters = .ok context)
    (distinguished : Context.Distinguished contexts) (operations : List Operation) :
    (reached contexts operations).WellFormed contexts ∧
      reachedInPlace? contexts operations = some (reached contexts operations) ∧
      ∀ operation refusal, step contexts (reached contexts operations) operation = .error refusal →
        reached contexts (operations ++ [operation]) = reached contexts operations ∧
          performInPlace? contexts (reached contexts operations) operation =
            some (.error refusal, reached contexts operations) := by
  have lawful := lawful_of_built built
  have wellFormed := wellFormed_reached lawful distinguished operations
  refine ⟨wellFormed, reachedInPlace?_eq lawful distinguished operations, ?_⟩
  intro operation refusal refused
  constructor
  · rw [reached, List.foldl_append]
    change perform contexts (reached contexts operations) operation = _
    rw [perform, refused]
  · rw [performInPlace?_eq lawful wellFormed, refused]
    rfl

/-- A session of the preset of 64 bits holds an object of every kind.  They are well formed, and stay
when the key is reloaded from no bytes. -/
theorem objects_of_reached_preset : ∃ context key a plaintext part ciphertext,
    Context.ofParameters (Parameters.preset .bits64) = .ok context ∧
      reached [context] [.generateKey 0 (Stream.ofSeed 1), .derivePublic 0 (Vector.replicate 8 0),
          .newPlaintext 0, .setPlaintext 0 [40000, 7], .preprocess 0 0 (Stream.ofSeed 2),
          .encryptPreprocessed 0 [5, 6, 7] 0] =
        ⟨[key], [a], [plaintext], [part], [ciphertext]⟩ ∧
      plaintext.length = 2 ∧ ciphertext.count = 3 ∧
      WellFormed [context] ⟨[key], [a], [plaintext], [part], [ciphertext]⟩ ∧
      reached [context] [.generateKey 0 (Stream.ofSeed 1), .derivePublic 0 (Vector.replicate 8 0),
          .newPlaintext 0, .setPlaintext 0 [40000, 7], .preprocess 0 0 (Stream.ofSeed 2),
          .encryptPreprocessed 0 [5, 6, 7] 0, .reloadKey 0 []] =
        ⟨[key], [a], [plaintext], [part], [ciphertext]⟩ ∧
      performInPlace? [context] ⟨[key], [a], [plaintext], [part], [ciphertext]⟩ (.reloadKey 0 []) =
        some (.error (.failed (.undecodable (.shorterThanHeader 0))),
          ⟨[key], [a], [plaintext], [part], [ciphertext]⟩) := by
  obtain ⟨context, built⟩ := Context.exists_preset .bits64
  obtain ⟨wellFormed, _, unchanged⟩ := objects_of_reached
    (List.forall_mem_singleton.mpr ⟨_, built⟩) (Context.distinguished_singleton context)
    [.generateKey 0 (Stream.ofSeed 1), .derivePublic 0 (Vector.replicate 8 0), .newPlaintext 0,
      .setPlaintext 0 [40000, 7], .preprocess 0 0 (Stream.ofSeed 2),
      .encryptPreprocessed 0 [5, 6, 7] 0]
  have lawful := Context.lawful_of_ofParameters built
  have dimension := (Context.wide_preset_spec built).1
  have belongs := (SecretKey.Reachable.generated (Stream.ofSeed 1)).belongs lawful
  have fits : ([5, 6, 7] : List UInt64).length ≤ context.dimension := by
    rw [dimension]
    decide
  have given : Plaintext.ofValues context [40000, 7] =
      .ok ⟨context, Plaintext.padded context [40000, 7], 2⟩ :=
    if_neg (by rw [dimension]; decide)
  have replaced : perform [context]
      (reached [context] [.generateKey 0 (Stream.ofSeed 1), .derivePublic 0 (Vector.replicate 8 0),
        .newPlaintext 0]) (.setPlaintext 0 [40000, 7]) =
      ⟨[((SecretKey.generate context).run (Stream.ofSeed 1)).1],
        [PublicPoly.derive context (Vector.replicate 8 0)],
        [⟨context, Plaintext.padded context [40000, 7], 2⟩], [], []⟩ := by
    refine perform_eq_of_step ?_
    change attempt (Plaintext.ofValues context [40000, 7]) >>= _ = _
    rw [given]
    rfl
  obtain ⟨part, ciphertext, held, _, counted⟩ := exists_encrypted lawful belongs
    (Vector.replicate 8 0) [⟨context, Plaintext.padded context [40000, 7], 2⟩] (Stream.ofSeed 2) fits
  have whole := (congrArg (List.foldl (perform [context]) · [.preprocess 0 0 (Stream.ofSeed 2),
    .encryptPreprocessed 0 [5, 6, 7] 0]) replaced).trans held
  obtain ⟨stays, left⟩ := unchanged (.reloadKey 0 []) (.failed (.undecodable (.shorterThanHeader 0)))
    ((congrArg (step [context] · (.reloadKey 0 [])) whole).trans rfl)
  exact ⟨context, _, _, _, part, ciphertext, built, whole, rfl, counted, whole ▸ wellFormed,
    stays.trans whole, whole ▸ left⟩

end Session

end RingLwe
