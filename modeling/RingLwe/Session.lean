import RingLwe.Encryption

/-!
# Sessions

A session holds the objects that a program has made under contexts that it was
given: secret keys, public polynomials, plaintexts, partial ciphertexts and
ciphertexts, each kind in the order in which they were made.  Operations name
contexts and objects by their numbers, and bring the streams from which they
draw, so a sequence of operations determines the session.

Most operations make an object.  Reloading a key, transposing a public
polynomial, setting a plaintext and truncating a ciphertext replace the object
that they are applied to.  An operation that is refused leaves the session as
it was.
-/

set_option autoImplicit false

namespace RingLwe

/-- The objects that a program holds. -/
structure Session where
  keys : List SecretKey
  publics : List PublicPoly
  plaintexts : List Plaintext
  parts : List PartialCiphertext
  ciphertexts : List Ciphertext

namespace Session

/-- The session in which nothing has been made. -/
def empty : Session :=
  ⟨[], [], [], [], []⟩

/-- The operations on the objects of a session. -/
inductive Operation where
  | generateKey (context : Nat) (stream : Stream)
  | loadKey (context : Nat) (bytes : List UInt8)
  | reloadKey (key : Nat) (bytes : List UInt8)
  | derivePublic (context : Nat) (seed : Seed)
  | transposePublic (a : Nat)
  | newPlaintext (context : Nat)
  | setPlaintext (plaintext : Nat) (values : List UInt64)
  | preprocess (key a : Nat) (stream : Stream)
  | finalize (key plaintext part : Nat)
  | encryptPreprocessed (key : Nat) (values : List UInt64) (part : Nat)
  | encrypt (key plaintext a : Nat) (stream : Stream)
  | loadCiphertext (context : Nat) (bytes : List UInt8)
  | loadData (context : Nat) (bytes : List UInt8)
  | truncate (ciphertext count : Nat)

/-- Why an operation is refused. -/
inductive Refusal where
  /-- No object has the given number. -/
  | missing
  | failed (failure : Failure)

/-- The object of the given number. -/
def find {α : Type} (objects : List α) (number : Nat) : Except Refusal α :=
  match objects[number]? with
  | some object => .ok object
  | none => .error .missing

/-- The result of an operation on objects that exist. -/
def attempt {α : Type} : Except Failure α → Except Refusal α
  | .ok result => .ok result
  | .error failure => .error (.failed failure)

/-- The session after an operation under the given contexts. -/
def step (contexts : List Context) (session : Session) : Operation → Except Refusal Session
  | .generateKey context stream => do
    let context ← find contexts context
    let key := ((SecretKey.generate context).run stream).1
    return { session with keys := session.keys ++ [key] }
  | .loadKey context bytes => do
    let context ← find contexts context
    let key ← attempt (SecretKey.load context bytes)
    return { session with keys := session.keys ++ [key] }
  | .reloadKey number bytes => do
    let key ← find session.keys number
    let fresh ← attempt (key.reload bytes)
    return { session with keys := session.keys.set number fresh }
  | .derivePublic context seed => do
    let context ← find contexts context
    return { session with publics := session.publics ++ [PublicPoly.derive context seed] }
  | .transposePublic number => do
    let a ← find session.publics number
    return { session with publics := session.publics.set number a.transpose }
  | .newPlaintext context => do
    let context ← find contexts context
    return { session with plaintexts := session.plaintexts ++ [Plaintext.empty context] }
  | .setPlaintext number values => do
    let plaintext ← find session.plaintexts number
    let fresh ← attempt (plaintext.set values)
    return { session with plaintexts := session.plaintexts.set number fresh }
  | .preprocess key a stream => do
    let key ← find session.keys key
    let a ← find session.publics a
    let draw ← attempt (key.preprocess a)
    return { session with parts := session.parts ++ [(draw.run stream).1] }
  | .finalize key plaintext part => do
    let key ← find session.keys key
    let plaintext ← find session.plaintexts plaintext
    let part ← find session.parts part
    let ciphertext ← attempt (key.finalize plaintext part)
    return { session with ciphertexts := session.ciphertexts ++ [ciphertext] }
  | .encryptPreprocessed key values part => do
    let key ← find session.keys key
    let part ← find session.parts part
    let ciphertext ← attempt (key.encryptPreprocessed values part)
    return { session with ciphertexts := session.ciphertexts ++ [ciphertext] }
  | .encrypt key plaintext a stream => do
    let key ← find session.keys key
    let plaintext ← find session.plaintexts plaintext
    let a ← find session.publics a
    let draw ← attempt (key.encrypt plaintext a)
    let ciphertext ← attempt (draw.run stream).1
    return { session with ciphertexts := session.ciphertexts ++ [ciphertext] }
  | .loadCiphertext context bytes => do
    let context ← find contexts context
    let ciphertext ← attempt (Ciphertext.load context bytes)
    return { session with ciphertexts := session.ciphertexts ++ [ciphertext] }
  | .loadData context bytes => do
    let context ← find contexts context
    let ciphertext ← attempt (Ciphertext.loadData context bytes)
    return { session with ciphertexts := session.ciphertexts ++ [ciphertext] }
  | .truncate number count => do
    let ciphertext ← find session.ciphertexts number
    let shorter ← attempt (ciphertext.truncate count)
    return { session with ciphertexts := session.ciphertexts.set number shorter }

/-- The session after an operation that may have been refused. -/
def perform (contexts : List Context) (session : Session) (operation : Operation) : Session :=
  match step contexts session operation with
  | .ok next => next
  | .error _ => session

/-- The session that a sequence of operations reaches. -/
def reached (contexts : List Context) (operations : List Operation) : Session :=
  operations.foldl (perform contexts) empty

end Session

end RingLwe
