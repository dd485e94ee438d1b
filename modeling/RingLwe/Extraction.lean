import RingLwe.Ciphertext
import RingLwe.SecretKey
import RingLwe.Switching

/-!
# Extraction of learning-with-errors samples

The coefficients of a written ciphertext switch to words of the hybrid modulus,
and a secret key is read as words of small integers.  Both ask for a context
with switching tables of the width.
-/

set_option autoImplicit false

namespace RingLwe.Extraction

/-- The secret of a key as words, in a context of the same fingerprint. -/
def key (context : Context) (secret : SecretKey) (width : Width) :
    Except Failure (List (LweWord width)) := do
  let _ ← context.switchTables width
  context.checkFingerprint secret.context.fingerprint
  secret.extract width

/-- The first `samples` coefficients of written ciphertext data as words. -/
def ciphertext (context : Context) (bytes : List UInt8) (samples : Nat) (width : Width) :
    Except Failure (List (LweWord width)) := do
  let _ ← context.switchTables width
  let loaded ← Ciphertext.loadData context bytes
  if loaded.count < samples then
    .error (.dimensionMismatch loaded.count samples)
  else
    Switching.switch context width loaded.residues loaded.count samples

end RingLwe.Extraction
