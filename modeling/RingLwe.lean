import RingLwe.Main
import RingLwe.Benchmark.Run
import RingLwe.Decoy
import RingLwe.Encryption
import RingLwe.Session
import RingLwe.Extraction
import RingLwe.Hint.Workspace
import RingLwe.Hint.Schedule
import RingLwe.Parameters.Document
import RingLwe.Proofs.Bytes
import RingLwe.Proofs.Word.Lwe
import RingLwe.Proofs.Layout
import RingLwe.Proofs.Modular.Classes
import RingLwe.Proofs.Modular.Ranges
import RingLwe.Proofs.Modular.Power
import RingLwe.Proofs.Modular.Basis
import RingLwe.Proofs.Modular.Remainders
import RingLwe.Proofs.Modular.Acceptance
import RingLwe.Proofs.Modular.Search
import RingLwe.Proofs.Modular.Search.Words
import RingLwe.Proofs.Modular.Search.Largest
import RingLwe.Proofs.Modular.Search.Enough
import RingLwe.Proofs.Modular.Primality
import RingLwe.Proofs.Modular.Inverse
import RingLwe.Proofs.Modular.Squaring
import RingLwe.Proofs.Modular.Signed
import RingLwe.Proofs.Transform.Montgomery
import RingLwe.Proofs.Transform.Reduction
import RingLwe.Proofs.Transform.Root
import RingLwe.Proofs.Transform.Negacyclic
import RingLwe.Proofs.Transform.Quotient
import RingLwe.Proofs.Transform.Twiddle
import RingLwe.Proofs.Transform.Reversal
import RingLwe.Proofs.Transform.Filling
import RingLwe.Proofs.Transform.Channel
import RingLwe.Proofs.Transform.Buffer
import RingLwe.Proofs.Transform.Accumulation
import RingLwe.Proofs.Transform.Stages
import RingLwe.Proofs.Transform.Overflow
import RingLwe.Proofs.Transform.LazySums
import RingLwe.Proofs.Transform.Evaluation
import RingLwe.Proofs.Transform.Inversion
import RingLwe.Proofs.Random
import RingLwe.Proofs.Random.Trials
import RingLwe.Proofs.Parameters
import RingLwe.Proofs.Context
import RingLwe.Proofs.Switching
import RingLwe.Proofs.Scaling
import RingLwe.Proofs.Context.Presets
import RingLwe.Proofs.Scaling.Exactness
import RingLwe.Proofs.Switching.Rounding
import RingLwe.Proofs.Context.Construction
import RingLwe.Proofs.ResiduePoly
import RingLwe.Proofs.ResiduePoly.Ring
import RingLwe.Proofs.PublicPoly
import RingLwe.Proofs.PublicPoly.InPlace
import RingLwe.Proofs.PublicPoly.Transposition
import RingLwe.Proofs.Wire
import RingLwe.Proofs.Wire.Positions
import RingLwe.Proofs.Wire.Storing
import RingLwe.Proofs.Wire.Formats
import RingLwe.Proofs.SecretKey
import RingLwe.Proofs.Ciphertext
import RingLwe.Proofs.Ciphertext.Truncation
import RingLwe.Proofs.Wire.Loading
import RingLwe.Proofs.Encryption
import RingLwe.Proofs.Session
import RingLwe.Proofs.Session.InPlace
import RingLwe.Proofs.Session.RoundTrip
import RingLwe.Proofs.Session.Storing
import RingLwe.Proofs.Encryption.Equation
import RingLwe.Proofs.Encryption.Decryption
import RingLwe.Proofs.Hint.Row
import RingLwe.Proofs.Hint.Workspace
import RingLwe.Proofs.Hint
import RingLwe.Proofs.Hint.Headroom
import RingLwe.Proofs.Hint.Shape
import RingLwe.Proofs.Hint.Schedule
import RingLwe.Proofs.Extraction
import RingLwe.Proofs.Extraction.SmallSecret
import RingLwe.Proofs.Extraction.Contexts
import RingLwe.Proofs.Session.Truncation
import RingLwe.Proofs.Decoy
import RingLwe.Proofs.Decoy.Requests
import RingLwe.Proofs.Decoding.Budget
import RingLwe.Proofs.Decoding.Samples
import RingLwe.Proofs.Decoding
import RingLwe.Proofs.Benchmark
