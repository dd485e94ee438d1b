/-!
# The component-major layout

A polynomial with residues for several primes is stored as one list: first
all residues modulo the first prime, then all residues modulo the second, and
so on.  `components` cuts such a list into the runs of its primes; joining the
runs gives the list back (`flatten_components`), and cutting joined runs gives
the runs back (`components_flatten`).

`columns` reads the runs the other way: the residues of each coefficient.
-/

set_option autoImplicit false

namespace RingLwe

variable {α : Type}

/-- The first `count` runs of `length` items each. -/
def components (length : Nat) : (count : Nat) → List α → List (List α)
  | 0, _ => []
  | count + 1, items => items.take length :: components length count (items.drop length)

/-- The items at each of the first `length` positions of the given rows. -/
def columns (length : Nat) (rows : List (List α)) : List (List α) :=
  rows.foldr (List.zipWith List.cons) (List.replicate length [])

@[simp]
theorem length_components (length count : Nat) (items : List α) :
    (components length count items).length = count := by
  induction count generalizing items with
  | zero => rfl
  | succ count ih => simp only [components, List.length_cons, ih]

/-- Joining the runs of a list of the right length gives the list back. -/
theorem flatten_components (length count : Nat) (items : List α)
    (full : items.length = length * count) :
    (components length count items).flatten = items := by
  induction count generalizing items with
  | zero => exact (List.length_eq_zero_iff.mp full).symm
  | succ count ih =>
    have rest : (items.drop length).length = length * count := by
      rw [List.length_drop, full, Nat.mul_succ]
      omega
    rw [components, List.flatten_cons, ih _ rest, List.take_append_drop]

/-- Cutting joined runs of one length gives the runs back. -/
theorem components_flatten (length : Nat) (runs : List (List α))
    (even : ∀ run ∈ runs, run.length = length) :
    components length runs.length runs.flatten = runs := by
  induction runs with
  | nil => rfl
  | cons run runs ih =>
    have first : run.length = length := even run (List.mem_cons_self ..)
    have others : ∀ other ∈ runs, other.length = length :=
      fun other member => even other (List.mem_cons_of_mem _ member)
    rw [List.length_cons, components, List.flatten_cons, ← first, List.take_left, List.drop_left,
      first, ih others]

/-- Every run of a list of the right length has that length. -/
theorem length_of_mem_components {length count : Nat} {items : List α}
    (full : items.length = length * count) {run : List α}
    (member : run ∈ components length count items) : run.length = length := by
  induction count generalizing items with
  | zero => cases member
  | succ count ih =>
    have rest : (items.drop length).length = length * count := by
      rw [List.length_drop, full, Nat.mul_succ]
      omega
    rcases List.mem_cons.mp member with rfl | later
    · rw [List.length_take, full, Nat.mul_succ]
      omega
    · exact ih rest later

end RingLwe
