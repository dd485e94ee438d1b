import Mathlib
import RingLwe.Components

/-!
# Positions in the component-major layout

The runs and the columns of a component-major list by position.  Run `j` of
runs of length `n` holds the items from position `j · n` on
(`components_eq_map`), so item `i` of run `j` is the item at `j · n + i`
(`getD_run`), and column `i` collects these items (`columns_eq_map`,
`columns_components`).  A list is determined by its runs (`eq_of_run_eq`).

Of the rows only the items in front count for the columns in front
(`columns_of_le`, `columns_map_take`).

Two items of a list are replaced in place where both positions exist
(`replacePair?_eq`).
-/

set_option autoImplicit false

namespace RingLwe

variable {α β γ : Type}

/-! ## Runs -/

/-- The run of the given number. -/
def run (length : Nat) (items : List α) (index : Nat) : List α :=
  (items.drop (index * length)).take length

theorem run_zero (length : Nat) (items : List α) : run length items 0 = items.take length := by
  rw [run, Nat.zero_mul, List.drop_zero]

theorem run_succ (length : Nat) (items : List α) (index : Nat) :
    run length items (index + 1) = run length (items.drop length) index := by
  rw [run, run, List.drop_drop, Nat.succ_mul, Nat.add_comm]

/-- The runs of a list are its segments at the multiples of their length. -/
theorem components_eq_map (length count : Nat) (items : List α) :
    components length count items = (List.range count).map (run length items) := by
  induction count generalizing items with
  | zero => rfl
  | succ count ih =>
    rw [components, ih, List.range_succ_eq_map, List.map_cons, List.map_map, run_zero]
    refine congrArg _ (List.map_congr_left fun index _ => ?_)
    exact (run_succ length items index).symm

theorem getElem?_components (length : Nat) {count : Nat} (items : List α) {index : Nat}
    (present : index < count) :
    (components length count items)[index]? = some (run length items index) := by
  rw [components_eq_map, List.getElem?_map, List.getElem?_range present, Option.map_some]

theorem getElem?_zip_components (length : Nat) {count : Nat} (left : List α) (right : List β)
    {index : Nat} (present : index < count) :
    ((components length count left).zip (components length count right))[index]? =
      some (run length left index, run length right index) :=
  List.getElem?_zip_eq_some.mpr
    ⟨getElem?_components length left present, getElem?_components length right present⟩

theorem length_run {length count : Nat} {items : List α} (full : items.length = length * count)
    {index : Nat} (present : index < count) : (run length items index).length = length :=
  length_of_mem_components full (List.mem_of_getElem? (getElem?_components length items present))

theorem getD_run {length position : Nat} (items : List α) (index : Nat)
    (inside : position < length) (default : α) :
    (run length items index).getD position default =
      items.getD (index * length + position) default := by
  simp only [run, List.getD_eq_getElem?_getD, List.getElem?_take_of_lt inside, List.getElem?_drop]

/-- A list of the right length has an item at every position of every run. -/
theorem getElem?_eq_some_getD {length count : Nat} {items : List α}
    (full : items.length = length * count) {index position : Nat} (present : index < count)
    (inside : position < length) (default : α) :
    items[index * length + position]? = some (items.getD (index * length + position) default) := by
  have short : index * length + position < items.length := by
    have room := Nat.mul_le_mul_right length (Nat.succ_le_of_lt present)
    rw [Nat.succ_mul] at room
    rw [full, Nat.mul_comm length]
    omega
  rw [List.getD_eq_getElem _ _ short, List.getElem?_eq_getElem short]

/-- A list of the right length is determined by its runs. -/
theorem eq_of_run_eq {length count : Nat} {left right : List α}
    (leftFull : left.length = length * count) (rightFull : right.length = length * count)
    (same : ∀ index < count, run length left index = run length right index) : left = right := by
  rw [← flatten_components length count left leftFull,
    ← flatten_components length count right rightFull, components_eq_map, components_eq_map]
  congr 1
  exact List.map_congr_left fun index member => same index (List.mem_range.mp member)

theorem run_flatten {length : Nat} {runs : List (List α)}
    (even : ∀ run ∈ runs, run.length = length) {index : Nat} {found : List α}
    (present : runs[index]? = some found) : run length runs.flatten index = found := by
  obtain ⟨inside, _⟩ := List.getElem?_eq_some_iff.mp present
  have cut := getElem?_components length runs.flatten inside
  rw [components_flatten length runs even, present] at cut
  exact (Option.some.inj cut).symm

theorem run_replicate {length count : Nat} (item : α) {index : Nat} (present : index < count) :
    run length (List.replicate (length * count) item) index = List.replicate length item := by
  refine List.eq_replicate_iff.mpr ⟨length_run List.length_replicate present, ?_⟩
  intro other member
  exact List.eq_of_mem_replicate (List.mem_of_mem_drop (List.mem_of_mem_take member))

theorem length_flatten_of_even {length : Nat} (runs : List (List α))
    (even : ∀ run ∈ runs, run.length = length) : runs.flatten.length = length * runs.length := by
  rw [List.length_flatten, List.map_congr_left even, List.map_const', List.sum_replicate_nat,
    Nat.mul_comm]

section Joined

variable {length : Nat} {combine : β → γ → List α} {left : List β} {right : List γ}
  (even : ∀ first ∈ left, ∀ second ∈ right, (combine first second).length = length)
include even

theorem length_of_mem_zipWith {joined : List α} (member : joined ∈ List.zipWith combine left right) :
    joined.length = length := by
  rw [← List.map_uncurry_zip_eq_zipWith] at member
  obtain ⟨⟨first, second⟩, inside, rfl⟩ := List.mem_map.mp member
  obtain ⟨firstMember, secondMember⟩ := List.of_mem_zip inside
  exact even first firstMember second secondMember

theorem length_flatten_zipWith (same : left.length = right.length) :
    (List.zipWith combine left right).flatten.length = length * left.length := by
  rw [length_flatten_of_even _ fun _ member => length_of_mem_zipWith even member,
    List.length_zipWith, ← same, Nat.min_self]

theorem run_flatten_zipWith {index : Nat} {first : β} {second : γ}
    (firstPresent : left[index]? = some first) (secondPresent : right[index]? = some second) :
    run length (List.zipWith combine left right).flatten index = combine first second := by
  refine run_flatten (fun _ member => length_of_mem_zipWith even member) ?_
  rw [List.getElem?_zipWith, firstPresent, secondPresent]

end Joined

/-! ## Columns -/

theorem columns_cons (length : Nat) (row : List α) (rows : List (List α)) :
    columns length (row :: rows) = List.zipWith List.cons row (columns length rows) :=
  rfl

/-- Columns of long enough rows collect the items of the rows position by position. -/
theorem columns_eq_map (length : Nat) (rows : List (List α)) (default : α)
    (long : ∀ row ∈ rows, length ≤ row.length) :
    columns length rows =
      (List.range length).map fun position => rows.map (·.getD position default) := by
  induction rows with
  | nil =>
    refine List.ext_getElem ?_ fun index _ _ => ?_
    · simp [columns]
    · simp [columns]
  | cons row rows ih =>
    have enough : length ≤ row.length := long row (List.mem_cons_self ..)
    have rest := ih fun other member => long other (List.mem_cons_of_mem _ member)
    rw [columns_cons, rest]
    refine List.ext_getElem ?_ fun index _ inside => ?_
    · simp [enough]
    · have short : index < length := by simpa using inside
      simp [List.getElem?_eq_getElem (Nat.lt_of_lt_of_le short enough)]

/-- The columns of the runs of a list, by the positions of their items in the list. -/
theorem columns_components {samples length : Nat} (count : Nat) (items : List α) (default : α)
    (full : items.length = length * count) (fits : samples ≤ length) :
    columns samples (components length count items) =
      (List.range samples).map fun position =>
        (List.range count).map fun index => items.getD (index * length + position) default := by
  have long : ∀ run ∈ components length count items, samples ≤ run.length :=
    fun run member => by rw [length_of_mem_components full member]; exact fits
  rw [columns_eq_map samples _ default long]
  refine List.map_congr_left ?_
  intro position inside
  have short : position < length := Nat.lt_of_lt_of_le (List.mem_range.mp inside) fits
  rw [components_eq_map, List.map_map]
  exact List.map_congr_left fun index _ => getD_run items index short default

/-! ## Pointwise combination -/

theorem getD_zipWith (combine : α → β → γ) (left : List α) (right : List β) {index : Nat}
    (inLeft : index < left.length) (inRight : index < right.length) (leftDefault : α)
    (rightDefault : β) (default : γ) :
    (List.zipWith combine left right).getD index default =
      combine (left.getD index leftDefault) (right.getD index rightDefault) := by
  rw [List.getD_eq_getElem _ _ (by simp [inLeft, inRight]), List.getElem_zipWith,
    List.getD_eq_getElem _ _ inLeft, List.getD_eq_getElem _ _ inRight]

theorem run_zipWith (combine : α → β → γ) (length : Nat) (left : List α) (right : List β)
    (index : Nat) :
    run length (List.zipWith combine left right) index =
      List.zipWith combine (run length left index) (run length right index) := by
  rw [run, List.drop_zipWith, List.take_zipWith]
  rfl

theorem getD_map (image : α → β) (items : List α) {index : Nat} (inside : index < items.length)
    (itemDefault : α) (default : β) :
    (items.map image).getD index default = image (items.getD index itemDefault) := by
  rw [List.getD_eq_getElem _ _ (by simpa using inside), List.getElem_map,
    List.getD_eq_getElem _ _ inside]

theorem getD_map_range (image : Nat → α) {index count : Nat} (inside : index < count)
    (default : α) : ((List.range count).map image).getD index default = image index := by
  rw [List.getD_eq_getElem _ _ (by simpa using inside), List.getElem_map, List.getElem_range]

/-! ## Fewer columns -/

theorem zipWith_take_left (combine : α → β → γ) (count : Nat) (left : List α) (right : List β) :
    List.zipWith combine (left.take count) right = (List.zipWith combine left right).take count := by
  induction count generalizing left right with
  | zero => simp
  | succ count ih =>
    cases left with
    | nil => simp
    | cons first left =>
      cases right with
      | nil => simp
      | cons second right => simp [ih]

theorem zipWith_take_right (combine : α → β → γ) (count : Nat) (left : List α) (right : List β) :
    List.zipWith combine left (right.take count) = (List.zipWith combine left right).take count := by
  rw [List.zipWith_comm, zipWith_take_left, List.zipWith_comm]

theorem columns_of_le {samples length : Nat} (fewer : samples ≤ length) (rows : List (List α)) :
    columns samples rows = (columns length rows).take samples := by
  induction rows with
  | nil => rw [columns, columns, List.foldr_nil, List.foldr_nil, List.take_replicate,
      Nat.min_eq_left fewer]
  | cons row rows ih => rw [columns_cons, columns_cons, ih, zipWith_take_right]

theorem length_columns_le (length : Nat) (rows : List (List α)) :
    (columns length rows).length ≤ length := by
  rw [columns_of_le (Nat.le_refl length)]
  exact List.length_take_le ..

/-- Columns of shortened rows, as long as these are long enough, are those of the rows. -/
theorem columns_map_take {samples length : Nat} (fewer : samples ≤ length) (rows : List (List α)) :
    columns samples (rows.map (·.take length)) = columns samples rows := by
  induction rows with
  | nil => rfl
  | cons row rows ih =>
    have short : (List.zipWith List.cons row (columns samples rows)).length ≤ length := by
      have bound := length_columns_le samples rows
      rw [List.length_zipWith]
      omega
    rw [List.map_cons, columns_cons, columns_cons, ih, zipWith_take_left,
      List.take_of_length_le short]

/-! ## Two positions -/

/-- Replaces the items of two positions by what an operation makes of them. -/
def replacePair? (operation? : α → α → Option (α × α)) (first second : Nat) (items : List α) :
    Option (List α) := do
  let left ← items[first]?
  let right ← items[second]?
  let made ← operation? left right
  some ((items.set first made.1).set second made.2)

theorem replacePair?_eq {operation? : α → α → Option (α × α)} (before middle after : List α)
    {first second : α} {made : α × α} (answer : operation? first second = some made) :
    replacePair? operation? before.length (before.length + (middle.length + 1))
        (before ++ first :: (middle ++ second :: after)) =
      some (before ++ made.1 :: (middle ++ made.2 :: after)) := by
  have firstFound : (before ++ first :: (middle ++ second :: after))[before.length]? =
      some first := by simp
  have secondFound : (before ++ first :: (middle ++ second :: after))[before.length +
      (middle.length + 1)]? = some second := by simp
  have firstSet : (before ++ first :: (middle ++ second :: after)).set before.length made.1 =
      before ++ made.1 :: (middle ++ second :: after) := by simp
  simp only [replacePair?, firstFound, secondFound, answer, firstSet, Option.bind_eq_bind,
    Option.bind_some]
  simp

end RingLwe
