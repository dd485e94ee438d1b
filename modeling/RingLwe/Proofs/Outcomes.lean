import Mathlib

/-!
# Outcomes that may fail

How a composed outcome succeeds: its first part succeeds and the rest succeeds
with that value (`bind_eq_ok_iff`), and a list of outcomes succeeds item by
item (`forall₂_of_mapM_eq_some`, `forall₂_of_mapM_eq_ok`).  It fails with the
fault of its first item that fails (`mapM_eq_error_iff`).
-/

set_option autoImplicit false

namespace RingLwe

variable {α β ε : Type}

/-- A composed outcome succeeds when its first part does and the rest does with that value. -/
theorem bind_eq_ok_iff {first : Except ε α} {rest : α → Except ε β} {result : β} :
    first >>= rest = .ok result ↔ ∃ value, first = .ok value ∧ rest value = .ok result := by
  cases first with
  | error fault =>
    constructor
    · intro impossible
      cases impossible
    · rintro ⟨_, impossible, _⟩
      cases impossible
  | ok value =>
    constructor
    · intro succeeds
      exact ⟨value, rfl, succeeds⟩
    · rintro ⟨_, same, succeeds⟩
      cases same
      exact succeeds

theorem ok_bind (value : α) (rest : α → Except ε β) : Except.ok value >>= rest = rest value :=
  rfl

theorem ite_error_eq_ok_iff {condition : Prop} [Decidable condition] {fault : ε}
    {rest : Except ε β} {result : β} :
    (if condition then .error fault else rest) = .ok result ↔ ¬ condition ∧ rest = .ok result := by
  by_cases refused : condition
  · simp [refused]
  · simp [refused]

/-! ## Lists -/

/-- A result that stands beside an item. -/
theorem exists_of_mem_of_forall₂ {related : α → β → Prop} {items : List α} {results : List β}
    (each : List.Forall₂ related items results) {result : β} (member : result ∈ results) :
    ∃ item ∈ items, related item result := by
  induction each with
  | nil => cases member
  | cons first _ ih =>
    rcases List.mem_cons.mp member with rfl | later
    · exact ⟨_, List.mem_cons_self .., first⟩
    · obtain ⟨item, inside, found⟩ := ih later
      exact ⟨item, List.mem_cons_of_mem _ inside, found⟩

/-- Results from which their items can be read give the list of items back. -/
theorem map_eq_of_forall₂ {related : α → β → Prop} {items : List α} {results : List β}
    (each : List.Forall₂ related items results) {view : β → α}
    (read : ∀ item ∈ items, ∀ result, related item result → view result = item) :
    results.map view = items := by
  induction each with
  | nil => rfl
  | cons first _ ih =>
    rw [List.map_cons, read _ (List.mem_cons_self ..) _ first,
      ih fun item member => read item (List.mem_cons_of_mem _ member)]

/-- A relation between any two items carries over to their results. -/
theorem pairwise_of_forall₂ {related : α → β → Prop} {earlier : α → α → Prop} {later : β → β → Prop}
    {items : List α} {results : List β} (each : List.Forall₂ related items results)
    (carries : ∀ first second firstResult secondResult, earlier first second →
      related first firstResult → related second secondResult → later firstResult secondResult)
    (pairs : items.Pairwise earlier) : results.Pairwise later := by
  induction each with
  | nil => exact .nil
  | cons found rest ih =>
    obtain ⟨first, others⟩ := List.pairwise_cons.mp pairs
    refine .cons (fun result member => ?_) (ih others)
    obtain ⟨item, inside, made⟩ := exists_of_mem_of_forall₂ rest member
    exact carries _ _ _ _ (first item inside) found made

/-- The items of a list that succeeds as a whole succeed one by one. -/
theorem forall₂_of_mapM_eq_some {outcome : α → Option β} {items : List α} {results : List β}
    (whole : items.mapM outcome = some results) :
    List.Forall₂ (fun item result => outcome item = some result) items results := by
  induction items generalizing results with
  | nil =>
    cases whole
    exact .nil
  | cons item items ih =>
    rw [List.mapM_cons] at whole
    obtain ⟨first, found, rest⟩ := Option.bind_eq_some_iff.mp whole
    obtain ⟨others, remaining, same⟩ := Option.bind_eq_some_iff.mp rest
    cases same
    exact .cons found (ih remaining)

/-- A list whose items succeed one by one succeeds as a whole, if results may be absent. -/
theorem exists_mapM_eq_some {outcome : α → Option β} {items : List α}
    (each : ∀ item ∈ items, ∃ result, outcome item = some result) :
    ∃ results, items.mapM outcome = some results := by
  induction items with
  | nil => exact ⟨[], rfl⟩
  | cons item items ih =>
    obtain ⟨first, others⟩ := List.forall_mem_cons.mp each
    obtain ⟨result, found⟩ := first
    obtain ⟨results, made⟩ := ih others
    refine ⟨result :: results, ?_⟩
    rw [List.mapM_cons, found, made]
    rfl

/-- A list of outcomes whose results are known one by one. -/
theorem mapM_eq_some_map {outcome : α → Option β} {result : α → β} {items : List α}
    (each : ∀ item ∈ items, outcome item = some (result item)) :
    items.mapM outcome = some (items.map result) := by
  induction items with
  | nil => rfl
  | cons item items ih =>
    obtain ⟨first, others⟩ := List.forall_mem_cons.mp each
    rw [List.mapM_cons, first, ih others]
    rfl

/-- Steps that agree on the items of a list have the same run over it. -/
theorem foldlM_congr {step other : β → α → Option β} {items : List α}
    (same : ∀ item ∈ items, ∀ state, step state item = other state item) (state : β) :
    items.foldlM step state = items.foldlM other state := by
  induction items generalizing state with
  | nil => rfl
  | cons item items ih =>
    obtain ⟨first, others⟩ := List.forall_mem_cons.mp same
    rw [List.foldlM_cons, List.foldlM_cons, first]
    exact congrArg _ (funext (ih others))

theorem forall₂_of_mapM_eq_ok {outcome : α → Except ε β} {items : List α} {results : List β}
    (whole : items.mapM outcome = .ok results) :
    List.Forall₂ (fun item result => outcome item = .ok result) items results := by
  induction items generalizing results with
  | nil =>
    cases whole
    exact .nil
  | cons item items ih =>
    rw [List.mapM_cons] at whole
    obtain ⟨first, found, rest⟩ := bind_eq_ok_iff.mp whole
    obtain ⟨others, remaining, same⟩ := bind_eq_ok_iff.mp rest
    cases same
    exact .cons found (ih remaining)

theorem mapM_eq_ok_of_forall₂ {outcome : α → Except ε β} {items : List α} {results : List β}
    (each : List.Forall₂ (fun item result => outcome item = .ok result) items results) :
    items.mapM outcome = .ok results := by
  induction each with
  | nil => rfl
  | cons found _ ih =>
    rw [List.mapM_cons, found, ok_bind, ih]
    rfl

theorem mapM_cons_eq_error_iff {outcome : α → Except ε β} {head : α} {items : List α} {fault : ε} :
    (head :: items).mapM outcome = .error fault ↔
      outcome head = .error fault ∨
        (∃ result, outcome head = .ok result) ∧ items.mapM outcome = .error fault := by
  rw [List.mapM_cons]
  cases outcome head with
  | error first => simp [bind, Except.bind]
  | ok result => cases items.mapM outcome <;> simp [bind, Except.bind, pure, Except.pure]

/-- A list of outcomes fails with the fault of its first item that fails. -/
theorem mapM_eq_error_iff {outcome : α → Except ε β} {items : List α} {fault : ε} :
    items.mapM outcome = .error fault ↔
      ∃ (position : Nat) (item : α), items[position]? = some item ∧ outcome item = .error fault ∧
        ∀ earlier < position, ∀ other, items[(earlier : Nat)]? = some other →
          ∃ result, outcome other = .ok result := by
  induction items with
  | nil => exact ⟨nofun, fun ⟨_, _, absent, _⟩ => nomatch absent⟩
  | cons head items ih =>
    rw [mapM_cons_eq_error_iff, ih]
    constructor
    · rintro (failed | ⟨first, position, item, present, failed, earlier⟩)
      · exact ⟨0, head, rfl, failed, fun _ before => absurd before (Nat.not_lt_zero _)⟩
      · refine ⟨position + 1, item, present, failed, fun place before other inside => ?_⟩
        cases place with
        | zero =>
          cases inside
          exact first
        | succ place => exact earlier place (Nat.lt_of_succ_lt_succ before) other inside
    · rintro ⟨position, item, present, failed, earlier⟩
      cases position with
      | zero =>
        cases present
        exact .inl failed
      | succ position =>
        refine .inr ⟨earlier 0 (Nat.succ_pos _) head rfl, position, item, present, failed, ?_⟩
        exact fun place before => earlier (place + 1) (Nat.succ_lt_succ before)

end RingLwe
