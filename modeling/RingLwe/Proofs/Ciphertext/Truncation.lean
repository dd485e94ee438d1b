import RingLwe.Proofs.Ciphertext

/-!
# Truncation inside the buffer

Truncation moves the kept part of each run to the front of the buffer, run after
run, and then cuts off what is behind.  A run may be moved over a part of itself
or of runs that were moved before, but never over one that is still to be moved
(`copyWithin?_run`), so all runs arrive as they were (`moveRuns?_eq`), and no
move leaves the buffer (`Ciphertext.truncateInPlace?_eq`).

The result is described by where its residues were before
(`Ciphertext.Truncated`).  There is one such ciphertext, and truncation gives it
exactly when there are enough coefficients (`Ciphertext.truncate_eq_ok_iff`).  So
truncations in sequence are one truncation to the last number
(`Ciphertext.truncateAll_eq_ok_iff`).
-/

set_option autoImplicit false

namespace RingLwe

/-! ## Moving runs inside a buffer -/

section Buffers

variable {α : Type}

/-- The list in which the items from `first` up to `last` have been copied over those from `target`
on, as if through a buffer of their own, if the list has all of these positions. -/
def copyWithin? (items : List α) (first last target : Nat) : Option (List α) :=
  if first ≤ last ∧ last ≤ items.length ∧ target + (last - first) ≤ items.length then
    some (items.take target ++ (items.drop first).take (last - first) ++
      items.drop (target + (last - first)))
  else
    none

/-- The list in which the first `new` items of each of the first `count` runs of length `old` have
been moved to the front, run after run. -/
def moveRuns? (old new count : Nat) (items : List α) : Option (List α) :=
  (List.range count).foldlM
    (fun items index => copyWithin? items (index * old) (index * old + new) (index * new)) items

variable {old new count : Nat} {items : List α} (full : items.length = old * count)
  (shorter : new ≤ old)
include full shorter

/-- Moving a run behind those that were moved before reads items that no move has touched. -/
theorem copyWithin?_run {front : List α} {index : Nat} (frontLength : front.length = index * new)
    (present : index < count) :
    copyWithin? (front ++ items.drop (index * new)) (index * old) (index * old + new) (index * new) =
      some (front ++ (run old items index).take new ++ items.drop ((index + 1) * new)) := by
  have behind : index * new ≤ index * old := Nat.mul_le_mul_left index shorter
  have inside : index * old + old ≤ items.length := by
    rw [full, ← Nat.succ_mul, Nat.mul_comm old]
    exact Nat.mul_le_mul_right old present
  have length : (front ++ items.drop (index * new)).length = items.length := by
    rw [List.length_append, List.length_drop, frontLength]
    omega
  have source : (front ++ items.drop (index * new)).drop (index * old) =
      items.drop (index * old) := by
    rw [List.drop_append, List.drop_eq_nil_of_le (by omega), List.nil_append, List.drop_drop,
      frontLength, Nat.add_sub_cancel' behind]
  have rest : (front ++ items.drop (index * new)).drop (index * new + new) =
      items.drop ((index + 1) * new) := by
    rw [List.drop_append, List.drop_eq_nil_of_le (by omega), List.nil_append, List.drop_drop,
      frontLength, Nat.add_sub_cancel_left, Nat.succ_mul]
  rw [copyWithin?, length, Nat.add_sub_cancel_left, if_pos ⟨by omega, by omega, by omega⟩, source,
    rest, List.take_left' frontLength, run, List.take_take, Nat.min_eq_left shorter]

/-- The kept parts of runs, joined, have the length of that many parts. -/
theorem length_flatMap_take_run {moved : Nat} (enough : moved ≤ count) :
    ((List.range moved).flatMap fun index => (run old items index).take new).length =
      moved * new := by
  have even : ∀ cut ∈ (List.range moved).map fun index => (run old items index).take new,
      cut.length = new := by
    intro cut member
    obtain ⟨index, inside, rfl⟩ := List.mem_map.mp member
    have present := Nat.lt_of_lt_of_le (List.mem_range.mp inside) enough
    rw [List.length_take, length_run full present, Nat.min_eq_left shorter]
  rw [List.flatMap_def, length_flatten_of_even _ even, List.length_map, List.length_range,
    Nat.mul_comm]

/-- Moved runs stand in front one after the other, and what was not overwritten stays. -/
theorem moveRuns?_eq {moved : Nat} (enough : moved ≤ count) :
    moveRuns? old new moved items =
      some ((List.range moved).flatMap (fun index => (run old items index).take new) ++
        items.drop (moved * new)) := by
  induction moved with
  | zero => simp [moveRuns?]
  | succ moved ih =>
    have present : moved < count := enough
    have front := length_flatMap_take_run full shorter (Nat.le_of_lt present)
    have before := ih (Nat.le_of_lt present)
    rw [moveRuns?] at before ⊢
    rw [List.range_succ, List.foldlM_append, before, Option.bind_eq_bind, Option.bind_some,
      List.foldlM_cons, copyWithin?_run full shorter front present, List.flatMap_append,
      List.flatMap_singleton]
    rfl

end Buffers

example : moveRuns? 3 2 3 [10, 11, 12, 20, 21, 22, 30, 31, 32] =
    some [10, 11, 20, 21, 30, 31, 30, 31, 32] :=
  rfl

namespace Ciphertext

/-- Truncation inside the buffer: the kept parts of the runs are moved to the front, and what is
behind them is cut off. -/
def truncateInPlace? (ciphertext : Ciphertext) (kept : Nat) :
    Option (Except Failure Ciphertext) :=
  if ciphertext.count < kept then
    some (.error (.truncationOutOfRange kept ciphertext.count))
  else if kept = ciphertext.count then
    some (.ok ciphertext)
  else do
    let primes := ciphertext.context.primeCount
    let moved ← moveRuns? ciphertext.count kept primes ciphertext.residues
    return .ok { ciphertext with count := kept, residues := moved.take (kept * primes) }

/-- Whether a ciphertext holds the first coefficients of another one and nothing else. -/
structure Truncated (ciphertext : Ciphertext) (kept : Nat) (shorter : Ciphertext) : Prop where
  context : shorter.context = ciphertext.context
  count : shorter.count = kept
  length : shorter.residues.length = kept * ciphertext.context.primeCount
  residues : ∀ index position, index < ciphertext.context.primeCount → position < kept →
    shorter.residues[index * kept + position]? =
      ciphertext.residues[index * ciphertext.count + position]?

namespace Truncated

variable {ciphertext shorter shortest : Ciphertext} {kept fewer : Nat}

/-- There is at most one ciphertext with the first coefficients of another one. -/
theorem unique {other : Ciphertext} (truncated : ciphertext.Truncated kept shorter)
    (also : ciphertext.Truncated kept other) : shorter = other := by
  have words : shorter.residues = other.residues := by
    refine List.ext_getElem? ?_
    intro position
    by_cases inside : position < kept * ciphertext.context.primeCount
    · have positive : 0 < kept := Nat.pos_of_mul_pos_right (Nat.zero_lt_of_lt inside)
      have index := Nat.div_lt_of_lt_mul inside
      have offset := Nat.mod_lt position positive
      rw [← Nat.div_add_mod' position kept, truncated.residues _ _ index offset,
        also.residues _ _ index offset]
    · rw [List.getElem?_eq_none (truncated.length ▸ Nat.le_of_not_lt inside),
        List.getElem?_eq_none (also.length ▸ Nat.le_of_not_lt inside)]
  have contexts := truncated.context.trans also.context.symm
  have counts := truncated.count.trans also.count.symm
  cases shorter
  cases other
  simp_all only

theorem trans (first : ciphertext.Truncated kept shorter)
    (second : shorter.Truncated fewer shortest) (le : fewer ≤ kept) :
    ciphertext.Truncated fewer shortest := by
  refine ⟨second.context.trans first.context, second.count, ?_, ?_⟩
  · rw [second.length, first.context]
  · intro index position present inside
    rw [second.residues index position (first.context ▸ present) inside, first.count,
      first.residues index position present (Nat.lt_of_lt_of_le inside le)]

end Truncated

section Belongs

variable {context : Context} {ciphertext : Ciphertext} (belongs : ciphertext.Belongs context)
include belongs

theorem Belongs.truncated_self : ciphertext.Truncated ciphertext.count ciphertext := by
  obtain rfl := belongs.bound
  exact ⟨rfl, rfl, belongs.full, fun _ _ _ _ => rfl⟩

/-- With enough coefficients truncation succeeds and keeps the first ones. -/
theorem Belongs.exists_truncated {kept : Nat} (enough : kept ≤ ciphertext.count) :
    ∃ shorter, ciphertext.truncate kept = .ok shorter ∧ ciphertext.Truncated kept shorter := by
  obtain rfl := belongs.bound
  obtain ⟨shorter, truncated, own, count, residues⟩ := belongs.truncate_spec enough
  refine ⟨shorter, truncated, own.bound, count, count ▸ own.full, ?_⟩
  intro index position present inside
  have before := getElem?_eq_some_getD belongs.full present (Nat.lt_of_lt_of_le inside enough) 0
  have after := getElem?_eq_some_getD (count ▸ own.full) present inside 0
  rw [after, before, residues index position present inside]

/-- Truncation succeeds exactly when there are enough coefficients, and keeps the first ones. -/
theorem truncate_eq_ok_iff {kept : Nat} {shorter : Ciphertext} :
    ciphertext.truncate kept = .ok shorter ↔
      kept ≤ ciphertext.count ∧ ciphertext.Truncated kept shorter := by
  constructor
  · intro truncated
    have enough : kept ≤ ciphertext.count := by
      rw [truncate, ite_error_eq_ok_iff] at truncated
      exact Nat.not_lt.mp truncated.1
    obtain ⟨made, again, spec⟩ := belongs.exists_truncated enough
    rw [truncated] at again
    cases again
    exact ⟨enough, spec⟩
  · rintro ⟨enough, truncated⟩
    obtain ⟨made, result, also⟩ := belongs.exists_truncated enough
    rw [result, also.unique truncated]

theorem truncate_self : ciphertext.truncate ciphertext.count = .ok ciphertext :=
  (truncate_eq_ok_iff belongs).mpr ⟨Nat.le_refl _, belongs.truncated_self⟩

/-- The runs of a truncated ciphertext are the kept parts of the runs. -/
theorem components_truncate {kept : Nat} {shorter : Ciphertext}
    (truncated : ciphertext.truncate kept = .ok shorter) :
    components kept context.primeCount shorter.residues =
      (components ciphertext.count context.primeCount ciphertext.residues).map (·.take kept) := by
  obtain ⟨enough, _⟩ := (truncate_eq_ok_iff belongs).mp truncated
  rw [truncate, if_neg (Nat.not_lt.mpr enough), belongs.bound] at truncated
  cases truncated
  have cut := components_flatten kept _ (length_of_mem_cut belongs enough)
  rw [List.length_map, length_components] at cut
  rw [List.flatMap_def, cut]

/-- No move of a truncation leaves the buffer, and the moves give the truncated ciphertext. -/
theorem truncateInPlace?_eq (kept : Nat) :
    ciphertext.truncateInPlace? kept = some (ciphertext.truncate kept) := by
  rw [truncateInPlace?]
  split
  next few => rw [truncate, if_pos few]
  next enough =>
    split
    next whole => rw [whole, truncate_self belongs]
    next =>
      obtain rfl := belongs.bound
      have shorter : kept ≤ ciphertext.count := Nat.le_of_not_lt enough
      have front := length_flatMap_take_run belongs.full shorter (Nat.le_refl _)
      rw [Nat.mul_comm] at front
      simp only [moveRuns?_eq belongs.full shorter (Nat.le_refl _), Option.bind_eq_bind,
        Option.bind_some, List.take_left' front, truncate, if_neg enough, components_eq_map,
        List.flatMap_map]
      rfl

end Belongs

/-! ## Truncations in sequence -/

/-- Truncations to the given numbers of coefficients, one after the other. -/
def truncateAll (ciphertext : Ciphertext) (counts : List Nat) : Except Failure Ciphertext :=
  counts.foldlM truncate ciphertext

section Sequence

variable {context : Context}

/-- Truncating a truncated ciphertext is truncating once. -/
theorem truncate_truncate {ciphertext shorter : Ciphertext} (belongs : ciphertext.Belongs context)
    {kept fewer : Nat} (truncated : ciphertext.truncate kept = .ok shorter) (le : fewer ≤ kept) :
    shorter.truncate fewer = ciphertext.truncate fewer := by
  obtain ⟨enough, first⟩ := (truncate_eq_ok_iff belongs).mp truncated
  have fits : fewer ≤ shorter.count := first.count.symm ▸ le
  obtain ⟨shortest, again, second⟩ := (belongs.of_truncate truncated).exists_truncated fits
  rw [again]
  exact ((truncate_eq_ok_iff belongs).mpr
    ⟨Nat.le_trans le enough, first.trans second le⟩).symm

theorem getLastD_le {kept : Nat} {counts : List Nat}
    (decreasing : (kept :: counts).Pairwise (· ≥ ·)) : counts.getLastD kept ≤ kept := by
  rcases List.mem_cons.mp List.getLastD_mem_cons with same | later
  · exact Nat.le_of_eq same
  · exact (List.pairwise_cons.mp decreasing).1 _ later

/-- Truncations in sequence succeed exactly when no number is larger than those before it, and are
then one truncation to the last number. -/
theorem truncateAll_eq_ok_iff {ciphertext : Ciphertext} (belongs : ciphertext.Belongs context)
    {counts : List Nat} {final : Ciphertext} :
    ciphertext.truncateAll counts = .ok final ↔
      (ciphertext.count :: counts).Pairwise (· ≥ ·) ∧
        ciphertext.truncate (counts.getLastD ciphertext.count) = .ok final := by
  induction counts generalizing ciphertext with
  | nil =>
    rw [List.getLastD_nil, truncate_self belongs]
    exact ⟨fun same => ⟨List.pairwise_singleton .., same⟩, fun same => same.2⟩
  | cons kept counts ih =>
    have later : ∀ {shorter}, ciphertext.truncate kept = .ok shorter →
        (shorter.truncateAll counts = .ok final ↔ (kept :: counts).Pairwise (· ≥ ·) ∧
          ciphertext.truncate (counts.getLastD kept) = .ok final) := by
      intro shorter truncated
      rw [ih (belongs.of_truncate truncated),
        ((truncate_eq_ok_iff belongs).mp truncated).2.count, and_congr_right_iff]
      intro decreasing
      rw [truncate_truncate belongs truncated (getLastD_le decreasing)]
    have first : ciphertext.truncateAll (kept :: counts) = .ok final ↔
        ∃ shorter, ciphertext.truncate kept = .ok shorter ∧ shorter.truncateAll counts = .ok final :=
      bind_eq_ok_iff
    rw [first, List.getLastD_cons, List.pairwise_cons_cons_iff_of_trans, and_assoc]
    constructor
    · rintro ⟨shorter, truncated, rest⟩
      exact ⟨((truncate_eq_ok_iff belongs).mp truncated).1, (later truncated).mp rest⟩
    · rintro ⟨enough, rest⟩
      obtain ⟨shorter, truncated, _⟩ := belongs.exists_truncated enough
      exact ⟨shorter, truncated, (later truncated).mpr rest⟩

end Sequence

end Ciphertext

end RingLwe
